import Bohrium.Cluster.ExecuteInstr
import Bohrium.Library.CInt
import Bohrium.Library.Collectives

/-! # Gather and scatter

`comm_gather_scatter` of `vem/cluster/comm.cpp`: the data of a global array is at the master, one stretch of it at
each process. The counts and displacements that MPI gets are in bytes, and of type `int`. -/
namespace Bohrium.Cluster
open CInt Collectives
set_option autoImplicit false

/-- `sendcnts`: the last process gets the rest. -/
def sendcnts (worldsize : ℕ) (b : BhBase) (i : ℕ) : ℤ :=
  let s : ℤ := ↑(b.nelem / worldsize) * bhTypeSize b.type
  if i = worldsize - 1 then toInt32 (toInt32 s + ↑(b.nelem % worldsize) * bhTypeSize b.type) else toInt32 s

def displs (worldsize : ℕ) (b : BhBase) (i : ℕ) : ℤ := toInt32 (↑(b.nelem / worldsize) * bhTypeSize b.type * i)

section
variable {V : Type}

/-- The array of a base gets the elements. -/
def storeContents (m : Mem V) (b : BhBase) (xs : List V) : Mem V := fun l =>
  if l.1 = b ∧ 0 ≤ l.2 then xs[l.2.toNat]?.getD (m l) else m l

/-- `comm_gather_scatter` when it scatters: from the data at the master to the local arrays. -/
def commScatter (mpi : Operations V) (st : Stores) (worldsize : ℕ) (b : BhBase) (master : Mem V) (mems : ℕ → Mem V) :
    Option (ℕ → Mem V) :=
  (mpi.scatterv worldsize (bhTypeSize b.type) (contentsOf master b) (sendcnts worldsize b) (displs worldsize b)
    fun r => contentsOf (mems r) (arrayGetLocal st ⟨worldsize, r⟩ b)).map fun out r =>
      storeContents (mems r) (arrayGetLocal st ⟨worldsize, r⟩ b) (out r)

/-- `comm_gather_scatter` when it gathers: from the local arrays to the data at the master. -/
def commGather (mpi : Operations V) (st : Stores) (worldsize : ℕ) (b : BhBase) (mems : ℕ → Mem V) (master : Mem V) :
    Option (Mem V) :=
  (mpi.gatherv worldsize (bhTypeSize b.type) (fun r => contentsOf (mems r) (arrayGetLocal st ⟨worldsize, r⟩ b))
    (sendcnts worldsize b) (displs worldsize b) (contentsOf master b)).map (storeContents master b)

/-- The elements of an array are taken from `m`. -/
def copyBase (b : BhBase) (m m' : Mem V) : Mem V := fun l => if l.1 = b ∧ 0 ≤ l.2 ∧ l.2 < b.nelem then m l else m' l

end

/-- The sizes in bytes that are to be `int`s. -/
def IntSized (worldsize : ℕ) (b : BhBase) : Prop :=
  ∀ r < worldsize, FitsInt32 (↑(r * (b.nelem / worldsize)) * bhTypeSize b.type) ∧
    FitsInt32 (↑(arrayLocalNelem worldsize r b) * bhTypeSize b.type)

instance (worldsize : ℕ) (b : BhBase) : Decidable (IntSized worldsize b) := inferInstanceAs (Decidable (∀ r < worldsize, _))

/-! ## Stretches -/

theorem bhTypeSize_pos (t : BhType) : 0 < bhTypeSize t := by cases t <;> decide

section
variable {worldsize r : ℕ} {b : BhBase}

theorem displs_bytes (worldsize : ℕ) (b : BhBase) (r : ℕ) :
    displs worldsize b r = toInt32 (↑(r * (b.nelem / worldsize)) * bhTypeSize b.type) := by
  rw [displs]
  congr 1
  push_cast
  ring

theorem displs_eq (h : IntSized worldsize b) (hr : r < worldsize) :
    displs worldsize b r = ↑(r * (b.nelem / worldsize)) * bhTypeSize b.type := by
  rw [displs_bytes, toInt32_of_fits (h r hr).1]

theorem sendcnts_eq (h : IntSized worldsize b) (hr : r < worldsize) :
    sendcnts worldsize b r = ↑(arrayLocalNelem worldsize r b) * bhTypeSize b.type := by
  have hfit := (h r hr).2
  have hnonneg : (0 : ℤ) ≤ ↑(b.nelem / worldsize) * bhTypeSize b.type := by positivity
  rw [sendcnts]
  unfold arrayLocalNelem at hfit ⊢
  split at hfit
  · next hlast =>
    have hsum : (↑(b.nelem / worldsize + b.nelem % worldsize) * bhTypeSize b.type : ℤ) =
        ↑(b.nelem / worldsize) * bhTypeSize b.type + ↑(b.nelem % worldsize) * bhTypeSize b.type := by
      push_cast
      ring
    have hrest : (0 : ℤ) ≤ ↑(b.nelem % worldsize) * bhTypeSize b.type := by positivity
    have hfirst : FitsInt32 (↑(b.nelem / worldsize) * bhTypeSize b.type) := by
      unfold FitsInt32 at hfit ⊢
      omega
    rw [hsum] at hfit
    rw [if_pos hlast, if_pos hlast, toInt32_of_fits hfirst, toInt32_of_fits hfit, hsum]
  · next hlast =>
    rw [Nat.add_zero] at hfit
    rw [if_neg hlast, if_neg hlast, Nat.add_zero, toInt32_of_fits hfit]

/-- The stretches end where the array ends. -/
theorem stretch_le (hr : r < worldsize) : r * (b.nelem / worldsize) + arrayLocalNelem worldsize r b ≤ b.nelem := by
  have hdiv := Nat.div_add_mod b.nelem worldsize
  have hmul : (r + 1) * (b.nelem / worldsize) ≤ worldsize * (b.nelem / worldsize) := Nat.mul_le_mul_right _ hr
  rw [Nat.succ_mul] at hmul
  unfold arrayLocalNelem
  split
  · omega
  · omega

/-- Each element is in a stretch. -/
theorem exists_stretch (hws : 1 ≤ worldsize) {k : ℕ} (hk : k < b.nelem) :
    ∃ r < worldsize, ∃ j < arrayLocalNelem worldsize r b, k = r * (b.nelem / worldsize) + j := by
  have hmem : k ∈ (List.range b.nelem).map id := by rwa [List.map_id, List.mem_range]
  rw [← flatMap_stretches hws b id, List.mem_flatMap] at hmem
  obtain ⟨r, hr, hk⟩ := hmem
  obtain ⟨j, hj, rfl⟩ := List.mem_map.mp hk
  exact ⟨r, List.mem_range.mp hr, j, List.mem_range.mp hj, rfl⟩

/-- The arguments that MPI gets are the stretches of the processes. -/
theorem blocks (h : IntSized worldsize b) {length : ℕ} (hlength : length = b.nelem) {lengths : ℕ → ℕ}
    (hlengths : ∀ r, lengths r = arrayLocalNelem worldsize r b) : Blocks worldsize (bhTypeSize b.type) length lengths
      (sendcnts worldsize b) (displs worldsize b) (fun r => arrayLocalNelem worldsize r b) fun r => r * (b.nelem / worldsize) where
  counts r hr := sendcnts_eq h hr
  displs r hr := displs_eq h hr
  inside r hr := (stretch_le hr).trans hlength.ge
  fits r _ := (hlengths r).ge
  apart r s hrs hs := by
    left
    have hnext : (r + 1) * (b.nelem / worldsize) ≤ s * (b.nelem / worldsize) := Nat.mul_le_mul_right _ hrs
    rw [Nat.succ_mul] at hnext
    have hcount : arrayLocalNelem worldsize r b = b.nelem / worldsize := by
      unfold arrayLocalNelem
      rw [if_neg (by omega), Nat.add_zero]
    rw [hcount]
    exact hnext

end

/-! ## Data -/

section
variable {V : Type} {st : Stores} {worldsize : ℕ} {b : BhBase} {mems : ℕ → Mem V} {m master : Mem V}

theorem length_contentsOf (m : Mem V) (b : BhBase) : (contentsOf m b).length = b.nelem := by
  rw [contentsOf, List.length_map, List.length_range]

theorem getElem?_contentsOf (m : Mem V) (b : BhBase) {k : ℕ} (hk : k < b.nelem) : (contentsOf m b)[k]? = some (m (b, (k : ℤ))) := by
  rw [contentsOf, List.getElem?_map, List.getElem?_range hk, Option.map_some]

theorem storeContents_of_ne {b' : BhBase} (h : b' ≠ b) (xs : List V) (k : ℤ) : storeContents m b xs (b', k) = m (b', k) :=
  if_neg fun hcond => h hcond.1

theorem storeContents_self (xs : List V) (k : ℕ) : storeContents m b xs (b, (k : ℤ)) = xs[k]?.getD (m (b, (k : ℤ))) := by
  rw [storeContents, if_pos ⟨rfl, Int.natCast_nonneg k⟩, Int.toNat_natCast]

variable {mpi : Operations V}

/-- The processes get their stretches. -/
theorem commScatter_spec (hmpi : Documented mpi) (h : IntSized worldsize b) (hs : Scattered st worldsize mems m) (master : Mem V) :
    ∃ mems', commScatter mpi st worldsize b master mems = some mems' ∧ Scattered st worldsize mems' (copyBase b master m) := by
  have hblocks := @blocks worldsize b h _ (length_contentsOf master b)
    (fun r => (contentsOf (mems r) (arrayGetLocal st ⟨worldsize, r⟩ b)).length) fun r => length_contentsOf _ _
  obtain ⟨out, hout, hget⟩ := hmpi.scatterv (bhTypeSize_pos b.type) hblocks
  refine ⟨_, by rw [commScatter, hout, Option.map_some], fun b' r k hr hk => ?_⟩
  by_cases hb : b' = b
  · subst hb
    have hin : r * (b'.nelem / worldsize) + k < b'.nelem := lt_of_lt_of_le (Nat.add_lt_add_left hk _) (stretch_le hr)
    have htake : k < (((contentsOf master b').drop (r * (b'.nelem / worldsize))).take (arrayLocalNelem worldsize r b')).length := by
      rw [List.length_take, List.length_drop, length_contentsOf]
      omega
    rw [storeContents_self, hget r hr, List.getElem?_append_left htake, List.getElem?_take_of_lt hk, List.getElem?_drop,
      getElem?_contentsOf _ _ hin, Option.getD_some, copyBase, if_pos ⟨rfl, Int.natCast_nonneg _, Int.ofNat_lt.mpr hin⟩]
  · have hlocal : arrayGetLocal st ⟨worldsize, r⟩ b' ≠ arrayGetLocal st ⟨worldsize, r⟩ b :=
      fun heq => hb (st.local_inj _ _ (congrArg BhBase.addr heq))
    rw [storeContents_of_ne hlocal, copyBase, if_neg (fun hcond => hb hcond.1)]
    exact hs b' r k hr hk

/-- The master gets all stretches. -/
theorem commGather_spec (hmpi : Documented mpi) (h : IntSized worldsize b) (hws : 1 ≤ worldsize) (hs : Scattered st worldsize mems m)
    (master : Mem V) : commGather mpi st worldsize b mems master = some (copyBase b m master) := by
  have hblocks := @blocks worldsize b h _ (length_contentsOf master b)
    (fun r => (contentsOf (mems r) (arrayGetLocal st ⟨worldsize, r⟩ b)).length) fun r => length_contentsOf _ _
  obtain ⟨out, hout, hlength, hget, -⟩ := hmpi.gatherv (bhTypeSize_pos b.type) hblocks
  rw [commGather, hout, Option.map_some]
  congr 1
  funext l
  obtain ⟨b', k⟩ := l
  by_cases hb : b' = b
  · subst hb
    by_cases hk : 0 ≤ k ∧ k < b'.nelem
    · obtain ⟨k, rfl⟩ := Int.eq_ofNat_of_zero_le hk.1
      obtain ⟨r, hr, j, hj, rfl⟩ := exists_stretch hws (Int.ofNat_lt.mp hk.2)
      rw [storeContents_self, hget r hr j hj, getElem?_contentsOf _ _ hj, Option.getD_some, hs b' r j hr hj, copyBase, if_pos ⟨rfl, hk⟩]
    · rw [copyBase, if_neg fun hcond => hk hcond.2, storeContents]
      split
      · next hcond =>
        rw [List.getElem?_eq_none, Option.getD_none]
        rw [hlength, length_contentsOf]
        dsimp only at hcond
        omega
      · rfl
  · rw [storeContents_of_ne hb, copyBase, if_neg (fun hcond => hb hcond.1)]

end

/-! ## Sizes -/

theorem toInt32_le {x : ℤ} (hx : 0 ≤ x) (h : ¬ FitsInt32 x) : toInt32 x ≤ x - 4294967296 := by
  have hfit := fits_toInt32 x
  have hmod := toInt32_emod x
  unfold FitsInt32 at h hfit
  omega

section
variable {worldsize r : ℕ} {b : BhBase}

theorem sendcnts_le (h : ¬ FitsInt32 (↑(arrayLocalNelem worldsize r b) * bhTypeSize b.type)) :
    sendcnts worldsize b r ≤ ↑(arrayLocalNelem worldsize r b) * bhTypeSize b.type - 4294967296 := by
  have hnonneg : (0 : ℤ) ≤ ↑(b.nelem / worldsize) * bhTypeSize b.type := by positivity
  have hrest : (0 : ℤ) ≤ ↑(b.nelem % worldsize) * bhTypeSize b.type := by positivity
  rw [sendcnts]
  unfold arrayLocalNelem at h ⊢
  split
  · next hlast =>
    rw [if_pos hlast, Nat.cast_add, add_mul] at h
    rw [Nat.cast_add, add_mul]
    generalize (↑(b.nelem / worldsize) * bhTypeSize b.type : ℤ) = s at *
    generalize (↑(b.nelem % worldsize) * bhTypeSize b.type : ℤ) = rest at *
    have hfit := fits_toInt32 (toInt32 s + rest)
    have hmod := toInt32_emod s
    have hmod' := toInt32_emod (toInt32 s + rest)
    unfold FitsInt32 at h hfit
    omega
  · next hlast =>
    rw [if_neg hlast, Nat.add_zero] at h
    rw [Nat.add_zero]
    exact toInt32_le hnonneg h

end

/-- MPI is told to move every element of a stretch, with all of its bytes, between the master and the process of the
stretch. -/
def Named (worldsize : ℕ) (b : BhBase) : Prop := ∀ r < worldsize, ∀ k < arrayLocalNelem worldsize r b,
  (↑(k + 1) * bhTypeSize b.type : ℤ) ≤ sendcnts worldsize b r ∧
    displs worldsize b r + k * bhTypeSize b.type = ↑(r * (b.nelem / worldsize) + k) * bhTypeSize b.type

section
variable {worldsize r : ℕ} {b : BhBase}

theorem displs_fits (h : Named worldsize b) (hr : r < worldsize) : FitsInt32 (↑(r * (b.nelem / worldsize)) * bhTypeSize b.type) := by
  by_contra hdispl
  have hlocal : 0 < arrayLocalNelem worldsize r b := by
    by_contra hzero
    have hnone : b.nelem / worldsize = 0 := by
      have hsum := Nat.eq_zero_of_not_pos hzero
      unfold arrayLocalNelem at hsum
      exact (Nat.add_eq_zero_iff.mp hsum).1
    exact hdispl (by rw [hnone, Nat.mul_zero, Nat.cast_zero, zero_mul]; decide)
  have hle : displs worldsize b r ≤ ↑(r * (b.nelem / worldsize)) * bhTypeSize b.type - 4294967296 := by
    rw [displs_bytes]
    exact toInt32_le (by positivity) hdispl
  -- the first element is looked for before its place
  have hfirst := (h r hr 0 hlocal).2
  rw [Nat.cast_zero, zero_mul, add_zero, Nat.add_zero] at hfirst
  omega

theorem sendcnts_fits (h : Named worldsize b) (hr : r < worldsize) :
    FitsInt32 (↑(arrayLocalNelem worldsize r b) * bhTypeSize b.type) := by
  by_contra hcount
  have hlocal : 0 < arrayLocalNelem worldsize r b := by
    by_contra hzero
    have hnone := Nat.eq_zero_of_not_pos hzero
    exact hcount (by rw [hnone, Nat.cast_zero, zero_mul]; decide)
  -- the last element is behind the count
  have hlast := (h r hr (arrayLocalNelem worldsize r b - 1) (by omega)).1
  rw [Nat.sub_add_cancel hlocal] at hlast
  have hle := sendcnts_le hcount
  omega

theorem named_iff : Named worldsize b ↔ IntSized worldsize b := by
  have hpos : (0 : ℤ) < bhTypeSize b.type := by exact_mod_cast bhTypeSize_pos b.type
  constructor
  · intro h r hr
    exact ⟨displs_fits h hr, sendcnts_fits h hr⟩
  · intro h r hr k hk
    rw [sendcnts_eq h hr, displs_eq h hr, Nat.cast_add (r * (b.nelem / worldsize)), add_mul]
    exact ⟨mul_le_mul_of_nonneg_right (by exact_mod_cast hk) hpos.le, rfl⟩

end

/-- MPI is told to move the right elements exactly if every displacement and every count, in bytes, is an `int`. Then the
processes get their stretches, and the master gets them back. -/
theorem commGatherScatter_iff {V : Type} (mpi : Operations V) (hmpi : Documented mpi) (st : Stores) (worldsize : ℕ)
    (hws : 1 ≤ worldsize) (b : BhBase) : (Named worldsize b ↔ IntSized worldsize b) ∧
    (IntSized worldsize b → ∀ (master m : Mem V) (mems : ℕ → Mem V), Scattered st worldsize mems m →
      (∃ mems', commScatter mpi st worldsize b master mems = some mems' ∧ Scattered st worldsize mems' (copyBase b master m)) ∧
        commGather mpi st worldsize b mems master = some (copyBase b m master)) :=
  ⟨named_iff, fun h master _ _ hs => ⟨commScatter_spec hmpi h hs master, commGather_spec hmpi h hws hs master⟩⟩

/-- Ten numbers for three processes. -/
theorem commGatherScatter_ten : ∃ mems', commScatter copying plainStores 3 ⟨0, .int64, 10⟩ (fun l => l.2) (fun _ _ => (0 : ℤ)) = some mems' ∧
    Scattered plainStores 3 mems' (copyBase ⟨0, .int64, 10⟩ (fun l => l.2) fun _ => 0) :=
  ((commGatherScatter_iff copying documented_copying plainStores 3 (by decide) ⟨0, .int64, 10⟩).2 (by decide) _ (fun _ => 0) _
    fun _ _ _ _ _ => rfl).1

end Bohrium.Cluster
