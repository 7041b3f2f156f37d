import Bohrium.Cluster.Mapping
import Bohrium.Library.Fold
import Mathlib.Tactic.Linarith

/-! # The chunks tile the index space

Every process finds the same boxes. They are not empty, because the element at a box's lowest corner
always lies on the process that is asked for, so the search ends; and each operand's part of a box
lies on one process. -/
namespace Bohrium.Cluster
open Strided
set_option autoImplicit false

/-! ## Where an element lies -/

/-- The stretch of a base that the process holds. -/
theorem locate_spec {worldsize : ℕ} (hws : 1 ≤ worldsize) {b : BhBase} {o : ℤ} (h0 : 0 ≤ o) (hn : o < b.nelem) :
    ∃ (rank : ℕ) (start : ℤ), locate worldsize b.nelem o = (rank, start, ↑(arrayLocalNelem worldsize rank b)) ∧
      rank < worldsize ∧ start = o - rank * ↑(b.nelem / worldsize) ∧ 0 ≤ start ∧
      start < arrayLocalNelem worldsize rank b := by
  obtain ⟨n, rfl⟩ := Int.eq_ofNat_of_zero_le h0
  have hn : n < b.nelem := by exact_mod_cast hn
  obtain ⟨q, hq⟩ : ∃ q, b.nelem / worldsize = q := ⟨_, rfl⟩
  have hdiv : worldsize * q + b.nelem % worldsize = b.nelem := hq ▸ Nat.div_add_mod b.nelem worldsize
  have htdiv : ((n : ℤ).tdiv q).toNat = n / q := by
    rw [← Int.ofNat_tdiv, Int.toNat_natCast]
  -- the rank and what lies before it
  obtain ⟨rank, hrank, hlt, hle, hlast⟩ : ∃ rank, (if 0 < (q : ℤ) then
      min ((n : ℤ).tdiv q).toNat (worldsize - 1) else worldsize - 1) = rank ∧ rank < worldsize ∧
      rank * q ≤ n ∧ (rank ≠ worldsize - 1 → n < (rank + 1) * q) := by
    refine ⟨_, rfl, ?_⟩
    split_ifs with hpos
    · have hpos : 0 < q := by exact_mod_cast hpos
      rw [htdiv]
      refine ⟨by omega, ?_, ?_⟩
      · exact (Nat.mul_le_mul_right q (min_le_left _ _)).trans (Nat.div_mul_le_self n q)
      · intro hne
        have hmin : min (n / q) (worldsize - 1) = n / q := by omega
        rw [hmin, Nat.mul_comm]
        exact Nat.lt_mul_div_succ n hpos
    · have hzero : q = 0 := by
        have : ¬ 0 < q := by exact_mod_cast hpos
        omega
      refine ⟨by omega, by simp [hzero], fun h => absurd rfl h⟩
  have hlocal : (if rank = worldsize - 1 then ((q + b.nelem % worldsize : ℕ) : ℤ) else (q : ℤ)) =
      arrayLocalNelem worldsize rank b := by
    unfold arrayLocalNelem
    split_ifs <;> simp [hq]
  refine ⟨rank, n - rank * q, ?_, hlt, by rw [hq], ?_, ?_⟩
  · simp only [locate, hq, hrank, hlocal]
  · have : (rank * q : ℤ) ≤ n := by exact_mod_cast hle
    omega
  · have hgoal : n < rank * q + arrayLocalNelem worldsize rank b := by
      unfold arrayLocalNelem
      rw [hq]
      split_ifs with hr
      · have hws' : worldsize * q = rank * q + q := by
          rw [show worldsize = rank + 1 by omega, Nat.succ_mul]
        omega
      · have hnext := hlast hr
        rw [Nat.succ_mul] at hnext
        omega
    have hcast : (n : ℤ) < rank * q + arrayLocalNelem worldsize rank b := by exact_mod_cast hgoal
    omega

/-! ## The lengths that an operand allows -/

theorem lt_of_ceilDiv {room stride : ℤ} {n : ℕ} (hs : 0 < stride) (hn : (n : ℤ) ≤ ceilDiv room stride - 1) :
    n * stride < room := by
  have hfloor := Int.ediv_mul_le (-room) hs.ne'
  have hmod := Int.lt_ediv_add_one_mul_self (-room) hs
  unfold ceilDiv at hn
  nlinarith

theorem one_le_ceilDiv {room stride : ℤ} (hs : 0 < stride) (hr : 1 ≤ room) : 1 ≤ ceilDiv room stride := by
  have hneg : -room / stride < 0 := Int.ediv_neg_of_neg_of_pos (by omega) hs
  unfold ceilDiv
  omega

/-- The lengths are not zero and at most those left, and every element inside them lies before
`room`. -/
theorem extents_spec {room offset : ℤ} {ds : List Dim} {ms : List ℕ} (hlen : ds.length = ms.length)
    (hstride : ∀ d ∈ ds, 0 ≤ d.stride) (hms : ∀ m ∈ ms, 1 ≤ m) (hroom : offset < room) :
    List.Forall₂ (fun n m => 1 ≤ n ∧ n ≤ m) (extents room offset ds ms) ms ∧
      ∀ idx, List.Forall₂ (· < ·) idx (extents room offset ds ms) → offset + dot ds idx < room := by
  induction ds generalizing offset ms with
  | nil =>
    cases ms with
    | nil =>
      refine ⟨List.Forall₂.nil, fun idx hidx => ?_⟩
      cases hidx
      simpa [dot] using hroom
    | cons m ms => cases hlen
  | cons d ds ih =>
    cases ms with
    | nil => cases hlen
    | cons m ms =>
      have hd := hstride d List.mem_cons_self
      have hm := hms m List.mem_cons_self
      -- the length in this dimension
      obtain ⟨dim, hdim, h1, hle, hfit⟩ : ∃ dim, (if 0 < d.stride then
          min (ceilDiv (room - offset) d.stride).toNat m else m) = dim ∧ 1 ≤ dim ∧ dim ≤ m ∧
          offset + ((dim : ℤ) - 1) * d.stride < room := by
        refine ⟨_, rfl, ?_⟩
        split_ifs with hpos
        · have hone := one_le_ceilDiv hpos (show 1 ≤ room - offset by omega)
          refine ⟨by omega, by omega, ?_⟩
          have hcast : ((min (ceilDiv (room - offset) d.stride).toNat m - 1 : ℕ) : ℤ) ≤
              ceilDiv (room - offset) d.stride - 1 := by omega
          have hlt := lt_of_ceilDiv hpos hcast
          rw [Nat.cast_sub (by omega), Nat.cast_one] at hlt
          omega
        · have hzero : d.stride = 0 := by omega
          exact ⟨hm, le_rfl, by rw [hzero]; omega⟩
      have hlen' : ds.length = ms.length := by simpa using hlen
      obtain ⟨hshape, hinside⟩ := ih hlen' (fun e he => hstride e (List.mem_cons_of_mem d he))
        (fun e he => hms e (List.mem_cons_of_mem m he)) hfit
      simp only [extents, hdim]
      refine ⟨List.Forall₂.cons ⟨h1, hle⟩ hshape, ?_⟩
      intro idx hidx
      cases hidx with
      | @cons i _ is _ hi his =>
        have hrest := hinside is his
        have hmul : (i : ℤ) * d.stride ≤ ((dim : ℤ) - 1) * d.stride := by
          apply mul_le_mul_of_nonneg_right _ hd
          omega
        simp only [dot]
        omega

/-! ## Boxes -/

/-- What the search relies on: the first operand is no constant, all arrays have its shape, no length
is zero, no stride is negative, and every element lies inside its base. -/
structure Mappable (operands : List BhView) (first : BhView) : Prop where
  head : operands.head? = some first
  array : first.base.isSome
  ndim : first.dims ≠ []
  positive : ∀ n ∈ first.shape, 1 ≤ n
  shape : ∀ v ∈ operands, v.base.isSome → v.shape = first.shape
  stride : ∀ v ∈ operands, v.base.isSome → ∀ d ∈ v.dims, 0 ≤ d.stride
  inBase : ∀ v ∈ operands, v.base.isSome → v.InBase

/-- The part of an operand in a box lies on one process: its local offsets are inside the stretch
there and differ from the global ones by what lies before the stretch. -/
def OnRank (worldsize : ℕ) (lo shape : List ℕ) (v : BhView) (b : BhBase) : Prop :=
  ∃ (rank : ℕ) (start : ℤ),
    locate worldsize b.nelem (v.offset lo) = (rank, start, ↑(arrayLocalNelem worldsize rank b)) ∧
    rank < worldsize ∧ ∀ idx ∈ indices shape,
      (0 ≤ start + dot v.dims idx ∧ start + dot v.dims idx < arrayLocalNelem worldsize rank b) ∧
      start + dot v.dims idx =
        v.offset (List.zipWith (· + ·) lo idx) - rank * ↑(b.nelem / worldsize)

theorem dot_nonneg {ds : List Dim} (h : ∀ d ∈ ds, 0 ≤ d.stride) (idx : List ℕ) : 0 ≤ dot ds idx := by
  induction ds generalizing idx with
  | nil => simp [dot]
  | cons d ds ih =>
    cases idx with
    | nil => simp [dot]
    | cons i idx =>
      rw [List.forall_mem_cons] at h
      have hrest := ih h.2 idx
      have hmul : 0 ≤ (i : ℤ) * d.stride := mul_nonneg (Int.natCast_nonneg i) h.1
      simp only [dot]
      omega

section Box
variable {worldsize : ℕ} {operands : List BhView} {first : BhView} {lo hi : List ℕ}

theorem offset_bounds {v : BhView} {b : BhBase} (hin : v.InBase) (hb : v.base = some b) {idx : List ℕ}
    (hidx : List.Forall₂ (· < ·) idx v.shape) : 0 ≤ v.offset idx ∧ v.offset idx < b.nelem := by
  obtain ⟨b', hb', hall⟩ := hin
  obtain rfl := Option.some.inj (hb'.symm.trans hb)
  apply hall
  rw [BhView.offsets_eq_map]
  exact List.mem_map_of_mem (mem_indices.mpr hidx)

/-- Where an operand begins and the lengths it allows. -/
theorem operandShape_spec (hws : 1 ≤ worldsize) (h : Mappable operands first)
    (hlt : List.Forall₂ (· < ·) lo hi) (hhi : List.Forall₂ (· ≤ ·) hi first.shape) {v : BhView} (hv : v ∈ operands)
    {b : BhBase} (hb : v.base = some b) :
    List.Forall₂ (fun n m => 1 ≤ n ∧ n ≤ m) (operandShape worldsize v b lo hi) (List.zipWith (· - ·) hi lo) ∧
      ∀ shape, List.Forall₂ (· ≤ ·) shape (operandShape worldsize v b lo hi) → OnRank worldsize lo shape v b := by
  have hsome : v.base.isSome := by rw [hb]; rfl
  have hshape := h.shape v hv hsome
  have hstride := h.stride v hv hsome
  have hbounds := offset_bounds (h.inBase v hv hsome) hb
    (hshape ▸ Box.forall₂_lt_of_lt_of_le hlt hhi : List.Forall₂ (· < ·) lo v.shape)
  obtain ⟨rank, start, hloc, hrank, hstart, h0, hn⟩ := locate_spec hws hbounds.1 hbounds.2
  have hlenlo : v.dims.length = lo.length := by
    rw [hlt.length_eq, hhi.length_eq, ← hshape, BhView.shape, List.length_map]
  have hlen : v.dims.length = (List.zipWith (· - ·) hi lo).length := by
    rw [List.length_zipWith, ← hlt.length_eq, Nat.min_self, hlenlo]
  obtain ⟨hext, hinside⟩ := extents_spec hlen hstride (Box.one_le_zipWith_sub hlt)
    (show (0 : ℤ) < arrayLocalNelem worldsize rank b - start by omega)
  have hop : operandShape worldsize v b lo hi =
      extents (arrayLocalNelem worldsize rank b - start) 0 v.dims (List.zipWith (· - ·) hi lo) := by
    simp only [operandShape, hloc]
  rw [hop]
  refine ⟨hext, fun shape hle => ⟨rank, start, hloc, hrank, fun idx hidx => ?_⟩⟩
  have hidx := mem_indices.mp hidx
  have hlt' := hinside idx (Box.forall₂_lt_of_lt_of_le hidx hle)
  have hdot := dot_nonneg hstride idx
  have hlenidx : v.dims.length = idx.length := by
    rw [hidx.length_eq, hle.length_eq, hext.length_eq, ← hlen]
  refine ⟨⟨by omega, by omega⟩, ?_⟩
  rw [BhView.offset, Box.dot_zipWith_add hlenlo hlenidx, hstart, BhView.offset]
  ring

/-- The minimum over the operands. -/
theorem foldl_min_spec (ms : List ℕ) (vs : List BhView) (shape : List ℕ) (h1 : ∀ n ∈ shape, 1 ≤ n)
    (hlen : shape.length = ms.length)
    (hvs : ∀ v ∈ vs, ∀ b, v.base = some b →
      List.Forall₂ (fun n m => 1 ≤ n ∧ n ≤ m) (operandShape worldsize v b lo hi) ms) :
    let r := vs.foldl (fun shape v =>
      match v.base with
      | none => shape
      | some b => List.zipWith min shape (operandShape worldsize v b lo hi)) shape
    (∀ n ∈ r, 1 ≤ n) ∧ List.Forall₂ (· ≤ ·) r shape ∧
      ∀ v ∈ vs, ∀ b, v.base = some b → List.Forall₂ (· ≤ ·) r (operandShape worldsize v b lo hi) := by
  induction vs generalizing shape with
  | nil => exact ⟨h1, List.forall₂_refl shape, nofun⟩
  | cons v vs ih =>
    have hvs' := fun u hu => hvs u (List.mem_cons_of_mem v hu)
    rw [List.foldl_cons]
    cases hb : v.base with
    | none =>
      obtain ⟨hr1, hrs, hrv⟩ := ih shape h1 hlen hvs'
      refine ⟨hr1, hrs, fun u hu b hub => ?_⟩
      rcases List.mem_cons.mp hu with rfl | hu
      · rw [hb] at hub
        cases hub
      · exact hrv u hu b hub
    | some b =>
      have hop := hvs v List.mem_cons_self b hb
      obtain ⟨hmin, hmin'⟩ := Box.zipWith_min_le (hlen.trans hop.length_eq.symm)
      have hop1 : ∀ n ∈ operandShape worldsize v b lo hi, 1 ≤ n := by
        intro n hn
        obtain ⟨k, hk, rfl⟩ := List.getElem_of_mem hn
        exact (hop.get hk (hop.length_eq ▸ hk)).1
      obtain ⟨hr1, hrs, hrv⟩ := ih _ (Box.one_le_zipWith_min h1 hop1) (hmin.length_eq.trans hlen) hvs'
      refine ⟨hr1, Box.forall₂_le_trans hrs hmin, fun u hu b' hub => ?_⟩
      rcases List.mem_cons.mp hu with rfl | hu
      · obtain rfl := Option.some.inj (hb.symm.trans hub)
        exact Box.forall₂_le_trans hrs hmin'
      · exact hrv u hu b' hub

/-- The box that `find_largest_chunk` finds is not empty, ends inside the search, and lies on one
process for each operand. -/
theorem chunkShape_spec (hws : 1 ≤ worldsize) (h : Mappable operands first)
    (hlt : List.Forall₂ (· < ·) lo hi) (hhi : List.Forall₂ (· ≤ ·) hi first.shape) :
    (∀ n ∈ chunkShape worldsize operands lo hi, 1 ≤ n) ∧
      List.Forall₂ (· ≤ ·) (chunkShape worldsize operands lo hi) (List.zipWith (· - ·) hi lo) ∧
      ∀ v ∈ operands, ∀ b, v.base = some b →
        OnRank worldsize lo (chunkShape worldsize operands lo hi) v b := by
  have hspec := fun v hv b hb => operandShape_spec (v := v) (b := b) hws h hlt hhi hv hb
  obtain ⟨hr1, _, hrv⟩ := foldl_min_spec (List.zipWith (· - ·) hi lo) operands
    (List.replicate lo.length (2 ^ 63 - 1)) (by simp) (by simp [hlt.length_eq]) fun v hv b hb =>
      (hspec v hv b hb).1
  refine ⟨hr1, ?_, fun v hv b hb => (hspec v hv b hb).2 _ (hrv v hv b hb)⟩
  -- the first operand is no constant and bounds the box
  obtain ⟨b, hb⟩ := Option.isSome_iff_exists.mp h.array
  have hfirst : first ∈ operands := List.mem_of_mem_head? h.head
  refine Box.forall₂_le_trans (hrv first hfirst b hb) ((hspec first hfirst b hb).1.imp fun _ _ h => h.2)

/-! ## The search -/

/-- The boxes of a search: they tile it, and each operand's part of a box lies on one process. -/
structure Boxes (worldsize : ℕ) (operands : List BhView) (lo hi : List ℕ)
    (boxes : List (List ℕ × List ℕ)) : Prop where
  tiles : Box.Tiles (boxes.map fun p => (p.1, List.zipWith (· + ·) p.1 p.2)) lo hi
  length : ∀ p ∈ boxes, p.1.length = lo.length ∧ p.2.length = lo.length
  onRank : ∀ p ∈ boxes, ∀ v ∈ operands, ∀ b, v.base = some b → OnRank worldsize p.1 p.2 v b

/-- The index tuples of a box with its lowest corner and its lengths. -/
def boxIndices (p : List ℕ × List ℕ) : List (List ℕ) := (indices p.2).map (List.zipWith (· + ·) p.1)

theorem mem_boxIndices {p : List ℕ × List ℕ} (hlen : p.1.length = p.2.length) {x : List ℕ} :
    x ∈ boxIndices p ↔ Box.Mem p.1 (List.zipWith (· + ·) p.1 p.2) x := by
  rw [Box.mem_iff_exists_add hlen, boxIndices, List.mem_map]
  exact ⟨fun ⟨a, ha, he⟩ => ⟨a, ha, he.symm⟩, fun ⟨a, ha, he⟩ => ⟨a, ha, he.symm⟩⟩

/-- The boxes of a tiling have the index tuples of the whole. -/
theorem mem_flatMap_boxIndices {boxes : List (List ℕ × List ℕ)} {shape : List ℕ}
    (hlen : ∀ p ∈ boxes, p.1.length = p.2.length)
    (h : Box.Tiles (boxes.map fun p => (p.1, List.zipWith (· + ·) p.1 p.2)) (List.replicate shape.length 0) shape)
    {x : List ℕ} : x ∈ boxes.flatMap boxIndices ↔ x ∈ indices shape := by
  rw [Box.mem_indices_iff, h.cover, List.mem_flatMap]
  constructor
  · rintro ⟨p, hp, hx⟩
    exact ⟨_, List.mem_map_of_mem hp, (mem_boxIndices (hlen p hp)).mp hx⟩
  · rintro ⟨_, hq, hx⟩
    obtain ⟨p, hp, rfl⟩ := List.mem_map.mp hq
    exact ⟨p, hp, (mem_boxIndices (hlen p hp)).mpr hx⟩

/-- `get_chunks` ends, and every process finds the same boxes. -/
theorem getChunks_eq (hws : 1 ≤ worldsize) (h : Mappable operands first) (fuel : ℕ) :
    ∀ lo hi, Box.extent lo hi < fuel → lo.length = hi.length → List.Forall₂ (· ≤ ·) hi first.shape →
      ∃ boxes, Boxes worldsize operands lo hi boxes ∧ ∀ st myrank,
        getChunks st ⟨worldsize, myrank⟩ operands fuel lo hi =
          some (boxes.map fun p => chunksAt st ⟨worldsize, myrank⟩ operands p.1 p.2) := by
  induction fuel with
  | zero => exact fun lo hi hfuel => absurd hfuel (Nat.not_lt_zero _)
  | succ fuel ih =>
    intro lo hi hfuel hlen hhi
    by_cases hskip : (List.zipWith (fun l h => decide (h ≤ l)) lo hi).any id = true
    · refine ⟨[], ⟨Box.tiles_nil hskip, nofun, nofun⟩, fun st myrank => ?_⟩
      rw [getChunks, if_pos hskip, List.map_nil]
    · have hlt := Box.forall₂_lt_of_not_any hlen hskip
      obtain ⟨h1, hle, hrank⟩ := chunkShape_spec hws h hlt hhi
      have hnew := Box.zipWith_add_bounds hlt h1 hle
      have hlenshape : lo.length = (chunkShape worldsize operands lo hi).length := by
        rw [hle.length_eq, List.length_zipWith, ← hlen, Nat.min_self]
      generalize hshape : chunkShape worldsize operands lo hi = shape at *
      -- the search from every other corner
      have hcorner : ∀ c ∈ (Box.corners lo.length).tail, ∃ boxes, Boxes worldsize operands
          (Box.pick c lo (List.zipWith (· + ·) lo shape)) (Box.pick c (List.zipWith (· + ·) lo shape) hi) boxes ∧
          ∀ st myrank, getChunks st ⟨worldsize, myrank⟩ operands fuel
            (Box.pick c lo (List.zipWith (· + ·) lo shape)) (Box.pick c (List.zipWith (· + ·) lo shape) hi) =
            some (boxes.map fun p => chunksAt st ⟨worldsize, myrank⟩ operands p.1 p.2) := by
        intro c hc
        have hmem := List.mem_of_mem_tail hc
        have hlenmid := hnew.1.length_eq
        refine ih _ _ ?_ ?_ ?_
        · have hless := Box.extent_pick_lt hc hnew.1 hnew.2
          omega
        · rw [Box.length_pick hmem hlenmid, Box.length_pick (hlenmid ▸ hmem) hnew.2.length_eq, hlenmid]
        · exact Box.forall₂_le_trans (Box.pick_le hmem hnew.2 hlenmid) hhi
      choose! boxes hboxes hget using hcorner
      refine ⟨(lo, shape) :: (Box.corners lo.length).tail.flatMap boxes, ⟨?_, ?_, ?_⟩, ?_⟩
      · have htiles := Box.tiles_corners hnew.1 hnew.2
          (fun c => (boxes c).map fun p => (p.1, List.zipWith (· + ·) p.1 p.2))
          fun c hc => (hboxes c hc).tiles
        rwa [List.map_cons, List.map_flatMap]
      · intro p hp
        rcases List.mem_cons.mp hp with rfl | hp
        · exact ⟨rfl, hlenshape.symm⟩
        · obtain ⟨c, hc, hp⟩ := List.mem_flatMap.mp hp
          have hlenp := (hboxes c hc).length p hp
          rwa [Box.length_pick (List.mem_of_mem_tail hc) hnew.1.length_eq] at hlenp
      · intro p hp
        rcases List.mem_cons.mp hp with rfl | hp
        · exact hrank
        · obtain ⟨c, hc, hp⟩ := List.mem_flatMap.mp hp
          exact (hboxes c hc).onRank p hp
      · intro st myrank
        have hmap := Fold.mapM_eq_some fun c hc => hget c hc st myrank
        rw [getChunks, if_neg hskip]
        simp only [findLargestChunk, hshape, hmap, Option.map_some]
        rw [List.map_cons, List.map_flatMap, List.flatMap_def]

theorem extent_replicate_zero (shape : List ℕ) : Box.extent (List.replicate shape.length 0) shape = shape.sum := by
  induction shape with
  | nil => rfl
  | cons n shape ih =>
    rw [List.length_cons, List.replicate_succ, Box.extent, List.zipWith_cons_cons, List.sum_cons, List.sum_cons,
      Nat.sub_zero, ← ih, Box.extent]

/-- `mapping_chunks` ends, and every process finds the same boxes. -/
theorem mappingChunks_eq (hws : 1 ≤ worldsize) (h : Mappable operands first) :
    ∃ boxes, Boxes worldsize operands (List.replicate first.shape.length 0) first.shape boxes ∧
      ∀ st myrank, mappingChunks st ⟨worldsize, myrank⟩ operands =
        some (boxes.map fun p => chunksAt st ⟨worldsize, myrank⟩ operands p.1 p.2) := by
  have hhead : operands.headD ⟨none, 0, []⟩ = first := by
    rw [List.headD_eq_head?_getD, h.head]
    rfl
  unfold mappingChunks
  simp only [hhead]
  apply getChunks_eq hws h
  · rw [extent_replicate_zero]
    exact Nat.lt_succ_self _
  · exact List.length_replicate
  · exact List.forall₂_refl _

end Box

/-- The box of a group of chunks: where its first chunk begins and ends. -/
def groupBox (group : List (Option AryChunk)) : List ℕ × List ℕ :=
  match group with
  | some c :: _ => (c.coord, List.zipWith (· + ·) c.coord c.ary.shape)
  | _ => ([], [])

section Chunks
variable {st : Stores} {g : Pgrid} {lo shape : List ℕ} {o : ℕ} {v : BhView} {b : BhBase}

theorem coord_chunkOf : (chunkOf st g lo shape o v b).coord = lo := by
  rcases hloc : locate g.worldsize b.nelem (v.offset lo) with ⟨rank, start, size⟩
  simp only [chunkOf, hloc]
  split_ifs <;> rfl

theorem rank_chunkOf : (chunkOf st g lo shape o v b).rank = (locate g.worldsize b.nelem (v.offset lo)).1 := by
  rcases hloc : locate g.worldsize b.nelem (v.offset lo) with ⟨rank, start, size⟩
  simp only [chunkOf, hloc]
  split_ifs <;> rfl

theorem chunkOf_local {rank : ℕ} {start size : ℤ}
    (hloc : locate g.worldsize b.nelem (v.offset lo) = (rank, start, size)) (hrank : rank = g.myrank) :
    chunkOf st g lo shape o v b = ⟨rank, ⟨some (arrayGetLocal st g b), start,
      List.zipWith (fun n d => ⟨n, d.stride⟩) shape v.dims⟩, lo, false⟩ := by
  simp only [chunkOf, hloc, hrank, if_true]

theorem chunkOf_remote {rank : ℕ} {start size : ℤ}
    (hloc : locate g.worldsize b.nelem (v.offset lo) = (rank, start, size)) (hrank : rank ≠ g.myrank) :
    chunkOf st g lo shape o v b = ⟨rank, ⟨some ⟨st.ofChunk lo o, b.type, packedNelem shape v.dims⟩, 0,
      packedDims shape v.dims⟩, lo, true⟩ := by
  simp only [chunkOf, hloc, hrank, if_false]

theorem map_shape_packedDims (shape : List ℕ) (ds : List Dim) (h : shape.length = ds.length) :
    (packedDims shape ds).map Dim.shape = shape := by
  induction shape generalizing ds with
  | nil => rfl
  | cons n shape ih =>
    cases ds with
    | nil => cases h
    | cons d ds => simp [packedDims, ih ds (by simpa using h)]

theorem map_shape_zipWith (shape : List ℕ) (ds : List Dim) (h : shape.length = ds.length) :
    (List.zipWith (fun n d => (⟨n, d.stride⟩ : Dim)) shape ds).map Dim.shape = shape := by
  induction shape generalizing ds with
  | nil => rfl
  | cons n shape ih =>
    cases ds with
    | nil => cases h
    | cons d ds => simp [ih ds (by simpa using h)]

theorem shape_chunkOf (h : shape.length = v.dims.length) : (chunkOf st g lo shape o v b).ary.shape = shape := by
  rcases hloc : locate g.worldsize b.nelem (v.offset lo) with ⟨rank, start, size⟩
  simp only [chunkOf, hloc]
  split_ifs
  · exact map_shape_zipWith shape v.dims h
  · exact map_shape_packedDims shape v.dims h

/-- The strides of a local chunk are those of the operand. -/
theorem dot_zipWith (shape : List ℕ) (ds : List Dim) (h : shape.length = ds.length) (idx : List ℕ) :
    dot (List.zipWith (fun n d => (⟨n, d.stride⟩ : Dim)) shape ds) idx = dot ds idx := by
  induction shape generalizing ds idx with
  | nil =>
    cases ds with
    | nil => rfl
    | cons d ds => cases h
  | cons n shape ih =>
    cases ds with
    | nil => cases h
    | cons d ds =>
      cases idx with
      | nil => rfl
      | cons i idx => simp [dot, ih ds (by simpa using h)]

end Chunks

/-- `mapping_chunks` ends, and returns groups of one chunk per operand whose boxes tile the index
space; the elements of each chunk lie on the chunk's process. -/
theorem mappingChunks_tiles (st : Stores) (g : Pgrid) (operands : List BhView) (first : BhView)
    (hws : 1 ≤ g.worldsize) (h : Mappable operands first) :
    ∃ groups : List (List (Option AryChunk)), mappingChunks st g operands = some groups ∧
      Box.Tiles (groups.map groupBox) (List.replicate first.shape.length 0) first.shape ∧
      ∀ group ∈ groups, group.length = operands.length ∧
        ∀ (o : ℕ) (v : BhView), operands[o]? = some v → ∀ b, v.base = some b →
          ∃ c : AryChunk, group[o]? = some (some c) ∧
          (c.coord, List.zipWith (· + ·) c.coord c.ary.shape) = groupBox group ∧ c.rank < g.worldsize ∧
          ∀ idx ∈ indices c.ary.shape,
            0 ≤ v.offset (List.zipWith (· + ·) c.coord idx) - c.rank * ↑(b.nelem / g.worldsize) ∧
            v.offset (List.zipWith (· + ·) c.coord idx) - c.rank * ↑(b.nelem / g.worldsize) <
              arrayLocalNelem g.worldsize c.rank b ∧
            (c.rank = g.myrank → c.ary.offset idx =
              v.offset (List.zipWith (· + ·) c.coord idx) - c.rank * ↑(b.nelem / g.worldsize)) := by
  obtain ⟨boxes, hboxes, hmap⟩ := mappingChunks_eq hws h
  obtain ⟨b₀, hb₀⟩ := Option.isSome_iff_exists.mp h.array
  obtain ⟨rest, hcons⟩ : ∃ rest, operands = first :: rest := List.head?_eq_some_iff.mp h.head
  -- the boxes are as long as every array's dimensions
  have hlen : ∀ p ∈ boxes, ∀ v ∈ operands, v.base.isSome → p.2.length = v.dims.length := by
    intro p hp v hv hsome
    rw [(hboxes.length p hp).2, List.length_replicate, ← h.shape v hv hsome, BhView.shape, List.length_map]
  have hbox : ∀ p ∈ boxes, groupBox (chunksAt st g operands p.1 p.2) =
      (p.1, List.zipWith (· + ·) p.1 p.2) := by
    intro p hp
    have hshape := hlen p hp first (List.mem_of_mem_head? h.head) h.array
    simp only [chunksAt, hcons, List.zipIdx_cons, List.map_cons, hb₀, Option.map_some, groupBox,
      coord_chunkOf, shape_chunkOf hshape]
  refine ⟨_, hmap st g.myrank, ?_, ?_⟩
  · rw [List.map_map]
    have htiles := hboxes.tiles
    rwa [← List.map_congr_left hbox] at htiles
  · intro group hgroup
    obtain ⟨p, hp, rfl⟩ := List.mem_map.mp hgroup
    refine ⟨by simp [chunksAt], fun o v hov b hb => ?_⟩
    have hv : v ∈ operands := List.mem_of_getElem? hov
    have hshape := hlen p hp v hv (by rw [hb]; rfl)
    obtain ⟨rank, start, hloc, hrank, hinside⟩ := hboxes.onRank p hp v hv b hb
    have hrankc : (chunkOf st g p.1 p.2 o v b).rank = rank := by rw [rank_chunkOf, hloc]
    refine ⟨chunkOf st g p.1 p.2 o v b, ?_, ?_, ?_, ?_⟩
    · simp [chunksAt, List.getElem?_zipIdx, hov, hb]
    · rw [coord_chunkOf, shape_chunkOf hshape]
      exact (hbox p hp).symm
    · rw [hrankc]
      exact hrank
    · intro idx hidx
      rw [shape_chunkOf hshape] at hidx
      obtain ⟨⟨h0, hlt⟩, heq⟩ := hinside idx hidx
      rw [hrankc, coord_chunkOf, ← heq]
      refine ⟨h0, hlt, fun hmine => ?_⟩
      rw [chunkOf_local hloc hmine, BhView.offset, dot_zipWith p.2 v.dims hshape]

/-- Ten elements on three processes, every second one of another array of ten, and a constant. -/
def oddOperands : List BhView :=
  [⟨some ⟨0, .int64, 10⟩, 5, [⟨5, 1⟩]⟩, ⟨some ⟨1, .int64, 10⟩, 1, [⟨5, 2⟩]⟩, ⟨none, 0, [⟨5, 0⟩]⟩]

theorem mappable_oddOperands : Mappable oddOperands ⟨some ⟨0, .int64, 10⟩, 5, [⟨5, 1⟩]⟩ where
  head := rfl
  array := rfl
  ndim := by decide
  positive := by decide
  shape := by decide
  stride := by decide
  inBase := by
    intro v hv hsome
    simp only [oddOperands, List.mem_cons, List.not_mem_nil, or_false] at hv
    rcases hv with rfl | rfl | rfl
    · exact ⟨_, rfl, by decide⟩
    · exact ⟨_, rfl, by decide⟩
    · cases hsome

theorem mappingChunks_oddOperands : ∃ groups,
    mappingChunks plainStores ⟨3, 1⟩ oddOperands = some groups ∧
      Box.Tiles (groups.map groupBox) [0] [5] :=
  let ⟨groups, hmap, htiles, _⟩ := mappingChunks_tiles plainStores ⟨3, 1⟩ oddOperands _ (by decide)
    mappable_oddOperands
  ⟨groups, hmap, htiles⟩

end Bohrium.Cluster
