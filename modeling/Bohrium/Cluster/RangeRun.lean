import Bohrium.Cluster.VectorRun

/-! # `BH_RANGE` on the cluster

Every process counts from zero in its part of the output and then adds the first coordinate of the part. -/
namespace Bohrium.Cluster
open Strided Network
set_option autoImplicit false

/-- Adding to a counter value counts on. -/
def CountsOn {V : Type} (I : Interp V) : Prop := ∀ type c k n,
  I.ewise .add [some type, some type, none] [I.generate .range (some type) c k, I.konst (.int .uint64 (n : ℕ))] =
    I.generate .range (some type) c (k + n)

/-- A vector that `BH_RANGE` fills. -/
structure Countable (i : BhInstruction) (b : BhBase) (d : Dim) : Prop where
  opcode : i.opcode = .range
  base : i.operand0.base = some b
  vector : i.operand0.dims = [d]
  intp : d.shape < 2 ^ 63
  stride : 0 ≤ d.stride
  injective : i.operand0.Injective
  inBase : i.operand0.InBase

/-! ## The chunks -/

section Chunks
variable {worldsize : ℕ} {i : BhInstruction} {b : BhBase} {d : Dim}

theorem Countable.operands_eq (h : Countable i b d) : i.operands = [i.operand0] := by
  rw [BhInstruction.operands, h.opcode]
  rfl

theorem Countable.shape_eq (h : Countable i b d) : i.operand0.shape = [d.shape] := by
  rw [BhView.shape, h.vector]
  rfl

theorem Countable.mappable (h : Countable i b d) (hpos : 1 ≤ d.shape) : Mappable i.operands i.operand0 where
  head := by rw [h.operands_eq]; rfl
  array := by rw [h.base]; rfl
  ndim := by rw [h.vector]; exact List.cons_ne_nil _ _
  positive := by
    rw [h.shape_eq]
    simpa using hpos
  shape v hv _ := by
    rw [h.operands_eq, List.mem_singleton] at hv
    rw [hv]
  stride v hv _ := by
    rw [h.operands_eq, List.mem_singleton] at hv
    rw [hv, h.vector]
    simpa using h.stride
  inBase v hv _ := by
    rw [h.operands_eq, List.mem_singleton] at hv
    rw [hv]
    exact h.inBase

theorem chunksAt_singleton {v : BhView} (hb : v.base = some b) {st : Stores} {g : Pgrid} {lo shape : List ℕ} :
    chunksAt st g [v] lo shape = [some (chunkOf st g lo shape 0 v b)] := by
  rw [chunksAt, List.zipIdx_singleton, List.map_singleton, hb]
  rfl

/-- The chunk of a group is the first one, or not on the first process. -/
def Onward (group : List (Option AryChunk)) : Prop := ∀ out rest, group = some out :: rest → 0 < out.rank ∨ out.coord = [0]

theorem onward_getChunks (hws : 1 ≤ worldsize) (h : Countable i b d) {st : Stores} {myrank : ℕ} (fuel : ℕ) :
    ∀ k groups, (k < d.shape → 0 < rankAt worldsize [k] i.operand0 b ∨ k = 0) →
      getChunks st ⟨worldsize, myrank⟩ [i.operand0] fuel [k] [d.shape] = some groups → ∀ group ∈ groups, Onward group := by
  induction fuel with
  | zero => exact fun k groups _ hget => nomatch hget
  | succ fuel ih =>
    intro k groups hk hget
    by_cases hlt : k < d.shape
    · obtain ⟨q, hq⟩ : ∃ q, operandShape worldsize i.operand0 b [k] [d.shape] = [q] := by
        unfold operandShape
        rw [h.vector]
        exact ⟨_, rfl⟩
      have hintp := h.intp
      have hn : chunkShape worldsize [i.operand0] [k] [d.shape] = [min (2 ^ 63 - 1) q] := by
        simp only [chunkShape, List.foldl_cons, List.foldl_nil, h.base, hq, List.length_singleton, List.replicate_one,
          List.zipWith_cons_cons, List.zipWith_nil_left]
      rw [getChunks_vector hlt hn, Option.map_eq_some_iff] at hget
      obtain ⟨rest, hrest, rfl⟩ := hget
      rw [List.forall_mem_cons]
      refine ⟨fun out tail hout => ?_, ih _ rest (fun hnext => Or.inl ?_) hrest⟩
      · rw [chunksAt_singleton h.base] at hout
        obtain rfl := Option.some.inj (List.cons.inj hout).1
        rw [rank_chunkOf, coord_chunkOf]
        exact (hk hlt).imp id fun h0 => by rw [h0]
      · have hqn : min (2 ^ 63 - 1) q = q := by omega
        rw [hqn] at hnext ⊢
        exact (Nat.zero_le _).trans_lt (rankAt_lt_add hws h.base h.vector h.stride h.inBase hq hnext)
    · rw [getChunks_vector_end (Nat.le_of_not_lt hlt) hget]
      exact fun group hgroup => absurd hgroup List.not_mem_nil

/-- The parts of the output: one vector after the other, each on one process. -/
structure Parts (worldsize : ℕ) (i : BhInstruction) (b : BhBase) (d : Dim) (boxes : List (List ℕ × List ℕ)) : Prop where
  search : Boxes worldsize i.operands (List.replicate i.operand0.shape.length 0) i.operand0.shape boxes
  onward : ∀ p ∈ boxes, 0 < rankAt worldsize p.1 i.operand0 b ∨ p.1 = [0]
  mapping : ∀ st myrank, mappingChunks st ⟨worldsize, myrank⟩ i.operands =
    some (boxes.map fun p => chunksAt st ⟨worldsize, myrank⟩ i.operands p.1 p.2)

theorem exists_parts (hws : 1 ≤ worldsize) (h : Countable i b d) (hpos : 1 ≤ d.shape) : ∃ boxes, Parts worldsize i b d boxes := by
  obtain ⟨boxes, hboxes, hmap⟩ := mappingChunks_eq hws (h.mappable hpos)
  refine ⟨boxes, hboxes, fun p hp => ?_, hmap⟩
  have hget := hmap plainStores 0
  rw [h.operands_eq] at hget
  unfold mappingChunks at hget
  rw [show ([i.operand0].headD ⟨none, 0, []⟩).shape = [d.shape] from h.shape_eq] at hget
  have honward := onward_getChunks hws h _ 0 _ (fun _ => Or.inr rfl) hget _ (List.mem_map_of_mem hp)
  have hout := honward _ _ (chunksAt_singleton h.base)
  rwa [rank_chunkOf, coord_chunkOf] at hout

theorem Parts.length (h : Countable i b d) {boxes : List (List ℕ × List ℕ)} (hparts : Parts worldsize i b d boxes) :
    ∀ p ∈ boxes, p.1.length = 1 ∧ p.2.length = 1 := by
  intro p hp
  have hl := hparts.search.length p hp
  rwa [List.length_replicate, h.shape_eq] at hl

theorem Parts.onRank (h : Countable i b d) {boxes : List (List ℕ × List ℕ)} (hparts : Parts worldsize i b d boxes) :
    ∀ p ∈ boxes, OnRank worldsize p.1 p.2 i.operand0 b := by
  intro p hp
  refine hparts.search.onRank p hp i.operand0 ?_ b h.base
  rw [h.operands_eq]
  exact List.mem_singleton_self _

end Chunks

/-! ## One part -/

section Part
variable {V : Type} {I : Interp V} {st : Stores} {worldsize : ℕ} {i : BhInstruction} {b : BhBase} {d : Dim}
  {p : List ℕ × List ℕ}

/-- The part of the output on its process. -/
def partView (st : Stores) (worldsize : ℕ) (i : BhInstruction) (b : BhBase) (p : List ℕ × List ℕ) : BhView :=
  localView st worldsize (rankAt worldsize p.1 i.operand0 b) (startAt worldsize p.1 i.operand0 b) p.2 i.operand0 b

/-- What the process runs: the count, and the addition unless it is the first process. -/
def partInsts (st : Stores) (worldsize : ℕ) (i : BhInstruction) (b : BhBase) (p : List ℕ × List ℕ) : List BhInstruction :=
  let out := partView st worldsize i b p
  { i with operand0 := out } ::
    if 0 < rankAt worldsize p.1 i.operand0 b then
      [⟨.add, out, out, { out with base := none }, .int .uint64 ((p.1.headD 0 : ℕ) : ℤ)⟩]
    else []

theorem groupTasks_range (h : Countable i b d) (r : ℕ) :
    groupTasks st r i (chunksAt st ⟨worldsize, r⟩ i.operands p.1 p.2) =
      if rankAt worldsize p.1 i.operand0 b = r then (partInsts st worldsize i b p).map Task.inst else [] := by
  rw [h.operands_eq, chunksAt_singleton h.base, groupTasks_cons]
  by_cases hr : rankAt worldsize p.1 i.operand0 b = r
  · rw [chunkOf_rankAt hr, if_pos hr]
    subst hr
    unfold partInsts
    by_cases hpos : 0 < rankAt worldsize p.1 i.operand0 b
    · simp [rangeOffset, h.opcode, hpos, commArrayData, localInst, chunkView, temporaries, partView]
    · simp [rangeOffset, hpos, commArrayData, localInst, chunkView, temporaries, partView]
  · rw [chunkOf_of_ne hr, if_neg hr]
    simp [commArrayData, Ne.symm hr]

/-- The value at an index of the whole vector. -/
def counted (I : Interp V) (i : BhInstruction) (b : BhBase) (idx : List ℕ) : V :=
  I.generate .range (some b.type) i.constant (flatIndex i.operand0.shape idx)

theorem ewiseAt_addConstant {out : BhView} {a : BhBase} (ha : out.base = some a) (c : BhConstant) (idx : List ℕ)
    (m : Mem V) : ewiseAt I ⟨.add, out, out, { out with base := none }, c⟩ m idx =
      I.ewise .add [some a.type, some a.type, none] [load I c out idx m, I.konst c] := by
  show I.ewise .add [out.base.map BhBase.type, out.base.map BhBase.type, none] [load I c out idx m, I.konst c] = _
  rw [ha]
  rfl

/-- The process counts on from the first coordinate of its part. -/
theorem runList_partInsts (hI : CountsOn I) (h : Countable i b d) (hlen : p.2.length = 1) (hlen' : p.1.length = 1)
    (honward : 0 < rankAt worldsize p.1 i.operand0 b ∨ p.1 = [0]) (m : Mem V) :
    runList I (partInsts st worldsize i b p) m = applyStores (storesTo (partView st worldsize i b p) fun idx =>
      counted I i b (List.zipWith (· + ·) p.1 idx)) m := by
  obtain ⟨out, hout⟩ : ∃ out, out = partView st worldsize i b p := ⟨_, rfl⟩
  have hdims : p.2.length = i.operand0.dims.length := by rw [h.vector]; exact hlen
  have hshape : out.shape = p.2 := by
    rw [hout]
    exact map_shape_zipWith p.2 _ hdims
  obtain ⟨a, ha, hatype⟩ : ∃ a, out.base = some a ∧ a.type = b.type := by
    rw [hout]
    exact ⟨_, rfl, rfl⟩
  obtain ⟨k, hk⟩ := List.length_eq_one_iff.mp hlen'
  obtain ⟨n, hn⟩ := List.length_eq_one_iff.mp hlen
  -- both sides at an index
  have hflat : ∀ x : ℕ, flatIndex [n] [x] = x ∧ flatIndex i.operand0.shape [k + x] = x + k := by
    intro x
    rw [h.shape_eq]
    simp [flatIndex, Nat.add_comm]
  have hcount : runWhole I { i with operand0 := out } m = applyStores (storesTo out fun idx =>
      I.generate .range (some b.type) i.constant (flatIndex [n] idx)) m := by
    have hkind : BhInstruction.kind { i with operand0 := out } = .generator := by
      rw [BhInstruction.kind, h.opcode]
      rfl
    unfold runWhole wholeStores
    rw [hkind]
    simp only [h.opcode, BhInstruction.outType, ha, Option.map_some, hatype, hshape, hn]
  have hindex : ∀ idx ∈ indices out.shape, ∃ x, idx = [x] := by
    intro idx hidx
    rw [hshape] at hidx
    exact List.length_eq_one_iff.mp ((mem_indices.mp hidx).length_eq.trans hlen)
  unfold partInsts
  rw [← hout, runList_cons, hcount]
  by_cases hpos : 0 < rankAt worldsize p.1 i.operand0 b
  · rw [if_pos hpos, runList_cons, runList_nil, hk, runWhole_elementwise rfl]
    funext l
    refine (applyStores_storesTo_congr rfl fun idx hidx hlast => ?_).trans (congrFun (applyStores_storesTo_twice out _ _ m) l)
    obtain ⟨x, rfl⟩ := hindex idx hidx
    refine (ewiseAt_addConstant ha _ _ _).trans ?_
    rw [load_storesTo (by rw [ha]; rfl) hlast, hatype, counted, List.zipWith_cons_cons, List.zipWith_nil_left, (hflat x).1,
      (hflat x).2]
    exact hI b.type i.constant x k
  · have h0 : p.1 = [0] := honward.resolve_left hpos
    rw [if_neg hpos, runList_nil]
    funext l
    refine applyStores_storesTo_congr rfl fun idx hidx _ => ?_
    obtain ⟨x, rfl⟩ := hindex idx hidx
    have hk0 : k = 0 := by simpa [hk] using h0
    rw [hk, counted, List.zipWith_cons_cons, List.zipWith_nil_left, (hflat x).1, (hflat x).2, hk0, Nat.add_zero]

/-- The events of a part. -/
def partEvents (I : Interp V) (st : Stores) (worldsize : ℕ) (i : BhInstruction) (b : BhBase) (p : List ℕ × List ℕ) :
    List (Event ℕ (Node V) (Message V)) :=
  (partInsts st worldsize i b p).map fun j => .act (rankAt worldsize p.1 i.operand0 b) (execInst I j)

theorem runEvents_acts (l : List BhInstruction) (w : ℕ) (s : ℕ → Node V) :
    runEvents (l.map fun j => Event.act w (execInst I j) : List (Event ℕ (Node V) (Message V))) s =
      Function.update s w { s w with mem := runList I l (s w).mem } := by
  induction l generalizing s with
  | nil => exact (Function.update_eq_self w s).symm
  | cons j l ih =>
    show runEvents (l.map _) (Function.update s w (execInst I j (s w))) = _
    rw [ih, Function.update_idem, Function.update_self]
    rfl

theorem project_acts (l : List BhInstruction) (w r : ℕ) :
    (l.map fun j => Event.act w (execInst I j) : List (Event ℕ (Node V) (Message V))).flatMap (Event.project r) =
      if w = r then (l.map Task.inst).map (Task.action I) else [] := by
  induction l with
  | nil => simp
  | cons j l ih =>
    rw [List.map_cons, List.flatMap_cons, ih]
    by_cases h : w = r
    · simp [Event.project, h, action_inst]
    · simp [Event.project, h]

/-- The global array after a part is stored. -/
def storePart (I : Interp V) (i : BhInstruction) (b : BhBase) (m : Mem V) (p : List ℕ × List ℕ) : Mem V :=
  applyStores ((boxIndices p).map fun idx => ((b, i.operand0.offset idx), counted I i b idx)) m

theorem scattered_partEvents (hI : CountsOn I) (h : Countable i b d) (hlen : p.2.length = 1) (hlen' : p.1.length = 1)
    (hrank : OnRank worldsize p.1 p.2 i.operand0 b) (honward : 0 < rankAt worldsize p.1 i.operand0 b ∨ p.1 = [0])
    {s : ℕ → Node V} {m : Mem V} (hs : Scattered st worldsize (fun r => (s r).mem) m) :
    Scattered st worldsize (fun r => (runEvents (partEvents I st worldsize i b p) s r).mem) (storePart I i b m p) ∧
      ∀ r, (runEvents (partEvents I st worldsize i b p) s r).receipts = (s r).receipts := by
  have hdims : p.2.length = i.operand0.dims.length := by rw [h.vector]; exact hlen
  obtain ⟨rank, start, hloc, hlt, hlocal⟩ := hrank
  have hw : rankAt worldsize p.1 i.operand0 b = rank := by rw [rankAt, hloc]
  have hstart : startAt worldsize p.1 i.operand0 b = start := by rw [startAt, hloc]
  have hrun : runEvents (partEvents I st worldsize i b p) s = Function.update s rank { s rank with
      mem := applyStores ((indices p.2).map fun idx => ((arrayGetLocal st ⟨worldsize, rank⟩ b,
        start + dot i.operand0.dims idx), counted I i b (List.zipWith (· + ·) p.1 idx))) (s rank).mem } := by
    rw [partEvents, runEvents_acts, runList_partInsts hI h hlen hlen' honward, partView, storesTo_localView hdims, hw,
      hstart]
  rw [hrun]
  refine ⟨?_, fun r => ?_⟩
  · have hmems : (fun r => (Function.update s rank { s rank with
        mem := applyStores ((indices p.2).map fun idx => ((arrayGetLocal st ⟨worldsize, rank⟩ b,
          start + dot i.operand0.dims idx), counted I i b (List.zipWith (· + ·) p.1 idx))) (s rank).mem } r).mem) =
        Function.update (fun r => (s r).mem) rank (applyStores ((indices p.2).map fun idx =>
          ((arrayGetLocal st ⟨worldsize, rank⟩ b, start + dot i.operand0.dims idx),
            counted I i b (List.zipWith (· + ·) p.1 idx))) (s rank).mem) := by
      funext r
      rw [Function.update_apply, Function.update_apply]
      split_ifs with hr
      · rfl
      · rfl
    rw [hmems, storePart, boxIndices, List.map_map]
    exact hs.store hlt hlocal fun idx _ => rfl
  · rw [Function.update_apply]
    split_ifs with hr
    · rw [hr]
    · rfl

end Part

/-! ## The whole vector -/

section Vector
variable {V : Type} {I : Interp V} {st : Stores} {worldsize : ℕ} {i : BhInstruction} {b : BhBase} {d : Dim}

theorem runWhole_range (h : Countable i b d) (m : Mem V) : runWhole I i m =
    applyStores ((indices i.operand0.shape).map fun idx => ((b, i.operand0.offset idx), counted I i b idx)) m := by
  have hkind : i.kind = .generator := by
    rw [BhInstruction.kind, h.opcode]
    rfl
  unfold runWhole wholeStores
  rw [hkind]
  simp only [storesTo, h.base, h.opcode, BhInstruction.outType, Option.map_some]
  rfl

/-- The parts one after the other are the whole vector. -/
theorem foldl_storePart (h : Countable i b d) {boxes : List (List ℕ × List ℕ)} (hp : Parts worldsize i b d boxes)
    (m : Mem V) : boxes.foldl (storePart I i b) m = runWhole I i m := by
  have hlen : ∀ p ∈ boxes, p.1.length = p.2.length := fun p hmem =>
    (hp.search.length p hmem).1.trans (hp.search.length p hmem).2.symm
  have hmem := fun x => mem_flatMap_boxIndices (x := x) hlen hp.search.tiles
  have hfold : ∀ (l : List (List ℕ × List ℕ)) (m : Mem V), l.foldl (storePart I i b) m =
      applyStores ((l.flatMap boxIndices).map fun idx => ((b, i.operand0.offset idx), counted I i b idx)) m := by
    intro l
    induction l with
    | nil => exact fun m => rfl
    | cons p l ih =>
      intro m
      rw [List.foldl_cons, ih, List.flatMap_cons, List.map_append, applyStores_append]
      rfl
  rw [hfold, runWhole_range h]
  refine applyStores_map_of_mem_iff (fun x hx y hy hxy => ?_) hmem
  exact h.injective.offset_inj ((hmem x).mp hx) ((hmem y).mp hy) hxy

theorem filter_isDiscard_partInsts (h : Countable i b d) (p : List ℕ × List ℕ) :
    ((partInsts st worldsize i b p).map Task.inst).filter Task.isDiscard = [] := by
  rw [List.filter_eq_nil_iff]
  intro t ht
  obtain ⟨j, hj, rfl⟩ := List.mem_map.mp ht
  unfold partInsts at hj
  rcases List.mem_cons.mp hj with rfl | hj
  · simp [Task.isDiscard, h.opcode]
  · split_ifs at hj
    · rw [List.mem_singleton.mp hj]
      simp [Task.isDiscard]
    · cases hj

theorem scattered_parts (hI : CountsOn I) (h : Countable i b d) {boxes : List (List ℕ × List ℕ)}
    (hlen : ∀ p ∈ boxes, p.1.length = 1 ∧ p.2.length = 1)
    (hrank : ∀ p ∈ boxes, OnRank worldsize p.1 p.2 i.operand0 b)
    (honward : ∀ p ∈ boxes, 0 < rankAt worldsize p.1 i.operand0 b ∨ p.1 = [0]) {s : ℕ → Node V} {m : Mem V}
    (hs : Scattered st worldsize (fun r => (s r).mem) m) :
    Scattered st worldsize (fun r => (runEvents (boxes.flatMap (partEvents I st worldsize i b)) s r).mem)
        (boxes.foldl (storePart I i b) m) ∧
      ∀ r, (runEvents (boxes.flatMap (partEvents I st worldsize i b)) s r).receipts = (s r).receipts := by
  induction boxes generalizing s m with
  | nil => exact ⟨hs, fun r => rfl⟩
  | cons p boxes ih =>
    rw [List.forall_mem_cons] at hlen hrank honward
    obtain ⟨hpart, hreceipts⟩ := scattered_partEvents hI h hlen.1.2 hlen.1.1 hrank.1 honward.1 hs
    obtain ⟨hall, hreceipts'⟩ := ih hlen.2 hrank.2 honward.2 hpart
    rw [List.flatMap_cons, runEvents_append, List.foldl_cons]
    exact ⟨hall, fun r => (hreceipts' r).trans (hreceipts r)⟩

/-- What a process schedules for the output. -/
def partTasks (st : Stores) (worldsize : ℕ) (i : BhInstruction) (b : BhBase) (boxes : List (List ℕ × List ℕ)) (r : ℕ) :
    List Task :=
  boxes.flatMap fun p => if rankAt worldsize p.1 i.operand0 b = r then (partInsts st worldsize i b p).map Task.inst else []

theorem executeRegular_parts (h : Countable i b d) {boxes : List (List ℕ × List ℕ)} (hparts : Parts worldsize i b d boxes)
    (r : ℕ) : executeRegular st ⟨worldsize, r⟩ i = some (partTasks st worldsize i b boxes r) := by
  have hgroups : boxes.flatMap (fun p => groupTasks st r i (chunksAt st ⟨worldsize, r⟩ i.operands p.1 p.2)) =
      partTasks st worldsize i b boxes r :=
    List.flatMap_congr fun p _ => groupTasks_range h r
  have hdiscards : (partTasks st worldsize i b boxes r).filter Task.isDiscard = [] := by
    rw [partTasks, List.filter_flatMap, List.flatMap_eq_nil_iff]
    intro p _
    split_ifs
    · exact filter_isDiscard_partInsts h p
    · rfl
  rw [executeRegular, hparts.mapping st r, Option.map_some, List.flatMap_map, hgroups, foldl_batchSchedule]
  · rfl
  · rw [List.nil_append, hdiscards]
    exact List.nodup_nil

theorem project_partEvents (I : Interp V) (p : List ℕ × List ℕ) (r : ℕ) :
    (partEvents I st worldsize i b p).flatMap (Event.project r) =
      (if rankAt worldsize p.1 i.operand0 b = r then (partInsts st worldsize i b p).map Task.inst else []).map
        (Task.action I) := by
  rw [partEvents, project_acts]
  split_ifs <;> rfl

theorem project_parts (h : Countable i b d) {boxes : List (List ℕ × List ℕ)} (hparts : Parts worldsize i b d boxes)
    (r : ℕ) : (if r < worldsize then (partTasks st worldsize i b boxes r).map (Task.action I) else []) =
      (boxes.flatMap (partEvents I st worldsize i b)).flatMap (Event.project r) := by
  rw [List.flatMap_assoc]
  simp only [project_partEvents]
  split_ifs with hr
  · rw [partTasks, List.map_flatMap]
  · -- a part is on one of the processes there are
    rw [eq_comm, List.flatMap_eq_nil_iff]
    intro p hp
    obtain ⟨rank, start, hloc, hlt, -⟩ := hparts.onRank h p hp
    have hne : rankAt worldsize p.1 i.operand0 b ≠ r := by
      rw [rankAt, hloc]
      dsimp only
      omega
    rw [if_neg hne]
    rfl

/-- `execute_regular` of `BH_RANGE` on all processes. -/
theorem plan_of_parts (hI : CountsOn I) (h : Countable i b d) {boxes : List (List ℕ × List ℕ)}
    (hparts : Parts worldsize i b d boxes) :
    Plan I st worldsize i (partTasks st worldsize i b boxes) (boxes.flatMap (partEvents I st worldsize i b)) where
  execute := executeRegular_parts h hparts
  project := project_parts h hparts
  proper e he := by
    obtain ⟨p, _, he⟩ := List.mem_flatMap.mp he
    obtain ⟨j, _, rfl⟩ := List.mem_map.mp he
    trivial
  computes s m hs := by
    obtain ⟨hall, hreceipts⟩ := scattered_parts hI h (hparts.length h) (hparts.onRank h) hparts.onward hs
    rw [foldl_storePart h hparts] at hall
    refine ⟨hall, fun r x hx => Or.inl ?_⟩
    rwa [hreceipts r] at hx

theorem exists_rangePlan (hI : CountsOn I) (st : Stores) (hws : 1 ≤ worldsize) (h : Countable i b d) :
    ∃ tasks events, Plan I st worldsize i tasks events := by
  by_cases hpos : 1 ≤ d.shape
  · obtain ⟨boxes, hparts⟩ := exists_parts hws h hpos
    exact ⟨_, _, plan_of_parts hI h hparts⟩
  · have hzero : d.shape = 0 := by omega
    have hhead : i.operands.headD ⟨none, 0, []⟩ = i.operand0 := by
      rw [h.operands_eq]
      rfl
    have hsame : ∀ m, runWhole I i m = m := fun m => by
      rw [runWhole_range h, h.shape_eq, hzero]
      rfl
    exact ⟨_, _, plan_of_empty hhead (by simp [h.shape_eq, hzero]) hsame⟩

end Vector
end Bohrium.Cluster
