import Bohrium.Cluster.FaceRun

/-! # Reductions of a vector

Each chunk of the vector is reduced where it lies, and the results come together in an array of the
process that holds the output. There is one chunk for each process that holds elements, because a
chunk ends only where the next process begins; so the array is long enough. -/
namespace Bohrium.Cluster
open Strided Network
set_option autoImplicit false

/-! ## The operands -/

section Operands
variable {worldsize : ℕ} {i : BhInstruction} {b c : BhBase}

/-- A reduction of a vector. -/
structure Vectorial (i : BhInstruction) (b c : BhBase) (d e : Dim) : Prop extends Reducible i b c where
  vector : i.operand1.dims = [d]
  scalar : i.operand0.dims = [e]
  one : e.shape = 1

theorem Reducible.vectorial (h : Reducible i b c) (hndim : i.operand1.ndim = 1) : ∃ d e, Vectorial i b c d e := by
  obtain ⟨d, hd⟩ := List.length_eq_one_iff.mp hndim
  have hshape : i.operand0.dims.map Dim.shape = [1] := by
    have hred := h.shape
    rwa [reduceShape, if_pos (by rw [BhView.shape, List.length_map]; exact hndim)] at hred
  obtain ⟨e, he⟩ := List.length_eq_one_iff.mp (by simpa using congrArg List.length hshape)
  refine ⟨d, e, h, hd, he, ?_⟩
  simpa [he] using hshape

variable {d e : Dim} {p : List ℕ × List ℕ}

namespace Vectorial

theorem shape_input (h : Vectorial i b c d e) : i.operand1.shape = [d.shape] := by
  rw [BhView.shape, h.vector]
  rfl

theorem shape_output (h : Vectorial i b c d e) : i.operand0.shape = [1] := by
  rw [BhView.shape, h.scalar, List.map_cons, h.one]
  rfl

theorem bcastOut_eq (h : Vectorial i b c d e) :
    bcastOut i.operand0 i.operand1 = { i.operand0 with dims := [⟨d.shape, 0⟩] } := by
  rw [bcastOut, h.shape_input]
  rfl

theorem reduceOperands_eq (h : Vectorial i b c d e) :
    reduceOperands i = [bcastOut i.operand0 i.operand1, i.operand1] := by
  rw [reduceOperands, if_pos]
  rw [BhView.ndim, h.vector]
  rfl

theorem offset_bcastOut (h : Vectorial i b c d e) (x : List ℕ) :
    (bcastOut i.operand0 i.operand1).offset x = i.operand0.offset [0] := by
  rw [h.bcastOut_eq, BhView.offset, BhView.offset, h.scalar]
  cases x <;> simp [dot]

theorem mappable (h : Vectorial i b c d e) :
    Mappable [bcastOut i.operand0 i.operand1, i.operand1] (bcastOut i.operand0 i.operand1) where
  head := rfl
  array := by
    show i.operand0.base.isSome
    rw [h.output]
    rfl
  ndim := by
    rw [h.bcastOut_eq]
    exact List.cons_ne_nil _ _
  positive := by
    have hpos := h.positive
    rw [h.shape_input] at hpos
    rw [h.bcastOut_eq]
    exact hpos
  shape := by
    intro v hv _
    rcases List.mem_cons.mp hv with rfl | hv
    · rfl
    · rw [List.mem_singleton.mp hv, h.shape_input, h.bcastOut_eq]
      rfl
  stride := by
    intro v hv _ a ha
    rcases List.mem_cons.mp hv with rfl | hv
    · rw [h.bcastOut_eq, List.mem_singleton] at ha
      rw [ha]
    · rw [List.mem_singleton.mp hv] at ha
      exact h.stride a ha
  inBase := by
    intro v hv _
    rcases List.mem_cons.mp hv with rfl | hv
    · refine ⟨b, h.output, fun x hx => ?_⟩
      rw [BhView.offsets_eq_map] at hx
      obtain ⟨idx, _, rfl⟩ := List.mem_map.mp hx
      rw [h.offset_bcastOut]
      apply offset_bounds h.outInBase h.output
      rw [h.shape_output]
      exact List.Forall₂.cons Nat.one_pos List.Forall₂.nil
    · rw [List.mem_singleton.mp hv]
      exact h.inBase

end Vectorial

end Operands

/-! ## The number of chunks -/

section Count
variable {worldsize : ℕ} {st : Stores} {i : BhInstruction} {b c : BhBase} {d e : Dim} {myrank : ℕ}

theorem locate_mono {nelem : ℕ} {o o' : ℤ} (h0 : 0 ≤ o) (h : o ≤ o') :
    (locate worldsize nelem o).1 ≤ (locate worldsize nelem o').1 := by
  simp only [locate]
  split_ifs with hpos
  · have hdiv : o.tdiv ↑(nelem / worldsize) ≤ o'.tdiv ↑(nelem / worldsize) := by
      rw [Int.tdiv_eq_ediv_of_nonneg h0, Int.tdiv_eq_ediv_of_nonneg (h0.trans h)]
      exact Int.ediv_le_ediv hpos h
    have := Int.toNat_le_toNat hdiv
    omega
  · exact le_rfl

/-- A process's part of a vector ends where that of the next process begins. -/
theorem rankAt_lt_add (hws : 1 ≤ worldsize) {v : BhView} (hb : v.base = some c) (hv : v.dims = [d]) (hstride : 0 ≤ d.stride)
    (hin : v.InBase) {k n : ℕ} (hn : operandShape worldsize v c [k] [d.shape] = [n]) (hlt : k + n < d.shape) :
    rankAt worldsize [k] v c < rankAt worldsize [k + n] v c := by
  have hoff : ∀ x : ℕ, v.offset [x] = v.start + x * d.stride := by
    intro x
    simp [BhView.offset, hv, dot]
  have hbounds : ∀ x : ℕ, x < d.shape → 0 ≤ v.offset [x] ∧ v.offset [x] < c.nelem := by
    intro x hx
    apply offset_bounds hin hb
    rw [BhView.shape, hv]
    exact List.Forall₂.cons hx List.Forall₂.nil
  have hk : k < d.shape := by omega
  obtain ⟨rank, start, hloc, hrank, hstart, h0, hend⟩ := locate_spec hws (hbounds k hk).1 (hbounds k hk).2
  obtain ⟨rank', start', hloc', hrank', hstart', h0', hend'⟩ := locate_spec hws (hbounds _ hlt).1 (hbounds _ hlt).2
  have hn' : n = if 0 < d.stride then
      min (ceilDiv (↑(arrayLocalNelem worldsize rank c) - start) d.stride).toNat (d.shape - k) else d.shape - k := by
    simp only [operandShape, hloc, hv, extents, List.zipWith_cons_cons, List.zipWith_nil_left, sub_zero] at hn
    exact (List.cons.inj hn).1.symm
  have hpos : 0 < d.stride := by
    by_contra hneg
    rw [if_neg hneg] at hn'
    omega
  rw [if_pos hpos] at hn'
  have hceil : n = (ceilDiv (↑(arrayLocalNelem worldsize rank c) - start) d.stride).toNat := by omega
  -- the next element is not on this process
  have hover : (arrayLocalNelem worldsize rank c : ℤ) - start ≤ n * d.stride := by
    have hfloor := Int.ediv_mul_le (-((arrayLocalNelem worldsize rank c : ℤ) - start)) hpos.ne'
    have hnn : (ceilDiv (↑(arrayLocalNelem worldsize rank c) - start) d.stride) ≤ n := by omega
    unfold ceilDiv at hnn
    nlinarith
  have hmono : rank ≤ rank' := by
    have := @locate_mono worldsize c.nelem _ _ (hbounds k hk).1 (show v.offset [k] ≤ v.offset [k + n] by
      rw [hoff, hoff]
      push_cast
      nlinarith)
    rwa [hloc, hloc'] at this
  rw [rankAt, rankAt, hloc, hloc']
  show rank < rank'
  refine lt_of_le_of_ne hmono ?_
  rintro rfl
  rw [hoff] at hstart hstart'
  rw [Nat.cast_add] at hstart'
  linarith

/-- A chunk of a vector ends where the next process begins. -/
theorem rankAt_lt_next (hws : 1 ≤ worldsize) (h : Vectorial i b c d e) {k n : ℕ}
    (hn : chunkShape worldsize [bcastOut i.operand0 i.operand1, i.operand1] [k] [d.shape] = [n]) (hlt : k + n < d.shape) :
    rankAt worldsize [k] i.operand1 c < rankAt worldsize [k + n] i.operand1 c := by
  have hstride : 0 ≤ d.stride := h.stride d (by rw [h.vector]; exact List.mem_singleton_self d)
  have hintp : d.shape < 2 ^ 63 := h.intp d.shape (by rw [h.shape_input]; exact List.mem_singleton_self _)
  -- only the input bounds the chunk
  have hout : operandShape worldsize (bcastOut i.operand0 i.operand1) b [k] [d.shape] = [d.shape - k] := by
    simp [operandShape, h.bcastOut_eq, extents]
  obtain ⟨q, hq⟩ : ∃ q, operandShape worldsize i.operand1 c [k] [d.shape] = [q] := by
    unfold operandShape
    rw [h.vector]
    exact ⟨_, rfl⟩
  have hbase : (bcastOut i.operand0 i.operand1).base = some b := h.output
  have hqn : q = n := by
    simp only [chunkShape, List.foldl_cons, List.foldl_nil, hbase, h.input, hout, hq, List.length_singleton,
      List.replicate_one, List.zipWith_cons_cons, List.zipWith_nil_left, List.cons.injEq, and_true] at hn
    omega
  rw [hqn] at hq
  exact rankAt_lt_add hws h.input h.vector hstride h.inBase hq hlt

theorem getChunks_vector {operands : List BhView} {fuel k n N : ℕ} (hk : k < N)
    (hn : chunkShape worldsize operands [k] [N] = [n]) :
    getChunks st ⟨worldsize, myrank⟩ operands (fuel + 1) [k] [N] =
      (getChunks st ⟨worldsize, myrank⟩ operands fuel [k + n] [N]).map fun rest =>
        chunksAt st ⟨worldsize, myrank⟩ operands [k] [n] :: rest := by
  have htail : (Box.corners [k].length).tail = [[1]] := rfl
  have hskip : ¬ (List.zipWith (fun l h => decide (h ≤ l)) [k] [N]).any id = true := by simpa using hk
  rw [getChunks, if_neg hskip, htail]
  simp only [findLargestChunk, hn, List.zipWith_cons_cons, List.zipWith_nil_left, Box.pick, if_true, List.mapM_cons,
    List.mapM_nil]
  cases getChunks st ⟨worldsize, myrank⟩ operands fuel [k + n] [N] with
  | none => rfl
  | some rest => simp

theorem getChunks_vector_end {operands : List BhView} {fuel k N : ℕ} (hk : N ≤ k)
    {groups : List (List (Option AryChunk))}
    (hget : getChunks st ⟨worldsize, myrank⟩ operands fuel [k] [N] = some groups) : groups = [] := by
  cases fuel with
  | zero => cases hget
  | succ fuel =>
    rw [getChunks, if_pos (by simpa using hk)] at hget
    exact (Option.some.inj hget).symm

/-- The chunks of a vector are on different processes. -/
theorem length_getChunks (hws : 1 ≤ worldsize) (h : Vectorial i b c d e) (fuel : ℕ) :
    ∀ k groups, k < d.shape →
      getChunks st ⟨worldsize, myrank⟩ [bcastOut i.operand0 i.operand1, i.operand1] fuel [k] [d.shape] = some groups →
      groups.length + rankAt worldsize [k] i.operand1 c ≤ worldsize := by
  induction fuel with
  | zero => exact fun k groups _ hget => nomatch hget
  | succ fuel ih =>
    intro k groups hk hget
    have hshape : (bcastOut i.operand0 i.operand1).shape = [d.shape] := by
      rw [h.bcastOut_eq]
      rfl
    obtain ⟨_, hle, hrank⟩ := @chunkShape_spec worldsize _ _ [k] [d.shape] hws h.mappable
      (List.Forall₂.cons hk List.Forall₂.nil) (by rw [hshape]; exact List.Forall₂.cons le_rfl List.Forall₂.nil)
    obtain ⟨n, hn⟩ := List.length_eq_one_iff.mp (hle.length_eq.trans rfl)
    have hhere : rankAt worldsize [k] i.operand1 c < worldsize := by
      obtain ⟨rank, start, hloc, hlt, _⟩ := hrank i.operand1 (List.mem_cons_of_mem _ List.mem_cons_self) c h.input
      rw [rankAt, hloc]
      exact hlt
    rw [getChunks_vector hk hn, Option.map_eq_some_iff] at hget
    obtain ⟨rest, hrest, rfl⟩ := hget
    rw [List.length_cons]
    by_cases hlt : k + n < d.shape
    · have hnext := rankAt_lt_next hws h hn hlt
      have := ih (k + n) rest hlt hrest
      omega
    · rw [getChunks_vector_end (Nat.le_of_not_lt hlt) hrest]
      rw [List.length_nil]
      omega

end Count

/-! ## Events -/

section Events
variable {V : Type} (I : Interp V) (st : Stores) (worldsize : ℕ) (i : BhInstruction) (c mtmp : BhBase) (w : ℕ)

/-- The local array for the result of a chunk. -/
def localTmp (p : List ℕ × List ℕ) : BhBase := ⟨st.ofChunk p.1 2, c.type, 1⟩

/-- The events of a chunk after `count` results. -/
def chunkEvents (count : ℕ) (p : List ℕ × List ℕ) : List (Event ℕ (Node V) (Message V)) :=
  if inRank worldsize i c p = w then
    [.act w (execInst I (reduceChunk i.opcode i.axis (scalarAt mtmp count) (inView st worldsize i c p)))]
  else
    [.act (inRank worldsize i c p)
        (execInst I (reduceChunk i.opcode i.axis (scalarAt (localTmp st c p) 0) (inView st worldsize i c p))),
      .comm (inRank worldsize i c p) w (sendView (p.1, 2) (scalarAt (localTmp st c p) 0))
        (recvView (p.1, 2) (scalarAt mtmp count))] ++
      releaseAt I (inRank worldsize i c p) (localTmp st c p)

/-- The events of all chunks. -/
def vectorEvents : ℕ → List (List ℕ × List ℕ) → List (Event ℕ (Node V) (Message V))
  | _, [] => []
  | count, p :: ps => chunkEvents I st worldsize i c mtmp w count p ++ vectorEvents (count + 1) ps

end Events

section Project
variable {V : Type} {I : Interp V} {st : Stores} {worldsize : ℕ} {i : BhInstruction} {b c mtmp : BhBase} {w : ℕ}
  {d e : Dim} {p : List ℕ × List ℕ}

theorem chunksAt_vector (h : Vectorial i b c d e) (r : ℕ) (p : List ℕ × List ℕ) :
    chunksAt st ⟨worldsize, r⟩ (reduceOperands i) p.1 p.2 =
      [some (chunkOf st ⟨worldsize, r⟩ p.1 p.2 0 (bcastOut i.operand0 i.operand1) b),
        some (chunkOf st ⟨worldsize, r⟩ p.1 p.2 1 i.operand1 c)] := by
  have hbase : (bcastOut i.operand0 i.operand1).base = some b := h.output
  simp [h.reduceOperands_eq, chunksAt, hbase, h.input]

/-- The tasks of a process for a chunk are its part of the chunk's events; only the master counts. -/
theorem map_vectorTasks {r count count' : ℕ} (hcount : r = w → count' = count) :
    (vectorTasks st r i mtmp w count' (chunkOf st ⟨worldsize, r⟩ p.1 p.2 1 i.operand1 c)).map (Task.action I) =
      (chunkEvents I st worldsize i c mtmp w count p).flatMap (Event.project r) := by
  have hrank : (chunkOf st ⟨worldsize, r⟩ p.1 p.2 1 i.operand1 c).rank = inRank worldsize i c p := by
    rw [rank_chunkOf]
    rfl
  unfold vectorTasks chunkEvents
  rw [hrank, coord_chunkOf]
  by_cases hv : r = inRank worldsize i c p
  · have hchunk := @chunkOf_rankAt st worldsize p.1 p.2 r 1 i.operand1 c hv.symm
    have hview : localView st worldsize r (startAt worldsize p.1 i.operand1 c) p.2 i.operand1 c =
        inView st worldsize i c p := by
      rw [hv]
      rfl
    rw [hview] at hchunk
    have hnot : ¬ (r = w ∧ r ≠ inRank worldsize i c p) := fun hand => hand.2 hv
    rw [hchunk, if_pos hv, if_neg hnot, List.append_nil]
    by_cases hw : r = w
    · rw [if_pos hw, if_pos (hv.symm.trans hw), hcount hw]
      simp [releaseChunk, Event.project, hw, action_inst]
    · rw [if_neg hw, if_neg (fun heq => hw (hv.trans heq)), List.flatMap_append, project_releaseAt, if_pos hv.symm]
      simp [releaseChunk, Event.project, hv, Task.action, inView, localView, localTmp, arrayGetLocal]
      rfl
  · rw [if_neg hv, List.nil_append]
    by_cases hw : r = w
    · rw [if_pos ⟨hw, hv⟩, if_neg (fun heq => hv (hw.trans heq.symm)), List.flatMap_append, project_releaseAt,
        if_neg (Ne.symm hv), hcount hw]
      have hne : inRank worldsize i c p ≠ w := fun heq => hv (hw.trans heq.symm)
      simp [Event.project, Task.action, hw, hne]
    · rw [if_neg (fun hand => hw hand.1)]
      split_ifs
      · simp [Event.project, Ne.symm hw]
      · rw [List.flatMap_append, project_releaseAt, if_neg (Ne.symm hv)]
        simp [Event.project, Ne.symm hv, Ne.symm hw]

theorem vectorLoop_cons (h : Vectorial i b c d e) (r count : ℕ) (p : List ℕ × List ℕ) (ps : List (List ℕ × List ℕ)) :
    vectorLoop st r i mtmp w count
        ((p :: ps).map fun p => chunksAt st ⟨worldsize, r⟩ (reduceOperands i) p.1 p.2) =
      (vectorTasks st r i mtmp w count (chunkOf st ⟨worldsize, r⟩ p.1 p.2 1 i.operand1 c) ++
        (vectorLoop st r i mtmp w (if r = w then count + 1 else count)
          (ps.map fun p => chunksAt st ⟨worldsize, r⟩ (reduceOperands i) p.1 p.2)).1,
        (vectorLoop st r i mtmp w (if r = w then count + 1 else count)
          (ps.map fun p => chunksAt st ⟨worldsize, r⟩ (reduceOperands i) p.1 p.2)).2) := by
  rw [List.map_cons, chunksAt_vector h, vectorLoop]

/-- Only the master counts. -/
theorem vectorLoop_count (h : Vectorial i b c d e) (r count : ℕ) (ps : List (List ℕ × List ℕ)) :
    (vectorLoop st r i mtmp w count
        (ps.map fun p => chunksAt st ⟨worldsize, r⟩ (reduceOperands i) p.1 p.2)).2 =
      if r = w then count + ps.length else count := by
  induction ps generalizing count with
  | nil =>
    rw [List.map_nil, vectorLoop]
    split_ifs <;> rfl
  | cons p ps ih =>
    rw [vectorLoop_cons h]
    dsimp only
    rw [ih, List.length_cons]
    split_ifs
    · omega
    · rfl

theorem map_vectorLoop (h : Vectorial i b c d e) {r count count' : ℕ} (hcount : r = w → count' = count)
    (ps : List (List ℕ × List ℕ)) :
    (vectorLoop st r i mtmp w count'
        (ps.map fun p => chunksAt st ⟨worldsize, r⟩ (reduceOperands i) p.1 p.2)).1.map (Task.action I) =
      (vectorEvents I st worldsize i c mtmp w count ps).flatMap (Event.project r) := by
  induction ps generalizing count count' with
  | nil => rfl
  | cons p ps ih =>
    rw [vectorLoop_cons h, vectorEvents, List.map_append, List.flatMap_append, map_vectorTasks hcount, ih]
    intro hr
    rw [if_pos hr, hcount hr]

theorem project_vectorEvents_eq_nil {r : ℕ} (hw : r ≠ w) {ps : List (List ℕ × List ℕ)}
    (hin : ∀ p ∈ ps, inRank worldsize i c p ≠ r) (count : ℕ) :
    (vectorEvents I st worldsize i c mtmp w count ps).flatMap (Event.project r) = [] := by
  induction ps generalizing count with
  | nil => rfl
  | cons p ps ih =>
    rw [List.forall_mem_cons] at hin
    rw [vectorEvents, List.flatMap_append, ih hin.2, List.append_nil]
    unfold chunkEvents
    split_ifs
    · simp [Event.project, Ne.symm hw]
    · rw [List.flatMap_append, project_releaseAt, if_neg hin.1]
      simp [Event.project, hin.1, Ne.symm hw]

theorem proper_vectorEvents (ps : List (List ℕ × List ℕ)) (count : ℕ) :
    ∀ x ∈ vectorEvents I st worldsize i c mtmp w count ps, x.Proper := by
  induction ps generalizing count with
  | nil => exact fun x hx => absurd hx List.not_mem_nil
  | cons p ps ih =>
    intro x hx
    rcases List.mem_append.mp hx with hx | hx
    · unfold chunkEvents at hx
      split_ifs at hx with hsame
      · rw [List.mem_singleton.mp hx]
        trivial
      · simp only [releaseAt, List.mem_append, List.mem_cons, List.not_mem_nil, or_false] at hx
        rcases hx with (rfl | rfl) | rfl | rfl
        · trivial
        · exact hsame
        · trivial
        · trivial
    · exact ih (count + 1) x hx

theorem discards_vectorLoop (h : Vectorial i b c d e) (hop : i.opcode ≠ .discard) {ps : List (List ℕ × List ℕ)}
    (hcorner : ps.Pairwise fun p q => p.1 ≠ q.1) (r count : ℕ) :
    Discards (fun a => ∃ p ∈ ps, a = st.ofChunk p.1 2) (vectorLoop st r i mtmp w count
      (ps.map fun p => chunksAt st ⟨worldsize, r⟩ (reduceOperands i) p.1 p.2)).1 := by
  induction ps generalizing count with
  | nil => exact Discards.nil
  | cons p ps ih =>
    rw [List.pairwise_cons] at hcorner
    have hinst : ∀ out input, (Task.inst (reduceChunk i.opcode i.axis out input)).isDiscard = false := by
      intro out input
      simpa [Task.isDiscard, reduceChunk] using hop
    have hhead : Discards (· = st.ofChunk p.1 2)
        (vectorTasks st r i mtmp w count (chunkOf st ⟨worldsize, r⟩ p.1 p.2 1 i.operand1 c)) := by
      unfold vectorTasks
      rw [rank_chunkOf, coord_chunkOf]
      by_cases hv : r = (locate worldsize c.nelem (i.operand1.offset p.1)).1
      · have hchunk := @chunkOf_rankAt st worldsize p.1 p.2 r 1 i.operand1 c hv.symm
        have hnot : ¬ (r = w ∧ r ≠ (locate worldsize c.nelem (i.operand1.offset p.1)).1) := fun hand => hand.2 hv
        rw [if_pos hv, if_neg hnot, List.append_nil, hchunk, releaseChunk]
        simp only [Bool.false_eq_true, if_false, List.append_nil]
        split_ifs
        · exact Discards.nil.cons_of_not (hinst _ _)
        · apply Discards.cons_of_not _ (hinst _ _)
          apply Discards.cons_of_not _ rfl
          exact Discards.release rfl
      · rw [if_neg hv, List.nil_append]
        split_ifs
        · exact Discards.nil.cons_of_not rfl
        · exact Discards.nil
    rw [vectorLoop_cons h]
    refine (hhead.append (ih hcorner.2 _) ?_).mono ?_
    · rintro a rfl ⟨q, hq, heq⟩
      exact hcorner.1 q hq (st.chunk_inj _ _ _ _ heq).1
    · rintro a (rfl | ⟨q, hq, rfl⟩)
      · exact ⟨p, List.mem_cons_self, rfl⟩
      · exact ⟨q, List.mem_cons_of_mem p hq, rfl⟩

end Project

/-! ## The results of the chunks -/

section Collect
variable {V : Type} {I : Interp V} {st : Stores} {worldsize : ℕ} {i : BhInstruction} {b c mtmp : BhBase} {w : ℕ}
  {d e : Dim} {p : List ℕ × List ℕ} {m : Mem V}

theorem indices_one : indices [1] = [[0]] := by decide

theorem offset_scalarAt (a : BhBase) (k : ℤ) : (scalarAt a k).offset [0] = k := by
  simp [scalarAt, BhView.offset, dot]

theorem boxFibre_vector (hlen : p.1.length = 1) (hlen' : p.2.length = 1) :
    boxFibre i.axis p [0] =
      ((indices p.2).filter fun idx => reduceIndex i.axis idx == [0]).map (List.zipWith (· + ·) p.1) := by
  apply boxFibre_eq_map
  intro idx hidx
  have hidx : idx.length = 1 := (mem_indices.mp hidx).length_eq.trans hlen'
  rw [reduceIndex, reduceIndex, if_pos hidx, if_pos (by rw [List.length_zipWith, hlen, hidx, Nat.min_self])]

/-- The reduction of a chunk into one element. -/
theorem runWhole_chunk (h : Vectorial i b c d e) (hk : i.kind = .reduction) (hlen : p.1.length = 1)
    (hlen' : p.2.length = 1) {mems : ℕ → Mem V} (hs : Scattered st worldsize mems m)
    (hrank : OnRank worldsize p.1 p.2 i.operand1 c) {a : BhBase} (ha : a.type = c.type) (k : ℤ) :
    runWhole I (reduceChunk i.opcode i.axis (scalarAt a k) (inView st worldsize i c p))
        (mems (inRank worldsize i c p)) (a, k) = boxValue I i m p [0] := by
  have hdims : p.2.length = i.operand1.dims.length := by rw [hlen', h.vector]; rfl
  have hinShape : (inView st worldsize i c p).shape = p.2 := map_shape_zipWith p.2 i.operand1.dims hdims
  have hinj : (scalarAt a k).Injective := by
    rw [BhView.Injective, BhView.offsets_eq_map]
    exact List.nodup_singleton _
  have hrun := @runWhole_reduceChunk V I i.opcode i.axis (scalarAt a k) (inView st worldsize i c p) a hk rfl hinj
    (by rw [hinShape, reduceShape, if_pos hlen']; rfl) (fun _ => rfl) [0] (show [0] ∈ indices [1] by decide)
    (mems (inRank worldsize i c p))
  rw [offset_scalarAt] at hrun
  rw [hrun, boxValue, hinShape, boxFibre_vector hlen hlen', List.map_map]
  have htype : i.outType = some a.type := by
    rw [BhInstruction.outType, h.output, ha, h.type]
    rfl
  rw [htype]
  refine congrArg _ (List.map_congr_left fun idx hidx => ?_)
  exact load_inView h.toReducible hs hdims hrank _ (List.mem_of_mem_filter hidx)

/-- A reduction into one element changes that element only. -/
theorem runWhole_scalarAt_of_ne {a : BhBase} {k : ℤ} {input : BhView} (hk : bhKind i.opcode = .reduction) {l : Loc}
    (hl : l ≠ (a, k)) (m : Mem V) : runWhole I (reduceChunk i.opcode i.axis (scalarAt a k) input) m l = m l := by
  rw [runWhole_reduction (i := reduceChunk i.opcode i.axis (scalarAt a k) input) hk]
  apply applyStores_of_notMem
  intro q hq heq
  have hmem : q ∈ (indices [1]).map fun idx => ((a, (scalarAt a k).offset idx), _) := hq
  rw [indices_one, List.map_singleton, List.mem_singleton] at hmem
  rw [hmem, offset_scalarAt] at heq
  exact hl heq.symm

/-- The state after some chunks: the master has their results. -/
structure Collected (I : Interp V) (st : Stores) (i : BhInstruction) (mtmp : BhBase) (w : ℕ) (m : Mem V) (count : ℕ)
    (ps : List (List ℕ × List ℕ)) (s s' : ℕ → Node V) : Prop where
  frame : ∀ r (l : Loc), (∀ q k, l.1.addr ≠ st.ofChunk q k) → (s' r).mem l = (s r).mem l
  keep : ∀ k : ℕ, k < count → (s' w).mem (mtmp, (k : ℤ)) = (s w).mem (mtmp, (k : ℤ))
  data : ∀ (k : ℕ) p, ps[k]? = some p → (s' w).mem (mtmp, ((count + k : ℕ) : ℤ)) = boxValue I i m p [0]
  receipts : ∀ r, ∀ x ∈ (s' r).receipts, x ∈ (s r).receipts ∨ x.Matched

/-- A message of one element changes one element. -/
theorem recvView_scalarAt_of_ne {id : ChunkId} {a a' : BhBase} {k k' : ℤ} {s t : Node V} {l : Loc} (hl : l ≠ (a, k)) :
    (recvView id (scalarAt a k) (sendView id (scalarAt a' k') s) t).mem l = t.mem l := by
  have hcount : bhNelementsNbcast (scalarAt a' k') = 1 := rfl
  by_cases hbase : l.1 = a
  · obtain ⟨e, o⟩ := l
    subst hbase
    have ho : o ≠ k := fun heq => hl (by rw [heq])
    simp only [recvView, scalarAt]
    split_ifs with hle
    · obtain ⟨n, hn⟩ := Int.eq_ofNat_of_zero_le (show 0 ≤ o - k by omega)
      have hout : (sendView id (scalarAt a' k') s).data[(o - k).toNat]? = none := by
        rw [sendView_eq rfl, hcount, List.getElem?_eq_none_iff]
        simp only [List.length_map, List.length_range]
        omega
      have hout' : (sendView id ⟨some a', k', [⟨1, 1⟩]⟩ s).data[(o - k).toNat]? = none := hout
      rw [hout']
      rfl
    · rfl
  · exact recvView_of_ne rfl hbase

theorem collected_chunkEvents (h : Vectorial i b c d e) (hk : i.kind = .reduction) (hlen : p.1.length = 1)
    (hlen' : p.2.length = 1) (hrank : OnRank worldsize p.1 p.2 i.operand1 c) (hmtmp : mtmp.addr = st.ofChunk [] 0)
    (htype : mtmp.type = c.type) {s : ℕ → Node V} (hs : Scattered st worldsize (fun r => (s r).mem) m) (count : ℕ) :
    Collected I st i mtmp w m count [p] s (runEvents (chunkEvents I st worldsize i c mtmp w count p) s) := by
  have hreduced := fun (a : BhBase) ha k => runWhole_chunk (I := I) (a := a) h hk hlen hlen' hs hrank ha k
  have hmtmpne : ∀ (l : Loc), (∀ q k, l.1.addr ≠ st.ofChunk q k) → l ≠ (mtmp, (count : ℤ)) := by
    intro l hl heq
    exact hl [] 0 (by rw [heq]; exact hmtmp)
  have hlast : ∀ (s' : ℕ → Node V), (s' w).mem (mtmp, (count : ℤ)) = boxValue I i m p [0] →
      ∀ (k : ℕ) q, [p][k]? = some q → (s' w).mem (mtmp, ((count + k : ℕ) : ℤ)) = boxValue I i m q [0] := by
    intro s' hs' k q hq
    cases k with
    | zero =>
      obtain rfl := Option.some.inj hq
      exact hs'
    | succ k => cases hq
  unfold chunkEvents
  by_cases hsame : inRank worldsize i c p = w
  · rw [if_pos hsame]
    show Collected I st i mtmp w m count [p] s (Function.update s w (execInst I _ (s w)))
    refine ⟨fun r l hl => ?_, fun k hk' => ?_, hlast _ ?_, fun r x hx => Or.inl ?_⟩
    · by_cases hr : r = w
      · subst hr
        rw [Function.update_self]
        exact runWhole_scalarAt_of_ne hk (hmtmpne l hl) _
      · rw [Function.update_of_ne hr]
    · rw [Function.update_self]
      refine runWhole_scalarAt_of_ne hk (fun heq => ?_) _
      have := (Prod.mk.inj heq).2
      omega
    · rw [Function.update_self, ← hsame]
      exact hreduced mtmp htype count
    · by_cases hr : r = w
      · subst hr
        rw [Function.update_self] at hx
        exact hx
      · rwa [Function.update_of_ne hr] at hx
  · rw [if_neg hsame]
    obtain ⟨v, hv⟩ : ∃ v, v = inRank worldsize i c p := ⟨_, rfl⟩
    obtain ⟨sent, hsent⟩ : ∃ n : Node V, n = execInst I (reduceChunk i.opcode i.axis (scalarAt (localTmp st c p) 0)
      (inView st worldsize i c p)) (s v) := ⟨_, rfl⟩
    rw [← hv] at hsame ⊢
    have hrun : ∀ r, runEvents ([Event.act v (execInst I (reduceChunk i.opcode i.axis (scalarAt (localTmp st c p) 0)
        (inView st worldsize i c p))), .comm v w (sendView (p.1, 2) (scalarAt (localTmp st c p) 0))
          (recvView (p.1, 2) (scalarAt mtmp count))] ++ releaseAt I v (localTmp st c p)) s r =
        if r = v then sent
        else if r = w then
          recvView (p.1, 2) (scalarAt mtmp count) (sendView (p.1, 2) (scalarAt (localTmp st c p) 0) sent) (s w)
        else s r := by
      intro r
      rw [hsent]
      simp only [releaseAt, runEvents, List.cons_append, List.nil_append, List.foldl_cons, List.foldl_nil, Event.run,
        execInst, runWhole_onBaseInst (rfl : bhOpcodeIsSystem .free = true),
        runWhole_onBaseInst (rfl : bhOpcodeIsSystem .discard = true), Function.update_self, Function.update_idem,
        Function.update_of_ne hsame, Function.update_of_ne (Ne.symm hsame)]
      by_cases hrv : r = v
      · rw [if_pos hrv, hrv, Function.update_self]
      · rw [if_neg hrv, Function.update_of_ne hrv]
        by_cases hrw : r = w
        · rw [if_pos hrw, hrw, Function.update_self]
        · rw [if_neg hrw, Function.update_of_ne hrw, Function.update_of_ne hrv]
    have hw : runEvents ([Event.act v (execInst I (reduceChunk i.opcode i.axis (scalarAt (localTmp st c p) 0)
        (inView st worldsize i c p))), .comm v w (sendView (p.1, 2) (scalarAt (localTmp st c p) 0))
          (recvView (p.1, 2) (scalarAt mtmp count))] ++ releaseAt I v (localTmp st c p)) s w =
        recvView (p.1, 2) (scalarAt mtmp count) (sendView (p.1, 2) (scalarAt (localTmp st c p) 0) sent) (s w) := by
      rw [hrun, if_neg (Ne.symm hsame), if_pos rfl]
    refine ⟨fun r l hl => ?_, fun k hk' => ?_, hlast _ ?_, fun r x hx => ?_⟩
    · rw [hrun]
      split_ifs with hrv hrw
      · rw [hrv, hsent]
        refine runWhole_scalarAt_of_ne hk (fun heq => hl p.1 2 ?_) _
        rw [heq]
        rfl
      · rw [hrw]
        exact recvView_scalarAt_of_ne (hmtmpne l hl)
      · rfl
    · rw [hw]
      apply recvView_scalarAt_of_ne
      intro heq
      have := (Prod.mk.inj heq).2
      omega
    · rw [hw]
      have hrecv : (recvView (p.1, 2) (scalarAt mtmp count) (sendView (p.1, 2) (scalarAt (localTmp st c p) 0) sent)
          (s w)).mem (mtmp, (count : ℤ) + ((0 : ℕ) : ℤ)) = sent.mem (localTmp st c p, 0 + ((0 : ℕ) : ℤ)) :=
        recvView_sendView rfl rfl Nat.one_pos
      rw [Nat.cast_zero, add_zero, add_zero] at hrecv
      rw [hrecv, hsent, hv]
      exact hreduced (localTmp st c p) rfl 0
    · rw [hrun] at hx
      split_ifs at hx with hrv hrw
      · rw [hrv]
        rw [hsent] at hx
        exact Or.inl hx
      · rw [hrw]
        exact matched_recvView (v := scalarAt (localTmp st c p) 0) (w := scalarAt mtmp count) rfl rfl htype.symm rfl
          x hx
      · exact Or.inl hx

theorem collected_vectorEvents (h : Vectorial i b c d e) (hk : i.kind = .reduction)
    (hmtmp : mtmp.addr = st.ofChunk [] 0) (htype : mtmp.type = c.type) {ps : List (List ℕ × List ℕ)}
    (hps : ∀ p ∈ ps, (p.1.length = 1 ∧ p.2.length = 1) ∧ OnRank worldsize p.1 p.2 i.operand1 c) {s : ℕ → Node V}
    (hs : Scattered st worldsize (fun r => (s r).mem) m) (count : ℕ) :
    Collected I st i mtmp w m count ps s (runEvents (vectorEvents I st worldsize i c mtmp w count ps) s) := by
  induction ps generalizing s count with
  | nil =>
    refine ⟨fun _ _ _ => rfl, fun _ _ => rfl, fun k p hp => ?_, fun r x hx => Or.inl hx⟩
    cases hp
  | cons p ps ih =>
    rw [List.forall_mem_cons] at hps
    obtain ⟨⟨hlen, hlen'⟩, hrank⟩ := hps.1
    have hone : Collected I st i mtmp w m count [p] s _ :=
      collected_chunkEvents h hk hlen hlen' hrank hmtmp htype hs count
    rw [vectorEvents, runEvents_append]
    have hscat : Scattered st worldsize
        (fun r => (runEvents (chunkEvents I st worldsize i c mtmp w count p) s r).mem) m := by
      intro b' r k hr hk'
      rw [← hs b' r k hr hk']
      exact hone.frame _ _ fun q k => (st.chunk_ne_local _ _ _).symm
    have hrest := ih hps.2 hscat (count + 1)
    refine ⟨fun r l hl => ?_, fun k hk' => ?_, fun k q hq => ?_, fun r x hx => ?_⟩
    · rw [hrest.frame r l hl, hone.frame r l hl]
    · rw [hrest.keep k (by omega), hone.keep k hk']
    · cases k with
      | zero =>
        rw [hrest.keep (count + 0) (by omega)]
        exact hone.data 0 q hq
      | succ k =>
        have hdata := hrest.data k q hq
        rwa [show count + 1 + k = count + (k + 1) by omega] at hdata
    · rcases hrest.receipts r x hx with hx | hx
      · exact hone.receipts r x hx
      · exact Or.inr hx

end Collect

/-! ## The final reduction -/

section Final
variable {V : Type} {I : Interp V} {st : Stores} {worldsize : ℕ} {i : BhInstruction} {b c : BhBase} {d e : Dim}
  {boxes : List (List ℕ × List ℕ)} {m : Mem V}

/-- The process that holds the output. -/
def masterRank (worldsize : ℕ) (i : BhInstruction) (b : BhBase) : ℕ :=
  (locate worldsize b.nelem (i.operand0.offset [0])).1

/-- The output in the master's local array. -/
def masterOut (st : Stores) (worldsize : ℕ) (i : BhInstruction) (b : BhBase) : BhView :=
  ⟨some (arrayGetLocal st ⟨worldsize, masterRank worldsize i b⟩ b),
    (locate worldsize b.nelem (i.operand0.offset [0])).2.1, [⟨1, 0⟩]⟩

theorem rankAt_bcastOut (h : Vectorial i b c d e) (lo : List ℕ) :
    rankAt worldsize lo (bcastOut i.operand0 i.operand1) b = masterRank worldsize i b := by
  rw [rankAt, h.offset_bcastOut]
  rfl

/-- What the master reduces in the end. -/
def finalInst (st : Stores) (worldsize : ℕ) (i : BhInstruction) (b c : BhBase) (count : ℕ) : BhInstruction :=
  reduceChunk i.opcode i.axis (masterOut st worldsize i b) ⟨some (masterTmp st worldsize c.type), 0, [⟨count, 1⟩]⟩

theorem reduce_boxValues [Std.Associative (I.sweep i.opcode i.outType)] {ps : List (List ℕ × List ℕ)} {o : List ℕ}
    (hne : ∀ p ∈ ps, boxFibre i.axis p o ≠ []) :
    I.reduce i.opcode i.outType (ps.map fun p => boxValue I i m p o) =
      (boxTotal I i m ps o).getD (I.neutral i.opcode) := by
  rw [reduce_eq_getD_total, boxTotal, List.map_flatMap]
  congr 1
  symm
  apply Fold.total_flatMap
  intro p hp
  have htotal := boxTotal_singleton (I := I) (m := m) (hne p hp)
  rwa [boxTotal, List.flatMap_singleton] at htotal

theorem map_range_getElem {α : Type} (f : ℕ → V) (g : α → V) (l : List α) (h : ∀ (k : ℕ) a, l[k]? = some a → f k = g a) :
    (List.range l.length).map f = l.map g := by
  apply List.ext_getElem?
  intro k
  rw [List.getElem?_map, List.getElem?_map]
  cases ha : l[k]? with
  | none =>
    rw [List.getElem?_eq_none_iff] at ha
    rw [List.getElem?_eq_none (by simpa using ha)]
    rfl
  | some a =>
    obtain ⟨hlt, _⟩ := List.getElem?_eq_some_iff.mp ha
    rw [List.getElem?_range hlt, Option.map_some, Option.map_some, h k a ha]

/-- The final reduction leaves what the chunks combine to. -/
theorem runWhole_finalInst [Std.Associative (I.sweep i.opcode i.outType)] [Std.Commutative (I.sweep i.opcode i.outType)]
    (h : Vectorial i b c d e) (hk : i.kind = .reduction) (hlen : ∀ p ∈ boxes, p.1.length = p.2.length)
    (hne : ∀ p ∈ boxes, boxFibre i.axis p [0] ≠ [])
    (htiles : Box.Tiles (boxes.map fun p => (p.1, List.zipWith (· + ·) p.1 p.2))
      (List.replicate i.operand1.shape.length 0) i.operand1.shape) {mem : Mem V}
    (hdata : ∀ (k : ℕ) p, boxes[k]? = some p →
      mem (masterTmp st worldsize c.type, (k : ℤ)) = boxValue I i m p [0]) :
    runWhole I (finalInst st worldsize i b c boxes.length) mem
        (arrayGetLocal st ⟨worldsize, masterRank worldsize i b⟩ b, (masterOut st worldsize i b).offset [0]) =
      I.reduce i.opcode i.outType ((i.fibre [0]).map fun idx => load I i.constant i.operand1 idx m) := by
  have hinj : (masterOut st worldsize i b).Injective := by
    rw [BhView.Injective, BhView.offsets_eq_map]
    exact List.nodup_singleton _
  have hrun := @runWhole_reduceChunk V I i.opcode i.axis (masterOut st worldsize i b)
    ⟨some (masterTmp st worldsize c.type), 0, [⟨boxes.length, 1⟩]⟩
    (arrayGetLocal st ⟨worldsize, masterRank worldsize i b⟩ b) hk rfl hinj rfl (fun _ => rfl) [0]
    (show [0] ∈ indices [1] by decide) mem
  rw [finalInst, hrun, reduce_fibre_eq h.toReducible hlen htiles (by rw [h.shape_output]; decide),
    ← reduce_boxValues hne]
  have htype : i.outType = some (arrayGetLocal st ⟨worldsize, masterRank worldsize i b⟩ b).type := by
    rw [BhInstruction.outType, h.output]
    rfl
  rw [htype, ← map_range_getElem _ _ boxes hdata]
  -- the indices of the master's array
  have hindices : (indices [boxes.length]).filter (fun idx => reduceIndex i.axis idx == [0]) =
      (List.range boxes.length).map fun k => [k] := by
    rw [List.filter_eq_self.mpr]
    · simp [indices, List.map_eq_flatMap]
    · intro idx hidx
      have hidx : idx.length = 1 := (mem_indices.mp hidx).length_eq
      rw [reduceIndex, if_pos hidx]
      rfl
  show I.reduce _ _ (((indices [boxes.length]).filter _).map _) = _
  rw [hindices, List.map_map]
  refine congrArg _ (List.map_congr_left fun k _ => ?_)
  simp [load, BhView.offset, dot]

/-- The events of `reduce_vector`. -/
def reduceVectorEvents (I : Interp V) (st : Stores) (worldsize : ℕ) (i : BhInstruction) (b c : BhBase)
    (boxes : List (List ℕ × List ℕ)) : List (Event ℕ (Node V) (Message V)) :=
  vectorEvents I st worldsize i c (masterTmp st worldsize c.type) (masterRank worldsize i b) 0 boxes ++
    .act (masterRank worldsize i b) (execInst I (finalInst st worldsize i b c boxes.length)) ::
      releaseAt I (masterRank worldsize i b) (masterTmp st worldsize c.type)

/-- What `mapping_chunks` finds for a vector. -/
structure Chunked (worldsize : ℕ) (i : BhInstruction) (c : BhBase) (p : List ℕ × List ℕ) : Prop where
  corner : p.1.length = 1
  lengths : p.2.length = 1
  positive : ∀ n ∈ p.2, 1 ≤ n
  onIn : OnRank worldsize p.1 p.2 i.operand1 c

theorem Chunked.length_eq {p : List ℕ × List ℕ} (hp : Chunked worldsize i c p) : p.1.length = p.2.length :=
  hp.corner.trans hp.lengths.symm

theorem Chunked.boxFibre_ne_nil {p : List ℕ × List ℕ} (hp : Chunked worldsize i c p) : boxFibre i.axis p [0] ≠ [] := by
  obtain ⟨n, hn⟩ := List.length_eq_one_iff.mp hp.lengths
  have hpos := hp.positive n (by rw [hn]; exact List.mem_singleton_self n)
  have hmem : List.zipWith (· + ·) p.1 [0] ∈ boxIndices p := by
    refine List.mem_map_of_mem (mem_indices.mpr ?_)
    rw [hn]
    exact List.Forall₂.cons hpos List.Forall₂.nil
  refine List.ne_nil_of_mem (mem_boxFibre.mpr ⟨hmem, ?_⟩)
  rw [reduceIndex, if_pos (by rw [List.length_zipWith, hp.corner]; rfl)]

theorem scattered_reduceVectorEvents (h : Vectorial i b c d e) (hk : i.kind = .reduction)
    [Std.Associative (I.sweep i.opcode i.outType)] [Std.Commutative (I.sweep i.opcode i.outType)]
    (hws : 1 ≤ worldsize) (hbox : ∀ p ∈ boxes, Chunked worldsize i c p)
    (htiles : Box.Tiles (boxes.map fun p => (p.1, List.zipWith (· + ·) p.1 p.2))
      (List.replicate i.operand1.shape.length 0) i.operand1.shape)
    {s : ℕ → Node V} (hs : Scattered st worldsize (fun r => (s r).mem) m) :
    Scattered st worldsize (fun r => (runEvents (reduceVectorEvents I st worldsize i b c boxes) s r).mem)
        (runWhole I i m) ∧
      ∀ r, ∀ x ∈ (runEvents (reduceVectorEvents I st worldsize i b c boxes) s r).receipts,
        x ∈ (s r).receipts ∨ x.Matched := by
  have hcol : Collected I st i (masterTmp st worldsize c.type) (masterRank worldsize i b) m 0 boxes s _ :=
    collected_vectorEvents h hk (show (masterTmp st worldsize c.type).addr = _ from rfl) rfl
      (fun p hp => ⟨⟨(hbox p hp).corner, (hbox p hp).lengths⟩, (hbox p hp).onIn⟩) hs 0
  obtain ⟨s', hs'⟩ : ∃ s', s' = runEvents (vectorEvents I st worldsize i c (masterTmp st worldsize c.type)
    (masterRank worldsize i b) 0 boxes) s := ⟨_, rfl⟩
  rw [← hs'] at hcol
  obtain ⟨j, hj⟩ : ∃ j, j = finalInst st worldsize i b c boxes.length := ⟨_, rfl⟩
  have hrun : runEvents (reduceVectorEvents I st worldsize i b c boxes) s =
      Function.update s' (masterRank worldsize i b) (execInst I j (s' (masterRank worldsize i b))) := by
    rw [reduceVectorEvents, runEvents_append, ← hs', ← hj]
    simp only [runEvents, releaseAt, List.foldl_cons, List.foldl_nil, Event.run, execInst,
      runWhole_onBaseInst (rfl : bhOpcodeIsSystem .free = true),
      runWhole_onBaseInst (rfl : bhOpcodeIsSystem .discard = true), Function.update_eq_self]
  have hframe : Scattered st worldsize (fun r => (s' r).mem) m := by
    intro b' r k hr hk
    rw [← hs b' r k hr hk]
    exact hcol.frame _ _ fun q k => (st.chunk_ne_local _ _ _).symm
  -- the place of the output on the master
  have hbounds := offset_bounds h.outInBase h.output (show List.Forall₂ (· < ·) [0] i.operand0.shape by
    rw [h.shape_output]; exact List.Forall₂.cons Nat.one_pos List.Forall₂.nil)
  obtain ⟨rank, start, hloc, hlt, hstart, h0, hend⟩ := locate_spec hws hbounds.1 hbounds.2
  have hrank : masterRank worldsize i b = rank := by rw [masterRank, hloc]
  have hout : (masterOut st worldsize i b).offset [0] = start := by
    rw [BhView.offset, masterOut, hloc]
    simp [dot]
  have hdot : dot i.operand0.dims [0] = 0 := by
    rw [h.scalar]
    simp [dot]
  have hvalue := @runWhole_finalInst V I st worldsize i b c d e boxes m _ _ h hk
    (fun p hp => (hbox p hp).length_eq) (fun p hp => (hbox p hp).boxFibre_ne_nil) htiles (s' rank).mem (by
      intro k p hp
      have hdata := hcol.data k p hp
      rwa [hrank, Nat.zero_add] at hdata)
  rw [hrank, hout, ← hj] at hvalue
  have hstores : runWhole I j (s' rank).mem = applyStores ((indices [1]).map fun idx =>
      ((arrayGetLocal st ⟨worldsize, rank⟩ b, start + dot i.operand0.dims idx),
        runWhole I j (s' rank).mem (arrayGetLocal st ⟨worldsize, rank⟩ b, start))) (s' rank).mem := by
    have hjk : j.kind = .reduction := by rw [hj]; exact hk
    have hone : ∀ f : List ℕ → V, storesTo (masterOut st worldsize i b) f =
        [((arrayGetLocal st ⟨worldsize, rank⟩ b, start), f [0])] := by
      intro f
      rw [← hout, ← hrank]
      rfl
    have hjout : j.operand0 = masterOut st worldsize i b := by rw [hj]; rfl
    rw [runWhole_reduction hjk, hjout, hone, indices_one, List.map_singleton, hdot, add_zero]
    simp [applyStores]
  have hglobal : runWhole I i m = applyStores ((indices [1]).map fun idx =>
      ((b, i.operand0.offset (List.zipWith (· + ·) [0] idx)),
        I.reduce i.opcode i.outType ((i.fibre [0]).map fun idx => load I i.constant i.operand1 idx m))) m := by
    rw [runWhole_reduction hk, storesTo, h.output, h.shape_output, indices_one]
    rfl
  have hmems : (fun r => (runEvents (reduceVectorEvents I st worldsize i b c boxes) s r).mem) =
      Function.update (fun r => (s' r).mem) rank (runWhole I j (s' rank).mem) := by
    rw [hrun, hrank]
    exact mem_update_execInst I j s' rank
  refine ⟨?_, fun r x hx => ?_⟩
  · rw [hmems, hglobal, hstores]
    refine hframe.store hlt (fun idx hidx => ?_) fun idx _ => hvalue
    rw [indices_one, List.mem_singleton] at hidx
    subst hidx
    rw [hdot, add_zero]
    exact ⟨⟨h0, hend⟩, hstart⟩
  · rw [hrun, hrank] at hx
    refine hcol.receipts r x ?_
    by_cases hr : r = rank
    · subst hr
      rw [Function.update_self] at hx
      exact hx
    · rwa [Function.update_of_ne hr] at hx

/-- Every process finds the same boxes, at least one and not more than there are processes. -/
theorem exists_chunks (hws : 1 ≤ worldsize) (h : Vectorial i b c d e) :
    ∃ boxes : List (List ℕ × List ℕ), (∀ p ∈ boxes, Chunked worldsize i c p) ∧ boxes ≠ [] ∧
      boxes.length ≤ worldsize ∧
      Box.Tiles (boxes.map fun p => (p.1, List.zipWith (· + ·) p.1 p.2))
        (List.replicate i.operand1.shape.length 0) i.operand1.shape ∧
      ∀ st r, mappingChunks st ⟨worldsize, r⟩ (reduceOperands i) =
        some (boxes.map fun p => chunksAt st ⟨worldsize, r⟩ (reduceOperands i) p.1 p.2) := by
  have hshape : (bcastOut i.operand0 i.operand1).shape = i.operand1.shape := by
    rw [h.bcastOut_eq, h.shape_input]
    rfl
  obtain ⟨boxes, hboxes, hmap⟩ := mappingChunks_eq hws h.mappable
  rw [hshape] at hboxes
  have hlen : ∀ p ∈ boxes, p.1.length = 1 ∧ p.2.length = 1 := by
    intro p hp
    have hp := hboxes.length p hp
    rwa [List.length_replicate, h.shape_input] at hp
  have hpos : 0 < d.shape := h.positive d.shape (by rw [h.shape_input]; exact List.mem_singleton_self _)
  refine ⟨boxes, fun p hp => ⟨(hlen p hp).1, (hlen p hp).2, ?_, ?_⟩, ?_, ?_, hboxes.tiles, ?_⟩
  · exact one_le_of_forall₂_lt ((hlen p hp).1.trans (hlen p hp).2.symm)
      (hboxes.tiles.nonempty _ (List.mem_map_of_mem hp))
  · exact hboxes.onRank p hp _ (List.mem_cons_of_mem _ List.mem_cons_self) c h.input
  · rintro rfl
    have hmem : [0] ∈ indices i.operand1.shape := by
      rw [h.shape_input]
      exact mem_indices.mpr (List.Forall₂.cons hpos List.Forall₂.nil)
    have hno := (mem_flatMap_boxIndices (fun p hp => (hlen p hp).1.trans (hlen p hp).2.symm) hboxes.tiles).mpr hmem
    cases hno
  · have hget := hmap plainStores 0
    rw [mappingChunks, List.headD_cons, hshape, h.shape_input] at hget
    have hcount := length_getChunks hws h _ 0 _ hpos hget
    rw [List.length_map] at hcount
    omega
  · intro st r
    rw [h.reduceOperands_eq]
    exact hmap st r

/-- The tasks of a process and the number of results it counts. -/
theorem vectorPasses_eq (h : Vectorial i b c d e) (hbox : ∀ p ∈ boxes, Chunked worldsize i c p) (hne : boxes ≠ [])
    (st : Stores) (r : ℕ) :
    vectorPasses st ⟨worldsize, r⟩ i (boxes.map fun p => chunksAt st ⟨worldsize, r⟩ (reduceOperands i) p.1 p.2) =
      ((vectorLoop st r i (masterTmp st worldsize c.type) (masterRank worldsize i b) 0
          (boxes.map fun p => chunksAt st ⟨worldsize, r⟩ (reduceOperands i) p.1 p.2)).1 ++
        (if r = masterRank worldsize i b then
          .inst (finalInst st worldsize i b c boxes.length) :: release (masterTmp st worldsize c.type) else []),
        if r = masterRank worldsize i b then boxes.length else 0) := by
  obtain ⟨p, ps, rfl⟩ := List.exists_cons_of_ne_nil hne
  have hp := hbox p List.mem_cons_self
  obtain ⟨oc, hoc⟩ : ∃ oc, oc = chunkOf st ⟨worldsize, r⟩ p.1 p.2 0 (bcastOut i.operand0 i.operand1) b := ⟨_, rfl⟩
  have hrank : oc.rank = masterRank worldsize i b := by
    rw [hoc, rank_chunkOf, h.offset_bcastOut]
    rfl
  have hmaster : vectorMaster st worldsize i
      ((p :: ps).map fun p => chunksAt st ⟨worldsize, r⟩ (reduceOperands i) p.1 p.2) =
        some (oc, masterTmp st worldsize c.type) := by
    rw [List.map_cons, chunksAt_vector h, ← hoc]
    simp only [vectorMaster, h.input]
  have hview : r = masterRank worldsize i b → scalarOut oc.ary = masterOut st worldsize i b := by
    intro hr
    have hown : rankAt worldsize p.1 (bcastOut i.operand0 i.operand1) b = r := by
      rw [rankAt_bcastOut h, hr]
    obtain ⟨n, hn⟩ := List.length_eq_one_iff.mp hp.lengths
    rw [hoc, chunkOf_rankAt hown, hn, localView, h.bcastOut_eq, masterOut, ← hr, startAt]
    have hoff := h.offset_bcastOut p.1
    rw [h.bcastOut_eq] at hoff
    rw [hoff]
    rfl
  have hcount := @vectorLoop_count st worldsize i b c (masterTmp st worldsize c.type)
    (masterRank worldsize i b) d e h r 0 (p :: ps)
  rw [Nat.zero_add] at hcount
  rw [vectorPasses, hmaster]
  dsimp only
  rw [hrank]
  generalize vectorLoop st r i (masterTmp st worldsize c.type) (masterRank worldsize i b) 0
    ((p :: ps).map fun p => chunksAt st ⟨worldsize, r⟩ (reduceOperands i) p.1 p.2) = loop at hcount ⊢
  obtain ⟨tasks, count⟩ := loop
  dsimp only at hcount ⊢
  rw [hcount]
  by_cases hr : r = masterRank worldsize i b
  · rw [if_pos hr, if_pos hr, if_pos ⟨hr, by simp⟩, hview hr]
    rfl
  · rw [if_neg hr, if_neg hr, if_neg fun hand => hr hand.1]

/-- What `ufunc_reduce` comes to on all processes for a vector. -/
theorem exists_vector (st : Stores) (hws : 1 ≤ worldsize) (h : Vectorial i b c d e) {operation : BhOpcode}
    (hop : reduceOperation i.opcode = some operation) (hC : Combines I i.opcode operation b.type) :
    ∃ tasks events, (∀ r, ufuncReduce st ⟨worldsize, r⟩ i operation = some (tasks r)) ∧
      Performs I st worldsize tasks events (runWhole I i) := by
  obtain ⟨hk, _, _⟩ := kind_of_reduceOperation hop
  have hnot : i.opcode ≠ .discard := by
    intro heq
    rw [heq] at hk
    exact absurd hk (by decide)
  have htype : i.outType = some b.type := by rw [BhInstruction.outType, h.output]; rfl
  have hassoc : Std.Associative (I.sweep i.opcode i.outType) := htype ▸ hC.assoc
  have hcomm : Std.Commutative (I.sweep i.opcode i.outType) := htype ▸ hC.comm
  have hndim : i.operand1.ndim = 1 := by rw [BhView.ndim, h.vector]; rfl
  obtain ⟨boxes, hbox, hne, hcount, htiles, hmap⟩ := exists_chunks hws h
  have hinRank : ∀ p ∈ boxes, inRank worldsize i c p < worldsize := by
    intro p hp
    obtain ⟨rank, start, hloc, hlt, _⟩ := (hbox p hp).onIn
    rw [inRank, rankAt, hloc]
    exact hlt
  have hmaster : masterRank worldsize i b < worldsize := by
    have hbounds := offset_bounds h.outInBase h.output (show List.Forall₂ (· < ·) [0] i.operand0.shape by
      rw [h.shape_output]; exact List.Forall₂.cons Nat.one_pos List.Forall₂.nil)
    obtain ⟨rank, start, hloc, hlt, _⟩ := locate_spec hws hbounds.1 hbounds.2
    rw [masterRank, hloc]
    exact hlt
  refine ⟨fun r => (vectorPasses st ⟨worldsize, r⟩ i
      (boxes.map fun p => chunksAt st ⟨worldsize, r⟩ (reduceOperands i) p.1 p.2)).1,
    reduceVectorEvents I st worldsize i b c boxes, fun r => ?_, fun r => ?_, ?_, ?_⟩
  · dsimp only
    rw [ufuncReduce, hmap st r, Option.map_some, if_pos hndim, vectorPasses_eq h hbox hne]
    have hloop := @discards_vectorLoop st worldsize i b c (masterTmp st worldsize c.type)
      (masterRank worldsize i b) d e h hnot _ (pairwise_corner htiles) r 0
    have hlast : Discards (· = st.ofChunk [] 0) (if r = masterRank worldsize i b then
        Task.inst (finalInst st worldsize i b c boxes.length) :: release (masterTmp st worldsize c.type) else []) := by
      split_ifs
      · apply Discards.cons_of_not
        · exact Discards.release rfl
        · simpa [Task.isDiscard, finalInst, reduceChunk] using hnot
      · exact Discards.nil
    have hall := hloop.append hlast (by
      rintro a ⟨p, _, rfl⟩ heq
      have := (st.chunk_inj _ _ _ _ heq).2
      omega)
    exact congrArg some (@foldl_batchSchedule [] _ hall.1)
  · rw [reduceVectorEvents, List.flatMap_append, List.flatMap_cons, project_releaseAt]
    by_cases hr : r < worldsize
    · rw [if_pos hr, vectorPasses_eq h hbox hne, List.map_append, map_vectorLoop h (fun _ => (rfl : 0 = 0))]
      congr 1
      by_cases hw : r = masterRank worldsize i b
      · rw [if_pos hw, if_pos hw.symm, Event.project, if_pos hw.symm]
        rfl
      · rw [if_neg hw, if_neg (Ne.symm hw), Event.project, if_neg (Ne.symm hw)]
        rfl
    · have hw : r ≠ masterRank worldsize i b := by omega
      rw [if_neg hr, if_neg (Ne.symm hw), Event.project, if_neg (Ne.symm hw), project_vectorEvents_eq_nil hw fun p hp => by
        have := hinRank p hp
        omega]
      rfl
  · intro x hx
    rcases List.mem_append.mp hx with hx | hx
    · exact proper_vectorEvents boxes 0 x hx
    · simp only [releaseAt, List.mem_cons, List.not_mem_nil, or_false] at hx
      rcases hx with rfl | rfl | rfl
      · trivial
      · trivial
      · trivial
  · intro s m hs
    exact scattered_reduceVectorEvents h hk hws hbox htiles hs

end Final

end Bohrium.Cluster
