import Bohrium.Cpu.Coverage

/-! # The pointers of the walkers

At each visit an operand pointer is at the element of the visited index, and where a partial reduction is
written it is at the element of the index without the axis. -/
namespace Bohrium.Cpu
open Engine Strided Walk
set_option autoImplicit false

/-! ## Strides of a layout -/

theorem consecutiveLoop_snd {inner : ℤ} {dims : List Dim} (h : (consecutiveLoop inner dims).1 = true) :
    (consecutiveLoop inner dims).2 = inner * (dims.map Dim.shape).prod := by
  induction dims with
  | nil => simp [consecutiveLoop]
  | cons d ds ih =>
    simp only [consecutiveLoop, List.foldr_cons, Bool.and_eq_true, beq_iff_eq] at h ⊢
    have hnext := ih h.1
    simp only [consecutiveLoop] at hnext
    rw [h.2, hnext, List.map_cons, List.prod_cons]
    push_cast
    ring

/-- In a consecutive layout elements are apart by multiples of the innermost stride. -/
theorem dot_consecutive {inner : ℤ} {dims : List Dim} {idx : List ℕ} (h : (consecutiveLoop inner dims).1 = true)
    (hlen : idx.length = dims.length) : dot dims idx = inner * flatIndex (dims.map Dim.shape) idx := by
  induction dims generalizing idx with
  | nil =>
    rw [List.length_eq_zero_iff.mp hlen]
    simp [dot, flatIndex]
  | cons d ds ih =>
    cases idx with
    | nil => cases hlen
    | cons i idx =>
      have hcons : (consecutiveLoop inner ds).1 = true ∧ d.stride = (consecutiveLoop inner ds).2 := by
        simpa only [consecutiveLoop, List.foldr_cons, Bool.and_eq_true, beq_iff_eq] using h
      rw [dot, ih hcons.1 (Nat.succ.inj hlen), hcons.2, consecutiveLoop_snd hcons.1, List.map_cons, flatIndex]
      push_cast
      ring

theorem strideAt_last (o : Opd) : o.strideAt (o.dims.length - 1) = (o.dims.getLast?.map Dim.stride).getD 0 := by
  unfold Opd.strideAt
  rw [List.getLast?_eq_getElem?]

section Strides
variable {S : List ℕ} {o : Opd}

theorem Full.length (h : Full S o) : o.dims.length = S.length := by
  rw [← h.1]
  simp [Opd.shape]

theorem determineLayout_consecutive {dims : List Dim}
    (h : determineLayout dims = .contiguous ∨ determineLayout dims = .consecutive) :
    (consecutiveLoop ((dims.getLast?.map Dim.stride).getD 0) dims).1 = true ∧
      (determineLayout dims = .contiguous → (dims.getLast?.map Dim.stride).getD 0 = 1) := by
  revert h
  unfold determineLayout
  simp only
  generalize (dims.getLast?.map Dim.stride).getD 0 = inner
  by_cases hc : (consecutiveLoop inner dims).1 = true
  · split_ifs <;> simp_all
  · intro h
    split_ifs at h <;> simp_all

/-- The displacement in an array that is contiguous or consecutive. -/
theorem Full.dot_flat (h : Full S o) (hl : o.layout = .contiguous ∨ o.layout = .consecutive) {idx : List ℕ}
    (hidx : idx.length = S.length) : dot o.dims idx = o.strideAt (S.length - 1) * flatIndex S idx := by
  rw [h.2] at hl
  rw [dot_consecutive (determineLayout_consecutive hl).1 (hidx.trans h.length.symm), ← strideAt_last, h.length, ← h.1]
  rfl

theorem Full.strideAt_contiguous (h : Full S o) (hl : o.layout = .contiguous) : o.strideAt (S.length - 1) = 1 := by
  have hl' : determineLayout o.dims = .contiguous := h.2.symm.trans hl
  rw [← h.length, strideAt_last]
  exact (determineLayout_consecutive (Or.inl hl')).2 hl'

theorem moves_cases (hm : o.moves = true) : o.layout = .contiguous ∨ o.layout = .consecutive ∨ o.layout = .strided := by
  unfold Opd.moves at hm
  revert hm
  cases o.layout <;> simp

/-- A step of the inner loop is a step along the innermost dimension. -/
theorem Full.innerStep_eq (h : Full S o) (hm : o.moves = true) :
    innerStep o (S.length - 1) = o.strideAt (S.length - 1) := by
  unfold innerStep
  obtain hl | hl | hl := moves_cases hm
  · rw [hl, h.strideAt_contiguous hl]
  · rw [hl]
  · rw [hl]

theorem Full.collapsedOffset_eq (h : Full S o) (hl : o.layout = .contiguous ∨ o.layout = .consecutive) (w : ℕ) :
    collapsedOffset o (S.length - 1) w = w * o.strideAt (S.length - 1) := by
  unfold collapsedOffset
  obtain hl | hl := hl
  · rw [hl, h.strideAt_contiguous hl]
    simp
  · rw [hl]

/-- In two dimensions, a row and the outer step after it are a step along the outer dimension. -/
theorem Full.outerStep_eq {n c : ℕ} (h : Full [n, c] o) (hm : o.moves = true) :
    c * o.strideAt 1 + outerStep2d o c = o.strideAt 0 := by
  have hlen : o.dims.length = 2 := h.length
  unfold outerStep2d
  rw [if_pos hlen]
  obtain hl | hl | hl := moves_cases hm
  · have hrow : dot o.dims [1, 0] = _ := h.dot_flat (Or.inl hl) rfl
    have hone : o.strideAt 1 = 1 := h.strideAt_contiguous hl
    obtain ⟨d, e, hd⟩ := List.length_eq_two.mp hlen
    have hlast : o.strideAt ([n, c].length - 1) = 1 := hone
    rw [hlast, hd] at hrow
    simp only [hl, hone]
    simp only [Opd.strideAt, hd]
    simp [dot, flatIndex] at hrow ⊢
    omega
  · simp only [hl]
    ring
  · simp only [hl]
    ring

end Strides

/-! ## The operands of a kernel -/

section Operands
variable {b : Block} {S : List ℕ} {k : ℕ} {tac : Tac}

theorem globals_of_moves (h : (b.globals k).moves = true) : b.globals k = b.symbols k := by
  obtain ⟨hstart, hdims⟩ := globals_rest b k
  obtain hl | ⟨_, hl⟩ := globals_layout b k
  · cases hg : b.globals k
    cases hs : b.symbols k
    simp_all
  · rw [hl] at h
    cases h

theorem FitsTac.inner (h : FitsTac b S tac) (hk : k ∈ innerOpds tac) : Full S (b.symbols k) ∨ Single (b.symbols k) := by
  cases h with
  | ewise hop hall =>
    rw [(operandsOf_ewise hop).1] at hk
    exact hall k hk
  | complete hop hS hin hout =>
    simp only [innerOpds, hop, List.mem_singleton] at hk
    rw [hk]
    exact Or.inl hin
  | axis hop hrank haxis hin hout hne =>
    simp only [innerOpds, hop, List.mem_singleton] at hk
    rw [hk]
    exact Or.inl hin
  | other hop hne =>
    unfold innerOpds at hk
    revert hop hk
    cases tac.op <;> simp [isArrayOp]

theorem Single.not_moves {o : Opd} (h : Single o) : o.moves = false := by
  unfold Opd.moves
  obtain hl | ⟨hl, _⟩ := h.layout <;> rw [hl]

/-- An inner operand with a pointer that moves is an array over the space. -/
theorem Fits.full (h : Fits b S) (htac : tac ∈ b.tacs) (hk : k ∈ innerOpds tac) (hm : (b.globals k).moves = true) :
    Full S (b.globals k) := by
  have hg := globals_of_moves hm
  rw [hg] at hm ⊢
  obtain hf | hs := (h.tacs tac htac).inner hk
  · exact hf
  · rw [hs.not_moves] at hm
    cases hm

theorem innerOpds_subset (tac : Tac) (h : isArrayOp tac.op = false ∨ isEwise tac.op = true ∨ isReduction tac.op = true) :
    ∀ k ∈ innerOpds tac, k ∈ outerOpds tac := by
  unfold innerOpds outerOpds
  revert h
  cases tac.op <;> simp [isArrayOp, isEwise, isReduction]

theorem FitsTac.op_cases (h : FitsTac b S tac) :
    isArrayOp tac.op = false ∨ isEwise tac.op = true ∨ isReduction tac.op = true := by
  cases h with
  | ewise hop hall => exact Or.inr (Or.inl hop)
  | complete hop hS hin hout => exact Or.inr (Or.inr (by rw [hop]; rfl))
  | axis hop hrank haxis hin hout hne => exact Or.inr (Or.inr (by rw [hop]; rfl))
  | other hop hne => exact Or.inl hop

theorem isInner_of_mem (htac : tac ∈ b.tacs) (hk : k ∈ innerOpds tac) : b.isInner k = true := by
  unfold Block.isInner
  simp only [List.any_eq_true, List.contains_iff_mem]
  exact ⟨tac, htac, hk⟩

theorem isOuter_of_mem (htac : tac ∈ b.tacs) (hk : k ∈ outerOpds tac) : b.isOuter k = true := by
  unfold Block.isOuter
  simp only [List.any_eq_true, List.contains_iff_mem]
  exact ⟨tac, htac, hk⟩

theorem Fits.isOuter (h : Fits b S) (htac : tac ∈ b.tacs) (hk : k ∈ innerOpds tac) : b.isOuter k = true :=
  isOuter_of_mem htac (innerOpds_subset tac (h.tacs tac htac).op_cases k hk)

/-- An operand that is an array over another space of the same kernel is not stepped by the inner loop. -/
theorem Fits.not_isInner {T : List ℕ} (h : Fits b S) (hk : Full T (b.symbols k)) (hT : T.prod ≠ 1)
    (hlen : T.length ≠ S.length) : b.isInner k = false := by
  unfold Block.isInner
  rw [List.any_eq_false]
  intro tac htac hmem
  rw [List.contains_iff_mem] at hmem
  obtain hf | hs := (h.tacs tac htac).inner hmem
  · exact hlen (hk.length.symm.trans hf.length)
  · have hstill := hs.not_moves
    rw [(hk.moves hT).1] at hstill
    cases hstill

end Operands

/-! ## Visits -/

/-- The pointer of an operand at a visit: at the element of the visited index, and at its only element for
what is not an array. -/
def At (b : Block) (v : Visit) (k : ℕ) : Prop :=
  v.walker k = (b.globals k).start + if (b.globals k).moves then dot (b.globals k).dims v.index else 0

theorem innerStep_still {o : Opd} (h : o.moves = false) (d : ℕ) : innerStep o d = 0 := by
  unfold innerStep
  unfold Opd.moves at h
  revert h
  cases o.layout <;> simp

theorem collapsedOffset_still {o : Opd} (h : o.moves = false) (d w : ℕ) : collapsedOffset o d w = 0 := by
  unfold collapsedOffset
  unfold Opd.moves at h
  revert h
  cases o.layout <;> simp

theorem outerStep2d_still {o : Opd} (h : o.moves = false) (c : ℕ) : outerStep2d o c = 0 := by
  unfold outerStep2d
  split
  · unfold Opd.moves at h
    revert h
    cases o.layout <;> simp
  · simp [h]

theorem stepInner_iterate (b : Block) (d j : ℕ) (p : ℕ → ℤ) (k : ℕ) :
    ((b.stepInner d)^[j]) p k = p k + j * (if b.isInner k then innerStep (b.globals k) d else 0) :=
  iterate_add (fun k => if b.isInner k then innerStep (b.globals k) d else 0) (fun _ _ => rfl) j p k

theorem stepAxis_iterate (b : Block) (j : ℕ) (p : ℕ → ℤ) (k : ℕ) :
    (b.stepAxis^[j]) p k =
      p k + j * (if b.isInner k && (b.globals k).moves then (b.globals k).strideAt b.axis else 0) :=
  iterate_add (fun k => if b.isInner k && (b.globals k).moves then (b.globals k).strideAt b.axis else 0)
    (fun _ _ => rfl) j p k

section Visits
variable {b : Block} {S : List ℕ} {k : ℕ} {tac : Tac}

theorem Fits.shape (h : Fits b S) (hS : S.prod ≠ 1) : b.iterspace.shape = S := by
  have hspace := h.iterspace.1
  unfold Space at hspace
  rw [if_neg hS] at hspace
  exact hspace.1

/-- Beside a collapsible space there are no strided operands. -/
theorem Fits.flat (h : Fits b S) (hcol : collapsible b.iterspace.layout = true) (htac : tac ∈ b.tacs)
    (hk : k ∈ innerOpds tac) (hm : (b.globals k).moves = true) :
    (b.globals k).layout = .contiguous ∨ (b.globals k).layout = .consecutive := by
  have hle := h.iterspace.2 tac htac k (innerOpds_subset tac (h.tacs tac htac).op_cases k hk)
  obtain hl | hl | hl := moves_cases hm
  · exact Or.inl hl
  · exact Or.inr hl
  · rw [hl, code_strided] at hle
    revert hle hcol
    cases b.iterspace.layout <;> simp [collapsible]

/-- A collapsed walker, for an operand that is an array over the space or does not move. -/
theorem collapsedWorker_at (hshape : b.iterspace.shape = S) (hin : b.isInner k = true)
    (hk : (b.globals k).moves = true → Full S (b.globals k) ∧
      ((b.globals k).layout = .contiguous ∨ (b.globals k).layout = .consecutive))
    {offset work : ℕ} (hwork : offset + work ≤ S.prod) {v : Visit} (hv : v ∈ b.collapsedWorker offset work) : At b v k := by
  unfold Block.collapsedWorker at hv
  simp only [List.mem_map, List.mem_range, hshape] at hv
  obtain ⟨j, hj, rfl⟩ := hv
  unfold At
  simp only [stepInner_iterate, hin, if_true, Block.first]
  by_cases hm : (b.globals k).moves = true
  · obtain ⟨hf, hl⟩ := hk hm
    rw [if_pos hm, hf.collapsedOffset_eq hl, hf.innerStep_eq hm, hf.dot_flat hl (length_coords _ _),
      flatIndex_coords (by omega)]
    push_cast
    ring
  · rw [Bool.not_eq_true] at hm
    rw [collapsedOffset_still hm, innerStep_still hm, hm]
    simp

/-- The pointers of the walker over two dimensions at the beginning of a row. -/
theorem pointers2d_eq (b : Block) (offset c k : ℕ) :
    b.pointers2d offset c k = b.first k + (if (b.globals k).moves then offset * (b.globals k).strideAt 0 else 0) +
      c * (b.iterspace.shape.getLastD 1 * (if b.isInner k then innerStep (b.globals k) 1 else 0) +
        (if b.isOuter k then outerStep2d (b.globals k) (b.iterspace.shape.getLastD 1) else 0)) := by
  unfold Block.pointers2d
  rw [iterate_add (fun k => b.iterspace.shape.getLastD 1 * (if b.isInner k then innerStep (b.globals k) 1 else 0) +
    (if b.isOuter k then outerStep2d (b.globals k) (b.iterspace.shape.getLastD 1) else 0))]
  intro p k
  rw [stepInner_iterate]
  ring

theorem Fits.row2d (h : Fits b S) (hS : S.prod ≠ 1) {n c : ℕ} (hrank : S = [n, c]) (htac : tac ∈ b.tacs)
    (hk : k ∈ innerOpds tac) (offset r : ℕ) :
    b.pointers2d offset r k = (b.globals k).start +
      if (b.globals k).moves then dot (b.globals k).dims [offset + r, 0] else 0 := by
  rw [pointers2d_eq, h.shape hS, hrank, isInner_of_mem htac hk, h.isOuter htac hk]
  have hlast : [n, c].getLastD 1 = c := rfl
  simp only [if_true, Block.first, hlast]
  by_cases hm : (b.globals k).moves = true
  · have hf := h.full htac hk hm
    have hstep := hf.innerStep_eq hm
    rw [hrank] at hf hstep
    have hinner : innerStep (b.globals k) 1 = (b.globals k).strideAt 1 := hstep
    rw [if_pos hm, if_pos hm, hinner, hf.outerStep_eq hm, dot_eq_sum, hf.length]
    simp [List.range_succ, Opd.strideAt]
    ring
  · rw [Bool.not_eq_true] at hm
    rw [innerStep_still hm, outerStep2d_still hm, hm]
    simp

/-- The pointers of the walker over any number of dimensions at the beginning of a row. -/
theorem Fits.rowNd (h : Fits b S) (hS : S.prod ≠ 1) {S' : List ℕ} {c : ℕ} (hrank : S = S' ++ [c]) (hc : 0 < c)
    (htac : tac ∈ b.tacs) (hk : k ∈ innerOpds tac) (row : ℕ) :
    b.pointersNd (row * c) k = (b.globals k).start +
      if (b.globals k).moves then dot (b.globals k).dims (coords S' row ++ [0]) else 0 := by
  unfold Block.pointersNd
  have hcoords : coords S (row * c) = coords S' row ++ [0] := by
    rw [hrank]
    exact coords_append S' row hc
  rw [h.shape hS, h.isOuter htac hk, hcoords, Bool.true_and]
  by_cases hm : (b.globals k).moves = true
  · have hlen : (b.globals k).dims.length = S'.length + 1 := by
      rw [(h.full htac hk hm).length, hrank]
      simp
    have hrank' : S.length - 1 = S'.length := by simp [hrank]
    rw [if_pos hm, if_pos hm, dot_eq_sum, hlen, List.range_succ, List.map_append, List.sum_append, hrank']
    simp [Block.first, Opd.strideAt, length_coords]
  · rw [if_neg hm, if_neg hm]
    rfl

theorem Fits.chunk_at (h : Fits b S) (hS : S.prod ≠ 1) {S' : List ℕ} {c : ℕ} (hrank : S = S' ++ [c])
    (htac : tac ∈ b.tacs) (hk : k ∈ innerOpds tac) {row : ℕ} {p : ℕ → ℤ}
    (hp : p k = (b.globals k).start + if (b.globals k).moves then dot (b.globals k).dims (coords S' row ++ [0]) else 0)
    {v : Visit} (hv : v ∈ b.chunk (row * c) c (S.length - 1) p) : At b v k := by
  unfold Block.chunk at hv
  simp only [List.mem_map, List.mem_range, h.shape hS] at hv
  obtain ⟨i, hi, rfl⟩ := hv
  unfold At
  simp only [stepInner_iterate, isInner_of_mem htac hk, if_true, hp]
  by_cases hm : (b.globals k).moves = true
  · have hf := h.full htac hk hm
    have hstep := hf.innerStep_eq hm
    have hlen := hf.length
    rw [hrank, List.length_append, List.length_singleton] at hlen
    obtain ⟨ds, d, hd⟩ := (List.eq_nil_or_concat' (b.globals k).dims).resolve_left (by
      intro hnil
      rw [hnil] at hlen
      cases hlen)
    have hds : ds.length = S'.length := by simpa [hd] using hlen
    have hstride : (b.globals k).strideAt (S.length - 1) = d.stride := by
      unfold Opd.strideAt
      rw [hd, hrank]
      simp [← hds]
    have hcoords : coords S (row * c + i) = coords S' row ++ [i] := by
      rw [hrank]
      exact coords_append S' row hi
    have hlen' : (coords S' row).length = ds.length := by rw [length_coords, hds]
    rw [if_pos hm, if_pos hm, hstep, hstride, hcoords, hd, dot_append hlen', dot_append hlen']
    push_cast
    ring
  · rw [Bool.not_eq_true] at hm
    rw [innerStep_still hm, hm]
    simp

/-- The output of a partial reduction stays where it is during a chunk. -/
theorem Fits.row_written2d (h : Fits b S) {n c : ℕ} (hrank : S = [n, c]) (hk : k ∈ outerOpds tac)
    (htac : tac ∈ b.tacs) (hf : Full [n] (b.symbols k)) (hn : n ≠ 1) (offset r : ℕ) :
    ((b.stepInner 1)^[c]) (b.pointers2d offset r) k = (b.globals k).start +
      if (b.globals k).moves then dot (b.globals k).dims [offset + r] else 0 := by
  have hinner : b.isInner k = false := h.not_isInner hf (by simpa using hn) (by simp [hrank])
  rw [stepInner_iterate, pointers2d_eq, hinner, isOuter_of_mem htac hk]
  by_cases hm : (b.globals k).moves = true
  · have hlen : (b.globals k).dims.length = 1 := by
      rw [(globals_rest b k).2, hf.length]
      rfl
    obtain ⟨d, hd⟩ := List.length_eq_one_iff.mp hlen
    simp [outerStep2d, hm, hd, Opd.strideAt, dot, Block.first]
    ring
  · rw [Bool.not_eq_true] at hm
    simp [hm, outerStep2d_still hm, Block.first]

theorem Fits.row_writtenNd (h : Fits b S) (hS : S.prod ≠ 1) {S' : List ℕ} {c : ℕ} (hrank : S = S' ++ [c]) (hc : 0 < c)
    (hk : k ∈ outerOpds tac) (htac : tac ∈ b.tacs) (hf : Full S' (b.symbols k)) (hS' : S'.prod ≠ 1) (row : ℕ) :
    ((b.stepInner (S.length - 1))^[c]) (b.pointersNd (row * c)) k = (b.globals k).start +
      if (b.globals k).moves then dot (b.globals k).dims (coords S' row) else 0 := by
  have hinner : b.isInner k = false := h.not_isInner hf hS' (by simp [hrank])
  rw [stepInner_iterate, hinner]
  unfold Block.pointersNd
  have hcoords : coords S (row * c) = coords S' row ++ [0] := by
    rw [hrank]
    exact coords_append S' row hc
  rw [h.shape hS, isOuter_of_mem htac hk, hcoords, Bool.true_and]
  by_cases hm : (b.globals k).moves = true
  · have hlen : (b.globals k).dims.length = S'.length := by rw [(globals_rest b k).2, hf.length]
    have hrank' : S.length - 1 = S'.length := by simp [hrank]
    have hsame : ∀ dim ∈ List.range S'.length, (coords S' row ++ [0]).getD dim 0 = (coords S' row).getD dim 0 := by
      intro dim hdim
      rw [List.mem_range] at hdim
      have hlt : dim < (coords S' row).length := by rwa [length_coords]
      simp [List.getElem?_append_left hlt]
    rw [if_pos hm, if_pos hm, dot_eq_sum, hlen, hrank']
    simp only [Bool.false_eq_true, if_false, mul_zero, add_zero, Block.first, Opd.strideAt]
    congr 2
    apply List.map_congr_left
    intro dim hdim
    rw [hsame dim hdim]
  · rw [if_neg hm, if_neg hm]
    simp [Block.first]

theorem Fits.axis_at (h : Fits b S) (hS : S.prod ≠ 1) (haxis : b.axis < S.length) (htac : tac ∈ b.tacs)
    (hk : k ∈ innerOpds tac) (eidx aidx : ℕ) :
    At b ⟨(coords (S.eraseIdx b.axis) eidx).insertIdx b.axis aidx, eidx, (b.stepAxis^[aidx]) (b.pointersAxis eidx)⟩ k := by
  unfold At
  simp only [stepAxis_iterate, isInner_of_mem htac hk, Bool.true_and]
  unfold Block.pointersAxis
  simp only [h.shape hS, isInner_of_mem htac hk, if_true]
  by_cases hm : (b.globals k).moves = true
  · have hlen := (h.full htac hk hm).length
    have hcoords : (coords (S.eraseIdx b.axis) eidx).length = S.length - 1 := by
      rw [length_coords, List.length_eraseIdx_of_lt haxis]
    rw [if_pos hm, if_pos hm, if_pos hm, dot_insertIdx _ _ (by omega) (by omega), hlen]
    simp only [Block.first, Opd.strideAt]
    ring
  · rw [if_neg hm, if_neg hm, if_neg hm]
    simp [Block.first]

theorem Fits.axis_written (h : Fits b S) (hS : S.prod ≠ 1) (haxis : b.axis < S.length) (htac : tac ∈ b.tacs)
    (hk : k ∈ outerOpds tac) (hf : Full (S.eraseIdx b.axis) (b.symbols k)) (hne : (S.eraseIdx b.axis).prod ≠ 1)
    (eidx aidx : ℕ) : At b ⟨coords (S.eraseIdx b.axis) eidx, eidx, (b.stepAxis^[aidx]) (b.pointersAxis eidx)⟩ k := by
  have hlen : (S.eraseIdx b.axis).length = S.length - 1 := List.length_eraseIdx_of_lt haxis
  have hinner : b.isInner k = false := h.not_isInner hf hne (by omega)
  unfold At
  simp only [stepAxis_iterate, hinner, Bool.false_and, Bool.false_eq_true, if_false, mul_zero, add_zero]
  unfold Block.pointersAxis
  simp only [h.shape hS, hinner, isOuter_of_mem htac hk, Bool.false_eq_true, if_false, if_true]
  by_cases hm : (b.globals k).moves = true
  · rw [if_pos hm, if_pos hm, dot_eq_zipIdx]
    rfl
  · rw [if_neg hm, if_neg hm]
    rfl

end Visits

end Bohrium.Cpu
