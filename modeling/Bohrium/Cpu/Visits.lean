import Bohrium.Cpu.Pointers

/-! # Every index once

The visits of a walker, counted by their indices. -/
namespace Bohrium.Cpu
open Engine Strided Walk
set_option autoImplicit false

theorem nworkers_pos (n : ℕ) {mthreads : ℕ} (h : 0 < mthreads) : 0 < nworkers n mthreads := by
  unfold nworkers
  split
  · exact h
  · exact Nat.one_pos

theorem prod_div_getLastD {ns : List ℕ} (hne : ns ≠ []) (hpos : ∀ n ∈ ns, 0 < n) :
    ns.prod / ns.getLastD 1 * ns.getLastD 1 = ns.prod := by
  obtain ⟨ms, c, rfl⟩ := (List.eq_nil_or_concat' ns).resolve_left hne
  have hc : 0 < c := hpos c (by simp)
  have hlast : (ms ++ [c]).getLastD 1 = c := by simp
  rw [hlast, List.prod_append, List.prod_singleton, Nat.mul_div_cancel _ hc]

theorem eraseIdx_ne_nil {ns : List ℕ} (hrank : 2 ≤ ns.length) {k : ℕ} (hk : k < ns.length) : ns.eraseIdx k ≠ [] := by
  intro hnil
  have hlen := List.length_eraseIdx_of_lt hk
  rw [hnil, List.length_nil] at hlen
  omega

section Counting
variable {b : Block} {S : List ℕ} {mthreads : ℕ}

theorem collapsed_indices (hthreads : 0 < mthreads) :
    (b.visits mthreads .collapsed).flatten.map Visit.index = indices b.iterspace.shape := by
  unfold Block.visits Block.collapsedWorker
  simp only [← List.flatMap_def, List.map_flatMap, List.map_map, Function.comp_def]
  have hworker : ∀ o w, ((List.range w).map fun j => coords b.iterspace.shape (o + j)) = (List.range' o w).map (coords b.iterspace.shape) :=
    map_range_add _
  simp only [hworker]
  rw [← List.map_flatMap, flatMap_share _ (nworkers_pos _ hthreads), map_coords]

/-- The chunks of the workers of an inner walker. -/
theorem chunk_indices {n c : ℕ} (hthreads : 0 < mthreads) (hshape : b.iterspace.shape.prod = n * c) (d : ℕ)
    (p : ℕ → ℕ → ℕ → ℤ) :
    (((List.range (nworkers n mthreads)).map fun tid =>
      (List.range (share n (nworkers n mthreads) tid).2).flatMap fun r =>
        b.chunk (((share n (nworkers n mthreads) tid).1 + r) * c) c d (p (share n (nworkers n mthreads) tid).1 r)).flatten.map
          Visit.index) = indices b.iterspace.shape := by
  unfold Block.chunk
  simp only [← List.flatMap_def, List.map_flatMap, List.map_map, Function.comp_def, map_range_add (coords b.iterspace.shape)]
  have hrows : ∀ o w, ((List.range w).flatMap fun r => (List.range' ((o + r) * c) c).map (coords b.iterspace.shape)) =
      (List.range' (o * c) (w * c)).map (coords b.iterspace.shape) := by
    intro o w
    rw [flatMap_range_add (fun i => (List.range' (i * c) c).map (coords b.iterspace.shape)), ← List.map_flatMap,
      flatMap_range'_mul]
  simp only [hrows]
  rw [← List.map_flatMap, flatMap_share_mul _ _ (nworkers_pos _ hthreads), ← hshape, map_coords]

theorem axis_indices (hthreads : 0 < mthreads) (haxis : b.axis < b.iterspace.shape.length)
    (hpos : ∀ n ∈ b.iterspace.shape, 0 < n) (hrank : 2 ≤ b.iterspace.shape.length) :
    ((b.visits mthreads .axisNd).flatten.map Visit.index).Perm (indices b.iterspace.shape) := by
  have hprod := prod_div_getLastD (eraseIdx_ne_nil hrank haxis) (fun n hn => hpos n (List.mem_of_mem_eraseIdx hn))
  unfold Block.visits
  simp only [← List.flatMap_def, List.map_flatMap, List.map_map, Function.comp_def]
  simp only [flatMap_range_add (fun eidx => (List.range (b.iterspace.shape.getD b.axis 1)).map fun aidx =>
    (coords (b.iterspace.shape.eraseIdx b.axis) eidx).insertIdx b.axis aidx)]
  rw [← List.flatMap_assoc, flatMap_share_mul _ _ (nworkers_pos _ hthreads), hprod]
  have hperm := perm_insertIdx b.iterspace.shape haxis
  rwa [← map_coords, List.flatMap_map] at hperm

theorem axis_written_indices (hthreads : 0 < mthreads) (haxis : b.axis < b.iterspace.shape.length)
    (hpos : ∀ n ∈ b.iterspace.shape, 0 < n) (hrank : 2 ≤ b.iterspace.shape.length) :
    (b.writebacks mthreads .axisNd).flatten.map Visit.index = indices (b.iterspace.shape.eraseIdx b.axis) := by
  have hprod := prod_div_getLastD (eraseIdx_ne_nil hrank haxis) (fun n hn => hpos n (List.mem_of_mem_eraseIdx hn))
  unfold Block.writebacks
  simp only [← List.flatMap_def, List.map_flatMap, List.map_map, Function.comp_def,
    map_range_add (coords (b.iterspace.shape.eraseIdx b.axis))]
  rw [← List.map_flatMap, flatMap_share_mul _ _ (nworkers_pos _ hthreads), hprod, map_coords]

/-- The rows of the workers of an inner walker. -/
theorem row_written_indices {S' : List ℕ} {n : ℕ} (hthreads : 0 < mthreads) (hn : n = S'.prod) (c : ℕ) (p : ℕ → ℕ → ℕ → ℤ) :
    (((List.range (nworkers n mthreads)).map fun tid =>
      (List.range (share n (nworkers n mthreads) tid).2).map fun r =>
        (⟨coords S' ((share n (nworkers n mthreads) tid).1 + r), ((share n (nworkers n mthreads) tid).1 + r) * c,
          p (share n (nworkers n mthreads) tid).1 r⟩ : Visit)).flatten.map Visit.index) = indices S' := by
  simp only [← List.flatMap_def, List.map_flatMap, List.map_map, Function.comp_def, map_range_add (coords S')]
  rw [← List.map_flatMap, flatMap_share _ (nworkers_pos _ hthreads), hn, map_coords]

end Counting

/-! ## The chosen walker -/

section Chosen
variable {b : Block} {S : List ℕ} {tac : Tac}

theorem FitsTac.not_scan (h : FitsTac b S tac) : tac.op ≠ .scan ∧ tac.op ≠ .extension := by
  constructor
  · intro hs
    have hcases := h.op_cases
    rw [hs] at hcases
    simp [isArrayOp, isEwise, isReduction] at hcases
  · intro hs
    cases h with
    | ewise hop hall => simp [hs, isEwise] at hop
    | complete hop hS hin hout => simp [hs] at hop
    | axis hop hrank haxis hin hout hne => simp [hs] at hop
    | other hop hne => exact hne hs

theorem Fits.has_eq_false (h : Fits b S) : b.has .scan = false ∧ b.has .extension = false := by
  unfold Block.has
  constructor
  · rw [List.any_eq_false]
    intro tac htac
    simpa using (h.tacs tac htac).not_scan.1
  · rw [List.any_eq_false]
    intro tac htac
    simpa using (h.tacs tac htac).not_scan.2

/-- Some code works on arrays, elementwise or as a reduction. -/
theorem Fits.any_array (h : Fits b S) : (b.tacs.any fun tac => isArrayOp tac.op) = true ∧
    (b.tacs.any fun tac => isEwise tac.op || isReduction tac.op) = true := by
  obtain ⟨tac, htac, k, hk, _⟩ := h.space
  have harr : isArrayOp tac.op = true := by
    unfold innerOpds at hk
    revert hk
    cases tac.op <;> simp [isArrayOp]
  constructor
  · exact List.any_eq_true.mpr ⟨tac, htac, harr⟩
  · refine List.any_eq_true.mpr ⟨tac, htac, ?_⟩
    obtain hop | hop | hop := (h.tacs tac htac).op_cases
    · rw [harr] at hop
      cases hop
    · simp [hop]
    · simp [hop]

/-- A space of one element has no reductions. -/
theorem Fits.no_accumulation (h : Fits b S) (hS : S.prod = 1) : (b.tacs.any fun tac => isAccumulation tac.op) = false := by
  rw [List.any_eq_false]
  intro tac htac hacc
  cases h.tacs tac htac with
  | ewise hop hall =>
    revert hop hacc
    cases tac.op <;> simp [isEwise, isAccumulation]
  | complete hop hS' hin hout => exact hS' hS
  | axis hop hrank haxis hin hout hne => exact prod_ne_one_of_erase hne hS
  | other hop hne =>
    revert hop hacc
    cases tac.op <;> simp [isArrayOp, isAccumulation]

theorem Fits.template_scalar (h : Fits b S) (hS : S.prod = 1) : b.template = some .scalar := by
  have hspace := h.iterspace.1
  unfold Space at hspace
  rw [if_pos hS] at hspace
  unfold Block.template
  simp only [h.any_array.1, h.has_eq_false.2, h.no_accumulation hS, hspace.1]
  simp

/-- The axis of the kernel is that of its partial reductions. -/
theorem Fits.axis_eq (h : Fits b S) (htac : tac ∈ b.tacs) (hop : tac.op = .reducePartial) :
    b.accumulation.isSome = true ∧ b.axis = b.constant tac.in2 := by
  have hacc : isAccumulation tac.op = true := by rw [hop]; rfl
  have hsome : b.accumulation.isSome = true := by
    unfold Block.accumulation
    rw [List.find?_isSome]
    exact ⟨tac, List.mem_reverse.mpr htac, hacc⟩
  refine ⟨hsome, ?_⟩
  obtain ⟨tac', htac'⟩ := Option.isSome_iff_exists.mp hsome
  have hmem : tac' ∈ b.tacs := List.mem_reverse.mp (List.mem_of_find?_eq_some htac')
  have hred : isReduction tac'.op = true := by
    have hacc' : isAccumulation tac'.op = true := by
      unfold Block.accumulation at htac'
      simpa using List.find?_some htac'
    have hscan := (h.tacs tac' hmem).not_scan.1
    revert hacc' hscan
    cases tac'.op <;> simp [isAccumulation, isReduction]
  unfold Block.axis
  rw [htac']
  exact h.sweep tac htac hop tac' hmem hred

theorem Fits.swept (h : Fits b S) (htac : tac ∈ b.tacs) (hop : tac.op = .reducePartial) :
    2 ≤ S.length ∧ b.axis < S.length ∧ Full (S.eraseIdx b.axis) (b.symbols tac.out) ∧ (S.eraseIdx b.axis).prod ≠ 1 ∧
      tac.out ∈ outerOpds tac := by
  have haxis := (h.axis_eq htac hop).2
  cases h.tacs tac htac with
  | ewise hop' hall => simp [hop, isEwise] at hop'
  | complete hop' hS hin hout => simp [hop] at hop'
  | axis hop' hrank hlt hin hout hne =>
    rw [← haxis] at hlt hout hne
    exact ⟨hrank, hlt, hout, hne, by simp [outerOpds, hop]⟩
  | other hop' hne => simp [hop, isArrayOp] at hop'

/-- The walker of a kernel without partial reductions, over more than one element. -/
theorem Fits.template_whole (h : Fits b S) (hS : S.prod ≠ 1) (hp : b.has .reducePartial = false) :
    b.template = some (if collapsible b.iterspace.layout then .collapsed else if S.length = 2 then .inner2d else .innerNd) := by
  have hspace := h.iterspace.1
  unfold Space at hspace
  rw [if_neg hS] at hspace
  have hns : b.iterspace.layout ≠ .scalar := by
    obtain ⟨_, hl | hl | hl⟩ := hspace <;> rw [hl] <;> decide
  unfold Block.template
  simp only [h.any_array.1, h.any_array.2, h.has_eq_false.1, h.has_eq_false.2, hspace.1, if_neg hns, hp]
  split_ifs <;> simp_all

/-- The walker of a kernel over more than one element. -/
theorem Fits.template (h : Fits b S) (hS : S.prod ≠ 1) :
    (b.template = some .collapsed ∧ collapsible b.iterspace.layout = true ∧ b.has .reducePartial = false) ∨
      ((b.template = some .inner2d ∧ S.length = 2 ∨ b.template = some .innerNd) ∧
        (b.has .reducePartial = true → b.axis + 1 = S.length)) ∨
      (b.template = some .axisNd ∧ b.has .reducePartial = true) := by
  by_cases hp : b.has .reducePartial = true
  · have hspace := h.iterspace.1
    unfold Space at hspace
    rw [if_neg hS] at hspace
    have hns : b.iterspace.layout ≠ .scalar := by
      obtain ⟨_, hl | hl | hl⟩ := hspace <;> rw [hl] <;> decide
    unfold Block.template
    simp only [h.any_array.1, h.any_array.2, h.has_eq_false.1, h.has_eq_false.2, hspace.1, if_neg hns]
    obtain ⟨tac, htac, hop⟩ := List.any_eq_true.mp hp
    rw [decide_eq_true_eq] at hop
    obtain ⟨hsome, _⟩ := h.axis_eq htac hop
    obtain ⟨hrank, _, _⟩ := h.swept htac hop
    have hany : (b.tacs.any fun tac => isEwise tac.op || decide (tac.op = .reducePartial)) = true :=
      List.any_eq_true.mpr ⟨tac, htac, by simp [hop]⟩
    have hrank' : 1 < S.length := hrank
    by_cases hin : b.axis + 1 = S.length
    · by_cases h2 : S.length = 2
      · simp [hp, hsome, hin, h2]
      · simp [hp, hsome, hrank', hin, h2]
    · simp [hp, hsome, hrank', hin, hany]
  · rw [Bool.not_eq_true] at hp
    rw [h.template_whole hS hp]
    by_cases hc : collapsible b.iterspace.layout = true
    · simp [hp, hc]
    · by_cases h2 : S.length = 2
      · simp [hp, hc, h2]
      · simp [hp, hc, h2]

/-- What a walker has to do: visit every index of the space once, with the pointers of the operands at its
elements, and write every element of a partial reduction once, with the pointer at it. -/
structure Covered (b : Block) (S : List ℕ) (visits writebacks : List (List Visit)) : Prop where
  once : (visits.flatten.map Visit.index).Perm (indices b.iterspace.shape)
  at_index : ∀ v ∈ visits.flatten, ∀ tac ∈ b.tacs, ∀ k ∈ innerOpds tac, At b v k
  written : ∀ tac ∈ b.tacs, tac.op = .reducePartial →
    (writebacks.flatten.map Visit.index).Perm (indices (S.eraseIdx (b.constant tac.in2))) ∧
      ∀ v ∈ writebacks.flatten, At b v tac.out

theorem has_of_mem (htac : tac ∈ b.tacs) (hop : tac.op = .reducePartial) : b.has .reducePartial = true :=
  List.any_eq_true.mpr ⟨tac, htac, by simp [hop]⟩

variable {mthreads : ℕ}

theorem Fits.covered_scalar (h : Fits b S) (hS : S.prod = 1) :
    Covered b S (b.visits mthreads .scalar) (b.writebacks mthreads .scalar) := by
  have hspace := h.iterspace.1
  unfold Space at hspace
  rw [if_pos hS] at hspace
  constructor
  · have hone := map_coords b.iterspace.shape
    rw [hspace.2] at hone
    rw [← hone]
    exact List.Perm.refl _
  · intro v hv tac htac k hk
    simp only [Block.visits, List.flatten_singleton, List.mem_singleton] at hv
    rw [hv]
    have hstill : (b.globals k).moves = false := by
      by_contra hm
      rw [Bool.not_eq_false] at hm
      have hl := (h.full htac hk hm).scalar hS
      unfold Opd.moves at hm
      rw [hl] at hm
      cases hm
    simp [At, hstill, Block.first]
  · intro tac htac hop
    obtain ⟨_, _, _, hne, _⟩ := h.swept htac hop
    exact absurd hS (prod_ne_one_of_erase hne)

theorem Fits.covered_collapsed (h : Fits b S) (hS : S.prod ≠ 1) (hthreads : 0 < mthreads)
    (hcol : collapsible b.iterspace.layout = true) (hp : b.has .reducePartial = false) :
    Covered b S (b.visits mthreads .collapsed) (b.writebacks mthreads .collapsed) := by
  constructor
  · exact List.Perm.of_eq (collapsed_indices hthreads)
  · intro v hv tac htac k hk
    simp only [Block.visits, List.mem_flatten, List.mem_map, List.mem_range] at hv
    obtain ⟨_, ⟨tid, htid, rfl⟩, hv⟩ := hv
    have hle := share_le b.iterspace.shape.prod (nworkers_pos _ hthreads) htid
    exact collapsedWorker_at rfl (isInner_of_mem htac hk)
      (fun hm => ⟨(h.shape hS).symm ▸ h.full htac hk hm, h.flat hcol htac hk hm⟩) hle hv
  · intro tac htac hop
    rw [has_of_mem htac hop] at hp
    cases hp

theorem Fits.rows (h : Fits b S) : ∃ S' c, S = S' ++ [c] ∧ 0 < c ∧ S.prod / c = S'.prod := by
  obtain ⟨S', c, hrank⟩ := (List.eq_nil_or_concat' S).resolve_left h.rank
  have hc : 0 < c := h.pos c (by simp [hrank])
  refine ⟨S', c, hrank, hc, ?_⟩
  rw [hrank, List.prod_append, List.prod_singleton, Nat.mul_div_cancel _ hc]

/-- An inner walker covers the space when its pointers are right at the beginning of each row. -/
theorem Fits.covered_rows (h : Fits b S) (hS : S.prod ≠ 1) (hthreads : 0 < mthreads) {S' : List ℕ} {c : ℕ}
    (hrank : S = S' ++ [c]) (hlast : b.has .reducePartial = true → b.axis + 1 = S.length) (p : ℕ → ℕ → ℕ → ℤ)
    (hrow : ∀ tac ∈ b.tacs, ∀ k ∈ innerOpds tac, ∀ o r, o + r < S'.prod → p o r k = (b.globals k).start +
      if (b.globals k).moves then dot (b.globals k).dims (coords S' (o + r) ++ [0]) else 0)
    (hout : ∀ tac ∈ b.tacs, ∀ k ∈ outerOpds tac, Full S' (b.symbols k) → S'.prod ≠ 1 → ∀ o r, o + r < S'.prod →
      ((b.stepInner (S.length - 1))^[c]) (p o r) k = (b.globals k).start +
        if (b.globals k).moves then dot (b.globals k).dims (coords S' (o + r)) else 0) :
    Covered b S
      ((List.range (nworkers S'.prod mthreads)).map fun tid =>
        (List.range (share S'.prod (nworkers S'.prod mthreads) tid).2).flatMap fun r =>
          b.chunk (((share S'.prod (nworkers S'.prod mthreads) tid).1 + r) * c) c (S.length - 1)
            (p (share S'.prod (nworkers S'.prod mthreads) tid).1 r))
      ((List.range (nworkers S'.prod mthreads)).map fun tid =>
        (List.range (share S'.prod (nworkers S'.prod mthreads) tid).2).map fun r =>
          ⟨coords S' ((share S'.prod (nworkers S'.prod mthreads) tid).1 + r),
            ((share S'.prod (nworkers S'.prod mthreads) tid).1 + r) * c,
            ((b.stepInner (S.length - 1))^[c]) (p (share S'.prod (nworkers S'.prod mthreads) tid).1 r)⟩) := by
  constructor
  · apply List.Perm.of_eq
    apply chunk_indices hthreads
    rw [h.shape hS, hrank, List.prod_append, List.prod_singleton]
  · intro v hv tac htac k hk
    simp only [List.mem_flatten, List.mem_map, List.mem_range] at hv
    obtain ⟨_, ⟨tid, htid, rfl⟩, hv⟩ := hv
    obtain ⟨r, hr, hv⟩ := List.mem_flatMap.mp hv
    rw [List.mem_range] at hr
    have hle := share_le S'.prod (nworkers_pos _ hthreads) htid
    exact h.chunk_at hS hrank htac hk (hrow tac htac k hk _ r (by omega)) hv
  · intro tac htac hop
    obtain ⟨_, _, hfull, hne, hmem⟩ := h.swept htac hop
    have haxis : b.axis = S.length - 1 := by
      have := hlast (has_of_mem htac hop)
      omega
    have herase : S.eraseIdx b.axis = S' := by
      rw [haxis, hrank]
      simp [List.eraseIdx_append_of_length_le]
    rw [herase] at hfull hne
    rw [← (h.axis_eq htac hop).2, herase]
    constructor
    · exact List.Perm.of_eq (row_written_indices hthreads rfl c fun o r => ((b.stepInner (S.length - 1))^[c]) (p o r))
    · intro v hv
      simp only [List.mem_flatten, List.mem_map, List.mem_range] at hv
      obtain ⟨_, ⟨tid, htid, rfl⟩, hv⟩ := hv
      obtain ⟨r, hr, rfl⟩ := List.mem_map.mp hv
      rw [List.mem_range] at hr
      have hle := share_le S'.prod (nworkers_pos _ hthreads) htid
      exact hout tac htac tac.out hmem hfull hne _ r (by omega)

theorem Fits.covered_inner2d (h : Fits b S) (hS : S.prod ≠ 1) (hthreads : 0 < mthreads) (h2 : S.length = 2)
    (hlast : b.has .reducePartial = true → b.axis + 1 = S.length) :
    Covered b S (b.visits mthreads .inner2d) (b.writebacks mthreads .inner2d) := by
  obtain ⟨S', c, hrank, -, hdiv⟩ := h.rows
  obtain ⟨n, hn⟩ : ∃ n, S' = [n] := by
    rw [hrank, List.length_append, List.length_singleton] at h2
    exact List.length_eq_one_iff.mp (Nat.succ.inj h2)
  have hS2 : S = [n, c] := by rw [hrank, hn]; rfl
  have hcoords : ∀ i < S'.prod, coords S' i = [i] := by
    intro i hi
    rw [hn, List.prod_singleton] at hi
    rw [hn]
    simp [coords, Nat.mod_eq_of_lt hi]
  have hcov := h.covered_rows hS hthreads hrank hlast b.pointers2d
    (by
      intro tac htac k hk o r hlt
      rw [hcoords _ hlt, h.row2d hS hS2 htac hk]
      rfl)
    (by
      intro tac htac k hk hf hne o r hlt
      rw [hn] at hf
      rw [hcoords _ hlt, h2]
      exact h.row_written2d hS2 hk htac hf (by simpa [hn] using hne) o r)
  have hgetLast : S.getLastD 1 = c := by simp [hrank]
  have hdrop : S.dropLast = S' := by simp [hrank]
  rw [h2] at hcov
  unfold Block.visits Block.writebacks
  simp only [h.shape hS, hgetLast, hdiv, hdrop]
  exact hcov

theorem Fits.covered_innerNd (h : Fits b S) (hS : S.prod ≠ 1) (hthreads : 0 < mthreads)
    (hlast : b.has .reducePartial = true → b.axis + 1 = S.length) :
    Covered b S (b.visits mthreads .innerNd) (b.writebacks mthreads .innerNd) := by
  obtain ⟨S', c, hrank, hc, hdiv⟩ := h.rows
  have hcov := h.covered_rows hS hthreads hrank hlast (fun o r => b.pointersNd ((o + r) * c))
    (by
      intro tac htac k hk o r _
      exact h.rowNd hS hrank hc htac hk (o + r))
    (by
      intro tac htac k hk hf hne o r _
      exact h.row_writtenNd hS hrank hc hk htac hf hne (o + r))
  have hgetLast : S.getLastD 1 = c := by simp [hrank]
  have hdrop : S.dropLast = S' := by simp [hrank]
  unfold Block.visits Block.writebacks
  simp only [h.shape hS, hgetLast, hdiv, hdrop]
  exact hcov

theorem Fits.covered_axisNd (h : Fits b S) (hS : S.prod ≠ 1) (hthreads : 0 < mthreads) (hp : b.has .reducePartial = true) :
    Covered b S (b.visits mthreads .axisNd) (b.writebacks mthreads .axisNd) := by
  obtain ⟨tac₀, htac₀, hop₀⟩ := List.any_eq_true.mp hp
  rw [decide_eq_true_eq] at hop₀
  obtain ⟨hrank, haxis, _⟩ := h.swept htac₀ hop₀
  have hshape := h.shape hS
  constructor
  · apply axis_indices hthreads
    · rwa [hshape]
    · rw [hshape]
      exact h.pos
    · rwa [hshape]
  · intro v hv tac htac k hk
    unfold Block.visits at hv
    simp only [List.mem_flatten, List.mem_map, List.mem_range, hshape] at hv
    obtain ⟨_, ⟨tid, htid, rfl⟩, hv⟩ := hv
    obtain ⟨e, _, hv⟩ := List.mem_flatMap.mp hv
    obtain ⟨aidx, _, rfl⟩ := List.mem_map.mp hv
    exact h.axis_at hS haxis htac hk _ aidx
  · intro tac htac hop
    obtain ⟨_, _, hfull, hne, hmem⟩ := h.swept htac hop
    rw [← (h.axis_eq htac hop).2]
    constructor
    · apply List.Perm.of_eq
      rw [axis_written_indices hthreads (by rwa [hshape]) (by rw [hshape]; exact h.pos) (by rwa [hshape]), hshape]
    · intro v hv
      unfold Block.writebacks at hv
      simp only [List.mem_flatten, List.mem_map, List.mem_range, hshape] at hv
      obtain ⟨_, ⟨tid, htid, rfl⟩, hv⟩ := hv
      obtain ⟨e, _, rfl⟩ := List.mem_map.mp hv
      exact h.axis_written hS haxis htac hmem hfull hne _ _

/-- The chosen walker covers the space. -/
theorem Fits.covered (h : Fits b S) (hS : S.prod ≠ 1) (hthreads : 0 < mthreads) {t : Template} (ht : b.template = some t) :
    Covered b S (b.visits mthreads t) (b.writebacks mthreads t) := by
  obtain ⟨ht', hcol, hp⟩ | ⟨⟨ht', h2⟩ | ht', hlast⟩ | ⟨ht', hp⟩ := h.template hS
  · obtain rfl := Option.some.inj (ht'.symm.trans ht)
    exact h.covered_collapsed hS hthreads hcol hp
  · obtain rfl := Option.some.inj (ht'.symm.trans ht)
    exact h.covered_inner2d hS hthreads h2 hlast
  · obtain rfl := Option.some.inj (ht'.symm.trans ht)
    exact h.covered_innerNd hS hthreads hlast
  · obtain rfl := Option.some.inj (ht'.symm.trans ht)
    exact h.covered_axisNd hS hthreads hp

/-- The walker that is chosen for a kernel covers its space, with any number of threads. The space is that of
the arrays, unless it is one element. -/
theorem template_covered (h : Fits b S) (hthreads : 0 < mthreads) :
    ∃ t, b.template = some t ∧ Covered b S (b.visits mthreads t) (b.writebacks mthreads t) ∧
      (b.iterspace.shape = S ∨ S.prod = 1 ∧ b.iterspace.shape.prod = 1) := by
  by_cases hS : S.prod = 1
  · have hspace := h.iterspace.1
    unfold Space at hspace
    rw [if_pos hS] at hspace
    exact ⟨.scalar, h.template_scalar hS, h.covered_scalar hS, Or.inr ⟨hS, hspace.2⟩⟩
  · have hsome : ∃ t, b.template = some t := by
      obtain ⟨ht, _⟩ | ⟨⟨ht, _⟩ | ht, _⟩ | ⟨ht, _⟩ := h.template hS
      · exact ⟨.collapsed, ht⟩
      · exact ⟨.inner2d, ht⟩
      · exact ⟨.innerNd, ht⟩
      · exact ⟨.axisNd, ht⟩
    obtain ⟨t, ht⟩ := hsome
    exact ⟨t, ht, h.covered hS hthreads ht, Or.inl (h.shape hS)⟩

/-- The columns of a matrix that is read transposed are summed: `t = x + 1`, and `y` is the sum of `t` over its
first dimension. -/
def columnSums : Block where
  symbols
    | 0 => ⟨.contiguous, 0, [⟨2, 3⟩, ⟨3, 1⟩]⟩
    | 1 => ⟨.strided, 0, [⟨2, 1⟩, ⟨3, 2⟩]⟩
    | 2 => ⟨.contiguous, 0, [⟨3, 1⟩]⟩
    | _ => ⟨.scalarConst, 0, [⟨1, 1⟩]⟩
  contracted k := k = 0
  constant _ := 0
  tacs := [⟨.zip, .add, 0, 1, 3⟩, ⟨.reducePartial, .add, 2, 0, 4⟩]

theorem columnSums_fits : Fits columnSums [2, 3] := by
  constructor
  · decide
  · decide
  · simp only [columnSums, List.forall_mem_cons]
    refine ⟨?_, ?_, by simp⟩
    · apply FitsTac.ewise rfl
      simp [operandsOf, noperands, Full, Single, Opd.shape]
      decide
    · apply FitsTac.axis rfl (by decide) (by decide)
      · exact ⟨rfl, by decide⟩
      · exact ⟨rfl, by decide⟩
      · decide
  · simp [columnSums]
  · refine ⟨⟨.zip, .add, 0, 1, 3⟩, by simp [columnSums], 1, by decide, ?_⟩
    exact ⟨rfl, by decide⟩

theorem template_covered_columnSums : ∃ t, columnSums.template = some t ∧
    Covered columnSums [2, 3] (columnSums.visits 4 t) (columnSums.writebacks 4 t) ∧
      (columnSums.iterspace.shape = [2, 3] ∨ [2, 3].prod = 1 ∧ columnSums.iterspace.shape.prod = 1) :=
  template_covered columnSums_fits (by decide)

end Chosen

end Bohrium.Cpu
