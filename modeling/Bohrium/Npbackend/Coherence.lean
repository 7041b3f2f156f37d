import Bohrium.Npbackend.Ndarray
import Mathlib.Algebra.BigOperators.Ring.List

/-! # The two copies agree

What every operation of the bridge keeps: the elements written last are in the Bohrium-C array of a base if it
has one, and in its NumPy memory otherwise; the memory of a base with a Bohrium-C array is protected and known
to the fault handler; and a cached view of the current version is one of the current Bohrium-C array. -/
namespace Bohrium.Npbackend
set_option autoImplicit false

/-! ## Elements -/

/-- The view of Bohrium-C with the offset, shape and strides of the array. -/
structure Fits (a : Ndarray) (w : TargetView) : Prop where
  ndim : w.ndim = if 0 < a.shape.length then a.shape.length else 1
  start : w.start * a.itemsize = a.data
  shape : w.shape = if 0 < a.shape.length then a.shape else [1]
  strides : w.strides = if 0 < a.strides.length then a.strides.map (· / (a.itemsize : ℤ)) else [1]

theorem dot_div {n : ℤ} (idx : List ℕ) {strides : List ℤ} (h : ∀ stride ∈ strides, stride % n = 0) :
    dot idx (strides.map (· / n)) * n = dot idx strides := by
  induction strides generalizing idx with
  | nil => simp [dot]
  | cons stride strides ih =>
    cases idx with
    | nil => simp [dot]
    | cons i idx =>
      rw [List.forall_mem_cons] at h
      have hdiv : stride / n * n = stride := Int.ediv_mul_cancel (Int.dvd_of_emod_eq_zero h.1)
      have hrest := ih idx h.2
      unfold dot at hrest ⊢
      rw [List.map_cons, List.zip_cons_cons, List.map_cons, List.sum_cons, List.zip_cons_cons, List.map_cons, List.sum_cons,
        add_mul, hrest, mul_assoc, hdiv]

theorem Fits.elem_eq {a : Ndarray} {w : TargetView} (h : Fits a w) (hpos : 0 < a.itemsize)
    (hstrides : ∀ stride ∈ a.strides, stride % (a.itemsize : ℤ) = 0) {idx : List ℕ} (hlen : idx.length = a.strides.length) :
    w.elem idx = a.elem idx := by
  have hdot : dot idx w.strides * a.itemsize = dot idx a.strides := by
    rw [h.strides]
    split_ifs with hne
    · exact dot_div idx hstrides
    · have hnil : a.strides = [] := List.length_eq_zero_iff.mp (by omega)
      have hidx : idx = [] := List.length_eq_zero_iff.mp (by rw [hlen, hnil]; rfl)
      simp [hnil, hidx, dot]
  have hn : (a.itemsize : ℤ) ≠ 0 := by omega
  unfold TargetView.elem Ndarray.elem
  rw [← h.start, ← hdot, ← add_mul, Int.mul_ediv_cancel _ hn]

/-! ## The invariant -/

section
variable {V : Type} (junk : ℕ → V)

/-- A non-empty array inside its base. -/
structure Placed (arrays : ℕ → Ndarray) (narrays a : ℕ) : Prop where
  base_lt : (arrays a).base < narrays
  base_base : (arrays (arrays a).base).base = (arrays a).base
  itemsize : (arrays (arrays a).base).itemsize = (arrays a).itemsize
  pos : 0 < (arrays a).itemsize
  nonempty : 0 ∉ (arrays a).shape
  length : (arrays a).strides.length = (arrays a).shape.length
  data : (arrays a).data % ((arrays a).itemsize : ℤ) = 0
  strides : ∀ stride ∈ (arrays a).strides, stride % ((arrays a).itemsize : ℤ) = 0
  inside : ∀ idx, InBounds idx (arrays a).shape → 0 ≤ (arrays a).data + dot idx (arrays a).strides ∧
    (arrays a).data + dot idx (arrays a).strides < (arrays (arrays a).base).nbytes

/-- What holds of the Python objects. -/
structure Filed (s : State V) : Prop where
  placed : ∀ a < s.narrays, Placed s.arrays s.narrays a
  views : ∀ a, (s.arrays a).base ≠ a → (s.arrays a).bhcAry = none
  handle : ∀ b h, (s.arrays b).bhcAry = some h → h < s.nbhc
  distinct : ∀ b b' h, (s.arrays b).bhcAry = some h → (s.arrays b').bhcAry = some h → b = b'
  fits : ∀ a < s.narrays, ∀ w, (s.arrays a).bhcView = some w → Fits (s.arrays a) w
  version : ∀ a < s.narrays, ∀ w v, (s.arrays a).bhcView = some w → (s.arrays a).bhcViewVersion = some v →
    v ≤ (s.arrays (s.arrays a).base).bhcAryVersion ∧ (v = (s.arrays (s.arrays a).base).bhcAryVersion →
      w.base = (s.arrays (s.arrays a).base).bhcAry ∧ w.base ≠ none)

/-- The elements of a base written last are where its data is. -/
def Live (s : State V) (written : ℕ → ℕ → Option V) (b : ℕ) : Prop :=
  match (s.arrays b).bhcAry with
  | some h => (∀ e x, written b e = some x → (s.bhc h).flushed junk e = x) ∧
      ((s.bhc h).data = none → (s.bhc h).queue = [] → ∀ e, written b e = none)
  | none => ∀ e x, written b e = some x → (s.memory b).content e = x

/-- The memory beside a Bohrium-C array is protected, and protected memory is attached. -/
def Guarded (s : State V) (b : ℕ) : Prop :=
  ((s.arrays b).bhcAry ≠ none → (s.memory b).prot = true) ∧ ((s.memory b).prot = true → (s.memory b).attached = true)

structure Coherent (s : State V) (written : ℕ → ℕ → Option V) : Prop where
  filed : Filed s
  unwritten : ∀ b, s.narrays ≤ b → ∀ e, written b e = none
  live : ∀ b, Live junk s written b
  guarded : ∀ b, Guarded s b

/-- The arrays are where they were. -/
structure SameGeometry (s s' : State V) : Prop where
  narrays : s'.narrays = s.narrays
  base : ∀ a, (s'.arrays a).base = (s.arrays a).base
  data : ∀ a, (s'.arrays a).data = (s.arrays a).data
  shape : ∀ a, (s'.arrays a).shape = (s.arrays a).shape
  strides : ∀ a, (s'.arrays a).strides = (s.arrays a).strides
  itemsize : ∀ a, (s'.arrays a).itemsize = (s.arrays a).itemsize

variable {junk} {s s' s'' : State V} {written : ℕ → ℕ → Option V}

theorem SameGeometry.refl (s : State V) : SameGeometry s s := ⟨rfl, fun _ => rfl, fun _ => rfl, fun _ => rfl, fun _ => rfl, fun _ => rfl⟩

theorem SameGeometry.symm (h : SameGeometry s s') : SameGeometry s' s :=
  ⟨h.narrays.symm, fun a => (h.base a).symm, fun a => (h.data a).symm, fun a => (h.shape a).symm,
    fun a => (h.strides a).symm, fun a => (h.itemsize a).symm⟩

theorem SameGeometry.trans (h : SameGeometry s s') (h' : SameGeometry s' s'') : SameGeometry s s'' :=
  ⟨h'.narrays.trans h.narrays, fun a => (h'.base a).trans (h.base a), fun a => (h'.data a).trans (h.data a),
    fun a => (h'.shape a).trans (h.shape a), fun a => (h'.strides a).trans (h.strides a),
    fun a => (h'.itemsize a).trans (h.itemsize a)⟩

theorem SameGeometry.placed (h : SameGeometry s s') {a : ℕ} (hp : Placed s.arrays s.narrays a) :
    Placed s'.arrays s'.narrays a := by
  have hnbytes : ∀ b, (s'.arrays b).nbytes = (s.arrays b).nbytes := by
    intro b
    rw [Ndarray.nbytes, Ndarray.nbytes, Ndarray.size, Ndarray.size, h.shape, h.itemsize]
  refine ⟨?_, ?_, ?_, ?_, ?_, ?_, ?_, ?_, ?_⟩
  · rw [h.base, h.narrays]
    exact hp.base_lt
  · rw [h.base, h.base]
    exact hp.base_base
  · rw [h.base, h.itemsize, h.itemsize]
    exact hp.itemsize
  · rw [h.itemsize]
    exact hp.pos
  · rw [h.shape]
    exact hp.nonempty
  · rw [h.strides, h.shape]
    exact hp.length
  · rw [h.data, h.itemsize]
    exact hp.data
  · rw [h.strides, h.itemsize]
    exact hp.strides
  · rw [h.shape, h.data, h.strides, h.base, hnbytes]
    exact hp.inside

theorem SameGeometry.fits (h : SameGeometry s s') {a : ℕ} {w : TargetView} (hf : Fits (s.arrays a) w) :
    Fits (s'.arrays a) w := by
  refine ⟨?_, ?_, ?_, ?_⟩
  · rw [h.shape]
    exact hf.ndim
  · rw [h.itemsize, h.data]
    exact hf.start
  · rw [h.shape]
    exact hf.shape
  · rw [h.strides, h.itemsize]
    exact hf.strides

theorem SameGeometry.elem (h : SameGeometry s s') (a : ℕ) (idx : List ℕ) :
    (s'.arrays a).elem idx = (s.arrays a).elem idx := by
  rw [Ndarray.elem, Ndarray.elem, h.data, h.strides, h.itemsize]

/-! ## The cache of a view -/

theorem arrays_setArray (s : State V) (a : ℕ) (x : Ndarray) (c : ℕ) :
    (s.setArray a x).arrays c = if c = a then x else s.arrays c := by
  simp only [State.setArray, Function.update_apply]

theorem sameGeometry_setArray {a : ℕ} {x : Ndarray} (h : x.base = (s.arrays a).base ∧ x.data = (s.arrays a).data ∧
    x.shape = (s.arrays a).shape ∧ x.strides = (s.arrays a).strides ∧ x.itemsize = (s.arrays a).itemsize) :
    SameGeometry s (s.setArray a x) := by
  have hfield : ∀ {β : Type} (f : Ndarray → β), f x = f (s.arrays a) → ∀ c, f ((s.setArray a x).arrays c) = f (s.arrays c) := by
    intro β f hf c
    rw [arrays_setArray]
    split_ifs with hc
    · rw [hf, hc]
    · rfl
  exact ⟨rfl, hfield _ h.1, hfield _ h.2.1, hfield _ h.2.2.1, hfield _ h.2.2.2.1, hfield _ h.2.2.2.2⟩

/-- Only the cache of array `a` may differ. -/
structure Recached (s s' : State V) (a : ℕ) : Prop where
  geometry : SameGeometry s s'
  bhcAry : ∀ c, (s'.arrays c).bhcAry = (s.arrays c).bhcAry
  bhcAryVersion : ∀ c, (s'.arrays c).bhcAryVersion = (s.arrays c).bhcAryVersion
  cache : ∀ c, c ≠ a → (s'.arrays c).bhcView = (s.arrays c).bhcView ∧
    (s'.arrays c).bhcViewVersion = (s.arrays c).bhcViewVersion
  memory : s'.memory = s.memory
  bhc : s'.bhc = s.bhc
  nbhc : s'.nbhc = s.nbhc

theorem Recached.refl (s : State V) (a : ℕ) : Recached s s a :=
  ⟨SameGeometry.refl s, fun _ => rfl, fun _ => rfl, fun _ _ => ⟨rfl, rfl⟩, rfl, rfl, rfl⟩

theorem Recached.trans {a : ℕ} (h : Recached s s' a) (h' : Recached s' s'' a) : Recached s s'' a :=
  ⟨h.geometry.trans h'.geometry, fun c => (h'.bhcAry c).trans (h.bhcAry c),
    fun c => (h'.bhcAryVersion c).trans (h.bhcAryVersion c),
    fun c hc => ⟨(h'.cache c hc).1.trans (h.cache c hc).1, (h'.cache c hc).2.trans (h.cache c hc).2⟩,
    h'.memory.trans h.memory, h'.bhc.trans h.bhc, h'.nbhc.trans h.nbhc⟩

theorem recached_setArray (s : State V) (a : ℕ) (view : Option TargetView) (version : Option ℕ) :
    Recached s (s.setArray a { s.arrays a with bhcView := view, bhcViewVersion := version }) a := by
  refine ⟨sameGeometry_setArray ⟨rfl, rfl, rfl, rfl, rfl⟩, fun c => ?_, fun c => ?_, fun c hc => ?_, rfl, rfl, rfl⟩
  · rw [arrays_setArray]
    split_ifs with hc
    · rw [hc]
    · rfl
  · rw [arrays_setArray]
    split_ifs with hc
    · rw [hc]
    · rfl
  · rw [arrays_setArray, if_neg hc]
    exact ⟨rfl, rfl⟩

/-- A cache that is right, or empty, keeps the objects in order. -/
theorem Recached.filed {a : ℕ} (hr : Recached s s' a) (h : Filed s)
    (hcache : ∀ w, (s'.arrays a).bhcView = some w → Fits (s.arrays a) w ∧ ∀ v, (s'.arrays a).bhcViewVersion = some v →
      v ≤ (s.arrays (s.arrays a).base).bhcAryVersion ∧ (v = (s.arrays (s.arrays a).base).bhcAryVersion →
        w.base = (s.arrays (s.arrays a).base).bhcAry ∧ w.base ≠ none)) : Filed s' := by
  refine ⟨fun c hc => ?_, fun c hc => ?_, fun b n hb => ?_, fun b b' n hb hb' => ?_, fun c hlt w hc => ?_,
    fun c hlt w v hc hv => ?_⟩
  · rw [hr.geometry.narrays] at hc
    exact hr.geometry.placed (h.placed c hc)
  · rw [hr.geometry.base] at hc
    rw [hr.bhcAry]
    exact h.views c hc
  · rw [hr.bhcAry] at hb
    rw [hr.nbhc]
    exact h.handle b n hb
  · rw [hr.bhcAry] at hb hb'
    exact h.distinct b b' n hb hb'
  · by_cases hca : c = a
    · subst hca
      exact hr.geometry.fits (hcache w hc).1
    · rw [(hr.cache c hca).1] at hc
      rw [hr.geometry.narrays] at hlt
      exact hr.geometry.fits (h.fits c hlt w hc)
  · rw [hr.geometry.base, hr.bhcAryVersion, hr.bhcAry]
    by_cases hca : c = a
    · subst hca
      exact (hcache w hc).2 v hv
    · rw [(hr.cache c hca).1] at hc
      rw [(hr.cache c hca).2] at hv
      rw [hr.geometry.narrays] at hlt
      exact h.version c hlt w v hc hv

theorem Recached.live {a : ℕ} (hr : Recached s s' a) {b : ℕ} (h : Live junk s written b) : Live junk s' written b := by
  unfold Live at h ⊢
  rw [hr.bhcAry, hr.bhc, hr.memory]
  exact h

theorem Recached.guarded {a : ℕ} (hr : Recached s s' a) {b : ℕ} (h : Guarded s b) : Guarded s' b := by
  unfold Guarded at h ⊢
  rw [hr.bhcAry, hr.memory]
  exact h

/-! ## A view of an array that has its elements in Bohrium-C -/

/-- The bounds that `get_bhc` checks. -/
theorem Placed.address {a : ℕ} (h : Placed s.arrays s.narrays a) : 0 ≤ (s.arrays a).data ∧
    (s.arrays a).data < (s.arrays (s.arrays a).base).nbytes := by
  have hzero : InBounds ((s.arrays a).shape.map fun _ => 0) (s.arrays a).shape := by
    unfold InBounds
    rw [List.forall₂_map_left_iff, List.forall₂_same]
    exact fun d hd => Nat.pos_of_ne_zero fun h0 => h.nonempty (h0 ▸ hd)
  have hdot : ∀ (shape : List ℕ) (strides : List ℤ), dot (shape.map fun _ => 0) strides = 0 := by
    intro shape strides
    induction shape generalizing strides with
    | nil => rfl
    | cons d shape ih =>
      cases strides with
      | nil => rfl
      | cons stride strides =>
        have hrest := ih strides
        unfold dot at hrest ⊢
        rw [List.map_cons, List.zip_cons_cons, List.map_cons, List.sum_cons, hrest]
        simp
  have hin := h.inside _ hzero
  rwa [hdot, add_zero] at hin

theorem elementView_eq {a : ℕ} (h : Placed s.arrays s.narrays a) :
    elementView (s.arrays a) (s.arrays (s.arrays a).base).size = .ok ((s.arrays a).data / ((s.arrays a).itemsize : ℤ),
      (s.arrays a).strides.map (· / ((s.arrays a).itemsize : ℤ))) := by
  have hpos := h.pos
  have hn : (0 : ℤ) < (s.arrays a).itemsize := by omega
  obtain ⟨hlow, hhigh⟩ := h.address
  have hsize : (s.arrays a).data / ((s.arrays a).itemsize : ℤ) < (s.arrays (s.arrays a).base).size := by
    apply Int.ediv_lt_of_lt_mul hn
    rw [Ndarray.nbytes, h.itemsize] at hhigh
    push_cast at hhigh
    exact hhigh
  unfold elementView
  rw [if_neg (not_not.mpr h.data), if_neg (not_not.mpr ⟨Int.ediv_nonneg hlow hn.le, hsize⟩), if_neg]
  simp only [List.any_eq_true, decide_eq_true_eq, not_exists, not_and, not_not]
  exact h.strides

/-- `newView` of a placed array whose base has a Bohrium-C array. -/
theorem newView_spec {a h : ℕ} (hf : Filed s) (ha : a < s.narrays) (hh : (s.arrays (s.arrays a).base).bhcAry = some h) :
    ∃ w s', newView s a ((s.arrays a).data / ((s.arrays a).itemsize : ℤ))
        ((s.arrays a).strides.map (· / ((s.arrays a).itemsize : ℤ))) = (w, s') ∧
      w.base = some h ∧ Fits (s.arrays a) w ∧ Recached s s' a ∧ Filed s' := by
  have hp := hf.placed a ha
  have hpos := hp.pos
  refine ⟨_, _, rfl, hh, ?_, recached_setArray s a _ _, ?_⟩
  · refine ⟨rfl, Int.ediv_mul_cancel (Int.dvd_of_emod_eq_zero hp.data), rfl, ?_⟩
    simp only [List.length_map]
  · refine (recached_setArray s a _ _).filed hf fun w hw => ?_
    rw [arrays_setArray, if_pos rfl] at hw ⊢
    obtain rfl := Option.some.inj hw
    refine ⟨⟨rfl, Int.ediv_mul_cancel (Int.dvd_of_emod_eq_zero hp.data), rfl, ?_⟩, fun v hv => ?_⟩
    · simp only [List.length_map]
    · obtain rfl := Option.some.inj hv
      exact ⟨le_rfl, fun _ => ⟨rfl, by rw [hh]; exact Option.some_ne_none h⟩⟩

/-- What `get_bhc` gives for an array `a` of a base with the Bohrium-C array `h`. -/
def Viewed (s : State V) (a h : ℕ) (r : Except PyError (TargetView × State V)) : Prop :=
  ∃ w s', r = .ok (w, s') ∧ w.base = some h ∧ Fits (s.arrays a) w ∧ Recached s s' a ∧ Filed s'

theorem makeView_of_bhc (move : State V → ℕ → Except PyError (State V)) {a h : ℕ} (hf : Filed s) (ha : a < s.narrays)
    (hh : (s.arrays (s.arrays a).base).bhcAry = some h) : Viewed s a h (makeView move s a) := by
  have hp := hf.placed a ha
  obtain ⟨w, s', hnew, hspec⟩ := newView_spec hf ha hh
  refine ⟨w, s', ?_, hspec⟩
  unfold makeView
  dsimp only
  rw [if_neg hp.nonempty, if_neg (not_not.mpr hp.address), hh, Option.isNone_some, if_neg Bool.false_ne_true]
  show (do
    let p ← elementView (s.arrays a) (s.arrays (s.arrays a).base).size
    pure (newView s a p.1 p.2)) = _
  rw [elementView_eq hp]
  show Except.ok (newView s a _ _) = _
  rw [hnew]

theorem getBhc_of_bhc (move : State V → ℕ → Except PyError (State V)) {a h : ℕ} (hf : Filed s) (ha : a < s.narrays)
    (hh : (s.arrays (s.arrays a).base).bhcAry = some h) : Viewed s a h (getBhc move s a) := by
  unfold getBhc
  dsimp only
  cases hview : (s.arrays a).bhcView with
  | none => exact makeView_of_bhc move hf ha hh
  | some w =>
    dsimp only
    split_ifs with hversion hsame
    · have hcached := (hf.version a ha w _ hview hversion).2 rfl
      exact ⟨w, s, rfl, hcached.1.trans hh, hf.fits a ha w hview, Recached.refl s a, hf⟩
    · -- the cached view has other strides: numbers of elements beside numbers of bytes
      have hr := recached_setArray s a none (s.arrays a).bhcViewVersion
      have hf' := hr.filed hf fun w hw => by
        rw [arrays_setArray, if_pos rfl] at hw
        cases hw
      have hh' : ((s.setArray a { s.arrays a with bhcView := none }).arrays
          ((s.setArray a { s.arrays a with bhcView := none }).arrays a).base).bhcAry = some h := by
        rw [hr.geometry.base, hr.bhcAry]
        exact hh
      obtain ⟨w', s', hok, hbase, hfits, hr', hf''⟩ := makeView_of_bhc move hf' ha hh'
      exact ⟨w', s', hok, hbase, hr.geometry.symm.fits hfits, hr.trans hr', hf''⟩
    · exact makeView_of_bhc move hf ha hh

/-! ## Moving the elements to Bohrium-C -/

theorem queue_flush (x : BhcBase V) : (x.flush junk).queue = [] := by
  unfold BhcBase.flush
  split_ifs with hq
  · exact hq
  · rfl

theorem Fits.prod_ne_zero {a : Ndarray} {w : TargetView} (h : Fits a w) (hne : 0 ∉ a.shape) : w.shape.prod ≠ 0 := by
  rw [h.shape]
  split_ifs
  · rwa [Ne, List.prod_eq_zero_iff]
  · decide

theorem setBhcDataFromAry_eq {w : TargetView} {h : ℕ} (hbase : w.base = some h) (hprod : w.shape.prod ≠ 0) (b : ℕ) :
    setBhcDataFromAry junk s w b = s.setBhc h { data := some (s.memory b).content } := by
  unfold setBhcDataFromAry getDataPointer
  rw [hbase]
  dsimp only
  rw [if_neg hprod]
  dsimp only [State.setBhc]
  rw [Function.update_idem, Function.update_self, if_neg Bool.false_ne_true]
  split_ifs
  · dsimp only
    rw [queue_flush]
  · rw [queue_flush]

theorem Filed.congr (h : Filed s) (harrays : s'.arrays = s.arrays) (hn : s'.narrays = s.narrays)
    (hbhc : s.nbhc ≤ s'.nbhc) : Filed s' := by
  refine ⟨fun a ha => ?_, ?_, fun b n hb => ?_, ?_, ?_, ?_⟩
  · rw [harrays, hn]
    exact h.placed a (hn ▸ ha)
  · rw [harrays]
    exact h.views
  · rw [harrays] at hb
    exact (h.handle b n hb).trans_le hbhc
  · rw [harrays]
    exact h.distinct
  · rw [harrays, hn]
    exact h.fits
  · rw [harrays, hn]
    exact h.version

/-- The state after `new_bhc_base`. -/
def withBhcBase (s : State V) (b : ℕ) : State V :=
  { (s.setArray b { s.arrays b with bhcAry := some s.nbhc }).setBhc s.nbhc {} with nbhc := s.nbhc + 1 }

theorem newBhcBase_eq {b : ℕ} (hbase : (s.arrays b).base = b) (hnone : (s.arrays b).bhcAry = none) :
    newBhcBase s b = .ok (withBhcBase s b) := by
  unfold newBhcBase
  rw [if_neg (not_not.mpr hbase), hnone, Option.isSome_none, if_neg Bool.false_ne_true]
  rfl

theorem arrays_withBhcBase (s : State V) (b c : ℕ) : (withBhcBase s b).arrays c =
    if c = b then { s.arrays b with bhcAry := some s.nbhc } else s.arrays c :=
  arrays_setArray s b _ c

theorem sameGeometry_withBhcBase (s : State V) (b : ℕ) : SameGeometry s (withBhcBase s b) := by
  have h := @sameGeometry_setArray V s b { s.arrays b with bhcAry := some s.nbhc } ⟨rfl, rfl, rfl, rfl, rfl⟩
  exact ⟨h.narrays, h.base, h.data, h.shape, h.strides, h.itemsize⟩

/-- No view is cached for the version of a base without a Bohrium-C array, so none is for the new one. -/
theorem filed_withBhcBase (h : Filed s) {b : ℕ} (hbase : (s.arrays b).base = b) (hnone : (s.arrays b).bhcAry = none) :
    Filed (withBhcBase s b) := by
  have hg := sameGeometry_withBhcBase s b
  have hother : ∀ c, c ≠ b → (withBhcBase s b).arrays c = s.arrays c := fun c hc => by
    rw [arrays_withBhcBase, if_neg hc]
  have hview : ∀ c, ((withBhcBase s b).arrays c).bhcView = (s.arrays c).bhcView ∧
      ((withBhcBase s b).arrays c).bhcViewVersion = (s.arrays c).bhcViewVersion ∧
        ((withBhcBase s b).arrays c).bhcAryVersion = (s.arrays c).bhcAryVersion := by
    intro c
    rw [arrays_withBhcBase]
    split_ifs with hc
    · rw [hc]
      exact ⟨rfl, rfl, rfl⟩
    · exact ⟨rfl, rfl, rfl⟩
  have hhandle : ∀ c n, ((withBhcBase s b).arrays c).bhcAry = some n →
      c = b ∧ n = s.nbhc ∨ c ≠ b ∧ (s.arrays c).bhcAry = some n := by
    intro c n hc
    rw [arrays_withBhcBase] at hc
    split_ifs at hc with hcb
    · exact Or.inl ⟨hcb, (Option.some.inj hc).symm⟩
    · exact Or.inr ⟨hcb, hc⟩
  refine ⟨fun c hc => hg.placed (h.placed c (by rwa [hg.narrays] at hc)), fun c hc => ?_, fun c n hc => ?_,
    fun c c' n hc hc' => ?_, fun c hlt w hc => ?_, fun c hlt w v hc hv => ?_⟩
  · rw [hg.base] at hc
    rw [hother c fun hcb => hc (hcb ▸ hbase)]
    exact h.views c hc
  · show n < s.nbhc + 1
    rcases hhandle c n hc with ⟨_, rfl⟩ | ⟨_, hc⟩
    · exact Nat.lt_succ_self _
    · exact Nat.lt_succ_of_lt (h.handle c n hc)
  · rcases hhandle c n hc with ⟨hcb, hn⟩ | ⟨_, hold⟩
    · rcases hhandle c' n hc' with ⟨hcb', _⟩ | ⟨_, hold'⟩
      · rw [hcb, hcb']
      · exact absurd (h.handle c' n hold') (by omega)
    · rcases hhandle c' n hc' with ⟨_, hn⟩ | ⟨_, hold'⟩
      · exact absurd (h.handle c n hold) (by omega)
      · exact h.distinct c c' n hold hold'
  · rw [(hview c).1] at hc
    rw [hg.narrays] at hlt
    exact hg.fits (h.fits c hlt w hc)
  · rw [(hview c).1] at hc
    rw [(hview c).2.1] at hv
    rw [hg.narrays] at hlt
    obtain ⟨hle, heq⟩ := h.version c hlt w v hc hv
    rw [hg.base, (hview _).2.2]
    refine ⟨hle, fun hv' => ?_⟩
    obtain ⟨hb, hne⟩ := heq hv'
    have hcb : (s.arrays c).base ≠ b := by
      intro hcb
      rw [hcb, hnone] at hb
      exact hne hb
    rw [hother _ hcb]
    exact ⟨hb, hne⟩

/-- The elements of base `b` are in a new Bohrium-C array, and its memory is protected. -/
structure Moved (s s' : State V) (b : ℕ) : Prop where
  geometry : SameGeometry s s'
  filed : Filed s'
  handle : (s'.arrays b).bhcAry = some s.nbhc
  others : ∀ c, c ≠ b → (s'.arrays c).bhcAry = (s.arrays c).bhcAry
  memory : s'.memory = Function.update s.memory b ⟨(s.memory b).content, true, true⟩
  bhc : s'.bhc = Function.update s.bhc s.nbhc { data := some (s.memory b).content }

theorem dataNp2bhc_spec (hf : Filed s) {b : ℕ} (hb : b < s.narrays) (hbase : (s.arrays b).base = b)
    (hnone : (s.arrays b).bhcAry = none) (depth : ℕ) :
    ∃ s', dataNp2bhc junk (depth + 1) s b = .ok s' ∧ Moved s s' b := by
  obtain ⟨s₁, hs₁⟩ : ∃ s₁, s₁ = munprotect (detach (withBhcBase s b) b) b := ⟨_, rfl⟩
  have hg := sameGeometry_withBhcBase s b
  have harrays : s₁.arrays = (withBhcBase s b).arrays := by rw [hs₁]; rfl
  have hmemory : s₁.memory = Function.update s.memory b ⟨(s.memory b).content, false, false⟩ := by
    rw [hs₁]
    show Function.update (Function.update s.memory b _) b _ = _
    rw [Function.update_idem]
    simp only [detach, State.setMemory, Function.update_self]
    rfl
  have hf₁ : Filed s₁ := (filed_withBhcBase hf hbase hnone).congr harrays (by rw [hs₁]; rfl) (by rw [hs₁]; exact le_rfl)
  have hself : (s₁.arrays b).base = b := by rw [harrays, hg.base, hbase]
  have hhandle : (s₁.arrays b).bhcAry = some s.nbhc := by rw [harrays, arrays_withBhcBase, if_pos rfl]
  obtain ⟨w, s₂, hok, hwbase, hfits, hr, hf₂⟩ := getBhc_of_bhc (dataNp2bhc junk depth) hf₁
    (a := b) (h := s.nbhc) (by rw [hs₁]; exact hb) (by rw [hself]; exact hhandle)
  have hprod : w.shape.prod ≠ 0 := by
    apply hfits.prod_ne_zero
    rw [harrays, hg.shape]
    exact (hf.placed b hb).nonempty
  refine ⟨mprotectNpPart (setBhcDataFromAry junk s₂ w b) b, ?_, ?_⟩
  · unfold dataNp2bhc
    simp only [State.getBase, hbase]
    rw [hnone, Option.isNone_none, if_pos rfl, newBhcBase_eq hbase hnone]
    show (do
      let p ← getBhc (dataNp2bhc junk depth) (munprotect (detach (withBhcBase s b) b) b) b
      pure (mprotectNpPart (setBhcDataFromAry junk p.2 p.1 b) b)) = _
    rw [← hs₁, hok]
    rfl
  · rw [setBhcDataFromAry_eq hwbase hprod]
    have hg₁ : SameGeometry s s₁ := by
      refine ⟨by rw [hs₁]; rfl, ?_, ?_, ?_, ?_, ?_⟩
      · rw [harrays]; exact hg.base
      · rw [harrays]; exact hg.data
      · rw [harrays]; exact hg.shape
      · rw [harrays]; exact hg.strides
      · rw [harrays]; exact hg.itemsize
    have hg₂ := hg₁.trans hr.geometry
    refine ⟨⟨hg₂.narrays, hg₂.base, hg₂.data, hg₂.shape, hg₂.strides, hg₂.itemsize⟩, hf₂.congr rfl rfl le_rfl, ?_,
      fun c hc => ?_, ?_, ?_⟩
    · exact (hr.bhcAry b).trans hhandle
    · refine (hr.bhcAry c).trans ?_
      rw [harrays, arrays_withBhcBase, if_neg hc]
    · show Function.update s₂.memory b ⟨(s₂.memory b).content, true, true⟩ = _
      rw [hr.memory, hmemory, Function.update_idem, Function.update_self]
    · show Function.update s₂.bhc s.nbhc { data := some (s₂.memory b).content } = _
      have hbhc : s₁.bhc = Function.update s.bhc s.nbhc {} := by rw [hs₁]; rfl
      rw [hr.bhc, hr.memory, hmemory, hbhc, Function.update_idem, Function.update_self]

theorem Moved.live {b : ℕ} (hm : Moved s s' b) (hf : Filed s) (hnone : (s.arrays b).bhcAry = none)
    (hl : ∀ c, Live junk s written c) (c : ℕ) : Live junk s' written c := by
  have hc := hl c
  unfold Live at hc ⊢
  by_cases hcb : c = b
  · subst hcb
    rw [hnone] at hc
    rw [hm.handle]
    dsimp only at hc ⊢
    rw [hm.bhc, Function.update_self]
    exact ⟨hc, fun hdata => by cases hdata⟩
  · rw [hm.others c hcb, hm.memory, hm.bhc]
    cases hh : (s.arrays c).bhcAry with
    | none =>
      rw [hh] at hc
      dsimp only
      rw [Function.update_of_ne hcb]
      exact hc
    | some h =>
      rw [hh] at hc
      dsimp only
      rw [Function.update_of_ne (hf.handle c h hh).ne]
      exact hc

theorem Moved.guarded {b : ℕ} (hm : Moved s s' b) {c : ℕ} (hc : Guarded s c) : Guarded s' c := by
  unfold Guarded at hc ⊢
  rw [hm.memory]
  by_cases hcb : c = b
  · rw [hcb, Function.update_self]
    exact ⟨fun _ => rfl, fun _ => rfl⟩
  · rw [hm.others c hcb, Function.update_of_ne hcb]
    exact hc

/-! ## `get_bhc` -/

/-- What `get_bhc` leaves behind: a view of the current Bohrium-C array of the base, with the geometry of the
array. -/
structure Opened (junk : ℕ → V) (written : ℕ → ℕ → Option V) (s s' : State V) (a : ℕ) (w : TargetView) : Prop where
  geometry : SameGeometry s s'
  filed : Filed s'
  live : ∀ c, Live junk s' written c
  base : w.base = (s'.arrays (s.arrays a).base).bhcAry
  bhc : w.base ≠ none
  fits : Fits (s.arrays a) w
  guarded : ∀ c, Guarded s c → Guarded s' c
  others : ∀ c, c ≠ (s.arrays a).base → s'.memory c = s.memory c ∧ (s'.arrays c).bhcAry = (s.arrays c).bhcAry

theorem makeView_of_none {a depth : ℕ} (hf : Filed s) (hl : ∀ c, Live junk s written c) (ha : a < s.narrays)
    (hnone : (s.arrays (s.arrays a).base).bhcAry = none) :
    ∃ w s', makeView (dataNp2bhc junk (depth + 1)) s a = .ok (w, s') ∧ Opened junk written s s' a w := by
  have hp := hf.placed a ha
  obtain ⟨s₁, hok, hm⟩ := @dataNp2bhc_spec V junk s hf _ hp.base_lt hp.base_base hnone depth
  have ha₁ : a < s₁.narrays := by rw [hm.geometry.narrays]; exact ha
  obtain ⟨w, s', hnew, hbase, hfits, hr, hf'⟩ := newView_spec (h := s.nbhc) hm.filed ha₁
    (by rw [hm.geometry.base]; exact hm.handle)
  have hbhc : (s'.arrays (s.arrays a).base).bhcAry = some s.nbhc := (hr.bhcAry _).trans hm.handle
  refine ⟨w, s', ?_, ⟨hm.geometry.trans hr.geometry, hf', fun c => hr.live (hm.live hf hnone hl c), hbase.trans hbhc.symm,
    ?_, hm.geometry.symm.fits hfits, fun c hc => hr.guarded (hm.guarded hc), fun c hc => ⟨?_, ?_⟩⟩⟩
  · unfold makeView
    dsimp only
    rw [if_neg hp.nonempty, if_neg (not_not.mpr hp.address), hnone, Option.isNone_none, if_pos rfl, hok]
    show (do
      let p ← elementView (s.arrays a) (s₁.arrays (s.arrays a).base).size
      pure (newView s₁ a p.1 p.2)) = _
    have hsize : (s₁.arrays (s.arrays a).base).size = (s.arrays (s.arrays a).base).size := by
      rw [Ndarray.size, Ndarray.size, hm.geometry.shape]
    rw [hsize, elementView_eq hp]
    show Except.ok (newView s₁ a _ _) = _
    rw [← hnew, hm.geometry.data, hm.geometry.itemsize, hm.geometry.strides]
  · rw [hbase]
    exact Option.some_ne_none _
  · rw [hr.memory, hm.memory, Function.update_of_ne hc]
  · exact (hr.bhcAry c).trans (hm.others c hc)

theorem getBhc_spec {a depth : ℕ} (hf : Filed s) (hl : ∀ c, Live junk s written c) (ha : a < s.narrays) :
    ∃ w s', getBhc (dataNp2bhc junk (depth + 1)) s a = .ok (w, s') ∧ Opened junk written s s' a w := by
  cases hbhc : (s.arrays (s.arrays a).base).bhcAry with
  | some h =>
    obtain ⟨w, s', hok, hbase, hfits, hr, hf'⟩ := getBhc_of_bhc (dataNp2bhc junk (depth + 1)) hf ha hbhc
    refine ⟨w, s', hok, ⟨hr.geometry, hf', fun c => hr.live (hl c), ?_, ?_, hfits, fun c => hr.guarded, fun c _ => ⟨?_, ?_⟩⟩⟩
    · rw [hr.bhcAry, hbase, hbhc]
    · rw [hbase]
      exact Option.some_ne_none h
    · rw [hr.memory]
    · exact hr.bhcAry c
  | none =>
    have hmiss : getBhc (dataNp2bhc junk (depth + 1)) s a = makeView (dataNp2bhc junk (depth + 1)) s a := by
      unfold getBhc
      dsimp only
      cases hview : (s.arrays a).bhcView with
      | none => rfl
      | some w =>
        -- nothing is cached for the version of a base without a Bohrium-C array
        have hversion : (s.arrays a).bhcViewVersion ≠ some (s.arrays (s.arrays a).base).bhcAryVersion := by
          intro hversion
          obtain ⟨hb, hne⟩ := (hf.version a ha w _ hview hversion).2 rfl
          exact hne (hb.trans hbhc)
        dsimp only
        rw [if_neg hversion]
    rw [hmiss]
    exact makeView_of_none hf hl ha hbhc

/-! ## Moving the elements to NumPy -/

theorem data_flush_of_none {x : BhcBase V} (h : (x.flush junk).data = none) : x.data = none ∧ x.queue = [] := by
  unfold BhcBase.flush at h
  split_ifs at h with hq
  exact ⟨h, hq⟩

theorem data_flush_of_some {x : BhcBase V} {c : ℕ → V} (h : (x.flush junk).data = some c) : x.flushed junk = c := by
  unfold BhcBase.flush at h
  split_ifs at h with hq
  · unfold BhcBase.flushed
    rw [hq, h]
    rfl
  · exact Option.some.inj h

/-- The data pointer taken away. -/
theorem getDataPointer_nullify {w : TargetView} {h : ℕ} (hbase : w.base = some h) (hprod : w.shape.prod ≠ 0) :
    getDataPointer junk s w false true = (((s.bhc h).flush junk).data, s.setBhc h {}) := by
  unfold getDataPointer
  rw [hbase]
  dsimp only
  rw [if_neg hprod, Bool.and_false, if_neg Bool.false_ne_true, if_pos rfl]
  congr 2
  rw [queue_flush]

section Delete
variable (s) (a : ℕ)

theorem arrays_delBhc (c : ℕ) : (delBhc s a).arrays c =
    if c = (s.arrays a).base then
      { s.arrays c with bhcAry := none, bhcView := none, bhcAryVersion := (s.arrays c).bhcAryVersion + 1 }
    else if c = a then { s.arrays c with bhcAry := none, bhcView := none } else s.arrays c := by
  unfold delBhc State.getBase
  dsimp only
  by_cases hcb : c = (s.arrays a).base
  · rw [if_pos hcb, arrays_setArray, if_pos hcb, arrays_setArray, if_pos rfl, arrays_setArray, hcb]
    split_ifs with hba
    · simp only [hba]
    · rfl
  · rw [if_neg hcb, arrays_setArray, if_neg hcb, arrays_setArray, if_neg hcb, arrays_setArray]
    split_ifs with hca
    · rw [hca]
    · rfl

theorem sameGeometry_delBhc : SameGeometry s (delBhc s a) := by
  have hfield : ∀ {β : Type} (f : Ndarray → β), (∀ x (v : ℕ), f { x with bhcAry := none, bhcView := none, bhcAryVersion := v } = f x) →
      ∀ c, f ((delBhc s a).arrays c) = f (s.arrays c) := by
    intro β f hf c
    rw [arrays_delBhc]
    split_ifs
    · exact hf _ _
    · exact hf _ (s.arrays c).bhcAryVersion
    · rfl
  exact ⟨rfl, hfield _ fun _ _ => rfl, hfield _ fun _ _ => rfl, hfield _ fun _ _ => rfl, hfield _ fun _ _ => rfl,
    hfield _ fun _ _ => rfl⟩

end Delete

theorem bhcAry_delBhc (hf : Filed s) (a c : ℕ) : ((delBhc s a).arrays c).bhcAry =
    if c = (s.arrays a).base then none else (s.arrays c).bhcAry := by
  rw [arrays_delBhc]
  split_ifs with hcb hca
  · rfl
  · subst hca
    exact (hf.views c (Ne.symm hcb)).symm
  · rfl

/-- The version is counted up, so that no cached view of the base is taken for one of its next array. -/
theorem filed_delBhc (hf : Filed s) (a : ℕ) : Filed (delBhc s a) := by
  have hg := sameGeometry_delBhc s a
  have hview : ∀ c w, ((delBhc s a).arrays c).bhcView = some w → c ≠ (s.arrays a).base ∧
      (s.arrays c).bhcView = some w ∧ ((delBhc s a).arrays c).bhcViewVersion = (s.arrays c).bhcViewVersion := by
    intro c w hc
    rw [arrays_delBhc] at hc ⊢
    by_cases hcb : c = (s.arrays a).base
    · rw [if_pos hcb] at hc
      cases hc
    by_cases hca : c = a
    · rw [if_neg hcb, if_pos hca] at hc
      cases hc
    rw [if_neg hcb, if_neg hca] at hc ⊢
    exact ⟨hcb, hc, rfl⟩
  have hhandle : ∀ c n, ((delBhc s a).arrays c).bhcAry = some n → (s.arrays c).bhcAry = some n := by
    intro c n hc
    rw [bhcAry_delBhc hf] at hc
    split_ifs at hc
    exact hc
  refine ⟨fun c hc => hg.placed (hf.placed c hc), fun c hc => ?_, fun c n hc => hf.handle c n (hhandle c n hc),
    fun c c' n hc hc' => hf.distinct c c' n (hhandle c n hc) (hhandle c' n hc'), fun c hlt w hc => ?_,
    fun c hlt w v hc hv => ?_⟩
  · rw [bhcAry_delBhc hf]
    split_ifs
    · rfl
    · exact hf.views c (by rwa [hg.base] at hc)
  · exact hg.fits (hf.fits c hlt w (hview c w hc).2.1)
  · obtain ⟨_, hold, hsame⟩ := hview c w hc
    rw [hsame] at hv
    obtain ⟨hle, heq⟩ := hf.version c hlt w v hold hv
    rw [hg.base, bhcAry_delBhc hf, arrays_delBhc]
    by_cases hb : (s.arrays c).base = (s.arrays a).base
    · rw [if_pos hb]
      dsimp only
      exact ⟨by omega, fun hv' => by omega⟩
    · rw [if_neg hb, if_neg hb]
      have hba : ((if (s.arrays c).base = a then { s.arrays (s.arrays c).base with bhcAry := none, bhcView := none }
          else s.arrays (s.arrays c).base) : Ndarray).bhcAryVersion = (s.arrays (s.arrays c).base).bhcAryVersion := by
        split_ifs <;> rfl
      rw [hba]
      exact ⟨hle, heq⟩

theorem Live.congr {b : ℕ} (h : Live junk s written b) (harrays : (s'.arrays b).bhcAry = (s.arrays b).bhcAry)
    (hbhc : ∀ n, (s.arrays b).bhcAry = some n → s'.bhc n = s.bhc n)
    (hcontent : (s.arrays b).bhcAry = none → (s'.memory b).content = (s.memory b).content) : Live junk s' written b := by
  unfold Live at h ⊢
  rw [harrays]
  cases hh : (s.arrays b).bhcAry with
  | none =>
    rw [hh] at h
    dsimp only
    rw [hcontent hh]
    exact h
  | some n =>
    rw [hh] at h
    dsimp only
    rw [hbhc n hh]
    exact h

/-- What the base of `a` is after its elements were moved to NumPy. -/
structure Returned (junk : ℕ → V) (written : ℕ → ℕ → Option V) (s s' : State V) (a : ℕ) : Prop where
  coherent : Coherent junk s' written
  geometry : SameGeometry s s'
  bhc : (s'.arrays (s.arrays a).base).bhcAry = none
  prot : (s'.memory (s.arrays a).base).prot = false

/-- The pages of the data take the place of the protected ones, or these are opened. -/
def settle (s : State V) (b : ℕ) (data : Option (ℕ → V)) : State V :=
  data.elim (munprotect s b) (mremapData s b)

theorem settle_others (s : State V) (b : ℕ) (data : Option (ℕ → V)) : (settle s b data).arrays = s.arrays ∧
    (settle s b data).narrays = s.narrays ∧ (settle s b data).nbhc = s.nbhc ∧ (settle s b data).bhc = s.bhc ∧
      ∀ c, c ≠ b → (settle s b data).memory c = s.memory c := by
  cases data with
  | none => exact ⟨rfl, rfl, rfl, rfl, fun c hc => Function.update_of_ne hc _ _⟩
  | some d => exact ⟨rfl, rfl, rfl, rfl, fun c hc => Function.update_of_ne hc _ _⟩

theorem settle_prot (s : State V) (b : ℕ) (data : Option (ℕ → V)) : ((settle s b data).memory b).prot = false := by
  cases data with
  | none => show (Function.update s.memory b _ b).prot = false; rw [Function.update_self]
  | some d => show (Function.update s.memory b _ b).prot = false; rw [Function.update_self]

theorem settle_content (s : State V) (b : ℕ) (d : ℕ → V) : ((settle s b (some d)).memory b).content = d := by
  show (Function.update s.memory b _ b).content = d
  rw [Function.update_self]

theorem dataBhc2np_eq {a b n : ℕ} {w : TargetView} (hb : s.getBase a = b)
    (hok : getBhc (dataNp2bhc junk recursionLimit) (detach s b) b = .ok (w, s')) (hn : w.base = some n)
    (hprod : w.shape.prod ≠ 0) :
    dataBhc2np junk s a = .ok (delBhc (settle (s'.setBhc n {}) b ((s'.bhc n).flush junk).data) a) := by
  unfold dataBhc2np
  rw [hb]
  dsimp only
  rw [hok]
  simp only [bind, Except.bind]
  rw [getDataPointer_nullify hn hprod]
  cases ((s'.bhc n).flush junk).data with
  | none => rfl
  | some d => rfl

/-- What was written last is in the memory that takes the place of the Bohrium-C array. -/
theorem Live.settle {b n : ℕ} (h : Live junk s written b) (hn : (s.arrays b).bhcAry = some n) (t : State V) {e : ℕ} {x : V}
    (hx : written b e = some x) : ((Npbackend.settle t b ((s.bhc n).flush junk).data).memory b).content e = x := by
  unfold Live at h
  rw [hn] at h
  cases hd : ((s.bhc n).flush junk).data with
  | none =>
    obtain ⟨hdata, hqueue⟩ := data_flush_of_none hd
    have hnone := h.2 hdata hqueue e
    rw [hx] at hnone
    cases hnone
  | some d =>
    rw [settle_content, ← data_flush_of_some hd]
    exact h.1 e x hx

theorem dataBhc2np_spec (h : Coherent junk s written) {a : ℕ} (ha : a < s.narrays) :
    ∃ s', dataBhc2np junk s a = .ok s' ∧ Returned junk written s s' a := by
  obtain ⟨b, hb⟩ : ∃ b, b = (s.arrays a).base := ⟨_, rfl⟩
  have hp := h.filed.placed a ha
  have hbb : (s.arrays b).base = b := by rw [hb]; exact hp.base_base
  have hblt : b < s.narrays := by rw [hb]; exact hp.base_lt
  have hf₁ : Filed (detach s b) := h.filed.congr rfl rfl le_rfl
  have hl₁ : ∀ c, Live junk (detach s b) written c := by
    refine fun c => (h.live c).congr rfl (fun _ _ => rfl) fun _ => ?_
    show (Function.update s.memory b _ c).content = _
    rw [Function.update_apply]
    split_ifs with hc
    · rw [hc]
    · rfl
  obtain ⟨w, s₂, hok, ho⟩ := @getBhc_spec V junk (detach s b) written b 999 hf₁ hl₁ hblt
  have hgeo : SameGeometry s s₂ := by
    have hg := ho.geometry
    exact ⟨hg.narrays, hg.base, hg.data, hg.shape, hg.strides, hg.itemsize⟩
  have hself : ((detach s b).arrays b).base = b := hbb
  have hother : ∀ c, c ≠ b → s₂.memory c = (detach s b).memory c ∧ (s₂.arrays c).bhcAry = (s.arrays c).bhcAry :=
    fun c hcb => ho.others c (by rw [hself]; exact hcb)
  obtain ⟨n, hn⟩ := Option.ne_none_iff_exists'.mp ho.bhc
  have hbhc₂ : (s₂.arrays b).bhcAry = some n := by
    rw [← hn, ho.base, hself]
  have hprod : w.shape.prod ≠ 0 := ho.fits.prod_ne_zero (h.filed.placed b hblt).nonempty
  obtain ⟨s₃, hs₃⟩ : ∃ s₃, s₃ = settle (s₂.setBhc n {}) b ((s₂.bhc n).flush junk).data := ⟨_, rfl⟩
  have hsame := settle_others (s₂.setBhc n {}) b ((s₂.bhc n).flush junk).data
  rw [← hs₃] at hsame
  obtain ⟨harr, hnarr, hnb, hbhc₃, hmem₃⟩ := hsame
  have hprot₃ : (s₃.memory b).prot = false := by
    rw [hs₃]
    exact settle_prot _ b _
  have hf₃ : Filed s₃ := ho.filed.congr harr hnarr hnb.ge
  have hbase₃ : (s₃.arrays a).base = b := by
    rw [harr, hb]
    exact hgeo.base a
  have hg₃ : SameGeometry s s₃ := by
    refine ⟨hnarr.trans hgeo.narrays, ?_, ?_, ?_, ?_, ?_⟩
    · rw [harr]; exact hgeo.base
    · rw [harr]; exact hgeo.data
    · rw [harr]; exact hgeo.shape
    · rw [harr]; exact hgeo.strides
    · rw [harr]; exact hgeo.itemsize
  have hbhcAry : ∀ c, ((delBhc s₃ a).arrays c).bhcAry = if c = b then none else (s.arrays c).bhcAry := by
    intro c
    rw [bhcAry_delBhc hf₃, hbase₃]
    split_ifs with hcb
    · rfl
    · rw [harr]
      exact (hother c hcb).2
  refine ⟨delBhc s₃ a, ?_, ⟨filed_delBhc hf₃ a, ?_, fun c => ?_, fun c => ?_⟩, hg₃.trans (sameGeometry_delBhc s₃ a), ?_, ?_⟩
  · rw [hs₃]
    exact dataBhc2np_eq hb.symm hok hn hprod
  · rw [(hg₃.trans (sameGeometry_delBhc s₃ a)).narrays]
    exact h.unwritten
  · by_cases hcb : c = b
    · subst hcb
      unfold Live
      rw [hbhcAry, if_pos rfl]
      intro e x hx
      show (s₃.memory c).content e = x
      rw [hs₃]
      exact (ho.live c).settle hbhc₂ _ hx
    · have hlive := ho.live c
      refine hlive.congr ?_ (fun m hm => ?_) fun _ => ?_
      · rw [hbhcAry, if_neg hcb]
        exact (hother c hcb).2.symm
      · show s₃.bhc m = s₂.bhc m
        have hmn : m ≠ n := fun heq => hcb (ho.filed.distinct c b n (heq ▸ hm) hbhc₂)
        rw [hbhc₃]
        exact Function.update_of_ne hmn _ _
      · show (s₃.memory c).content = (s₂.memory c).content
        rw [hmem₃ c hcb]
        rfl
  · have hc := h.guarded c
    unfold Guarded at hc ⊢
    rw [hbhcAry]
    show (_ → (s₃.memory c).prot = true) ∧ ((s₃.memory c).prot = true → (s₃.memory c).attached = true)
    by_cases hcb : c = b
    · rw [if_pos hcb, hcb, hprot₃]
      exact ⟨fun hne => absurd rfl hne, fun hfalse => absurd hfalse Bool.false_ne_true⟩
    · have hdetach : (detach s b).memory c = s.memory c := Function.update_of_ne hcb _ _
      have hmem : s₃.memory c = s.memory c := (hmem₃ c hcb).trans ((hother c hcb).1.trans hdetach)
      rw [if_neg hcb, hmem]
      exact hc
  · rw [← hb, hbhcAry, if_pos rfl]
  · rw [← hb]
    exact hprot₃

/-- After an access by NumPy the elements of the base are in its memory, which is open. -/
theorem touch_spec (h : Coherent junk s written) {a : ℕ} (ha : a < s.narrays) :
    ∃ s', touch junk s (s.arrays a).base = .ok s' ∧ Returned junk written s s' a := by
  have hp := h.filed.placed a ha
  have hg := h.guarded (s.arrays a).base
  unfold touch
  by_cases hprot : (s.memory (s.arrays a).base).prot = true
  · rw [if_pos hprot, if_pos (hg.2 hprot)]
    obtain ⟨s', hok, hr⟩ := dataBhc2np_spec h hp.base_lt
    refine ⟨s', hok, hr.coherent, hr.geometry, ?_, ?_⟩
    · rw [← hp.base_base]
      exact hr.bhc
    · rw [← hp.base_base]
      exact hr.prot
  · refine ⟨s, if_neg hprot, h, SameGeometry.refl s, ?_, Bool.not_eq_true _ ▸ hprot⟩
    by_contra hne
    exact hprot (hg.1 hne)

/-! ## New arrays -/

theorem dot_contiguous (itemsize : ℕ) {shape idx : List ℕ} (h : InBounds idx shape) :
    0 ≤ dot idx (contiguous itemsize shape) ∧
      (0 < itemsize → dot idx (contiguous itemsize shape) < (shape.prod * itemsize : ℕ)) := by
  unfold InBounds at h
  induction h with
  | nil =>
    refine ⟨le_rfl, fun hpos => ?_⟩
    show (0 : ℤ) < _
    rw [List.prod_nil, one_mul]
    exact_mod_cast hpos
  | @cons i d idx shape hi _ ih =>
    have hcons : dot (i :: idx) (contiguous itemsize (d :: shape)) =
        (i : ℤ) * (shape.prod * itemsize : ℕ) + dot idx (contiguous itemsize shape) := by
      unfold dot
      rw [contiguous, List.zip_cons_cons, List.map_cons, List.sum_cons]
    rw [hcons, List.prod_cons]
    obtain ⟨hlow, hhigh⟩ := ih
    refine ⟨add_nonneg (Int.mul_nonneg (Int.natCast_nonneg _) (Int.natCast_nonneg _)) hlow, fun hpos => ?_⟩
    have hrow : (i + 1) * (shape.prod * itemsize) ≤ d * (shape.prod * itemsize) := Nat.mul_le_mul_right _ hi
    have hcast : ((i : ℤ) + 1) * (shape.prod * itemsize : ℕ) ≤ (d * shape.prod * itemsize : ℕ) := by
      rw [mul_assoc]
      exact_mod_cast hrow
    have := hhigh hpos
    rw [add_mul, one_mul] at hcast
    omega

theorem contiguous_aligned (itemsize : ℕ) (shape : List ℕ) :
    ∀ stride ∈ contiguous itemsize shape, stride % (itemsize : ℤ) = 0 := by
  induction shape with
  | nil => exact fun _ h => absurd h List.not_mem_nil
  | cons d shape ih =>
    rw [contiguous, List.forall_mem_cons]
    refine ⟨?_, ih⟩
    rw [Nat.cast_mul]
    exact Int.mul_emod_left _ _

theorem length_contiguous (itemsize : ℕ) (shape : List ℕ) : (contiguous itemsize shape).length = shape.length := by
  induction shape with
  | nil => rfl
  | cons d shape ih => rw [contiguous, List.length_cons, List.length_cons, ih]

theorem Placed.extend {arrays : ℕ → Ndarray} {n a : ℕ} (h : Placed arrays n a) (ha : a < n) (x : Ndarray) :
    Placed (Function.update arrays n x) (n + 1) a := by
  have hself : Function.update arrays n x a = arrays a := Function.update_of_ne ha.ne _ _
  have hbase : Function.update arrays n x (arrays a).base = arrays (arrays a).base :=
    Function.update_of_ne h.base_lt.ne _ _
  refine ⟨?_, ?_, ?_, ?_, ?_, ?_, ?_, ?_, ?_⟩
  · rw [hself]; exact Nat.lt_succ_of_lt h.base_lt
  · rw [hself, hbase]; exact h.base_base
  · rw [hself, hbase]; exact h.itemsize
  · rw [hself]; exact h.pos
  · rw [hself]; exact h.nonempty
  · rw [hself]; exact h.length
  · rw [hself]; exact h.data
  · rw [hself]; exact h.strides
  · rw [hself, hbase]; exact h.inside

/-- One array more, without a Bohrium-C array or a view of one. -/
structure Extended (s s' : State V) (x : Ndarray) : Prop where
  arrays : s'.arrays = Function.update s.arrays s.narrays x
  narrays : s'.narrays = s.narrays + 1
  bhc : s'.bhc = s.bhc
  nbhc : s'.nbhc = s.nbhc
  memory : ∀ c, c ≠ s.narrays → s'.memory c = s.memory c
  attached : (s'.memory s.narrays).prot = true → (s'.memory s.narrays).attached = true
  bhcAry : x.bhcAry = none
  bhcView : x.bhcView = none

theorem Extended.coherent {x : Ndarray} (he : Extended s s' x) (h : Coherent junk s written)
    (hplaced : Placed s'.arrays s'.narrays s.narrays) {written' : ℕ → ℕ → Option V}
    (hnew : ∀ e, written' s.narrays e = none) (hold : ∀ c, c ≠ s.narrays → written' c = written c) :
    Coherent junk s' written' := by
  have hself : s'.arrays s.narrays = x := by rw [he.arrays, Function.update_self]
  have hother : ∀ c, c ≠ s.narrays → s'.arrays c = s.arrays c := fun c hc => by
    rw [he.arrays, Function.update_of_ne hc]
  have hhandle : ∀ c n, (s'.arrays c).bhcAry = some n → (s.arrays c).bhcAry = some n := by
    intro c n hc
    by_cases hcn : c = s.narrays
    · rw [hcn, hself, he.bhcAry] at hc
      cases hc
    · rwa [hother c hcn] at hc
  have hlt : ∀ c, c < s'.narrays → c ≠ s.narrays → c < s.narrays := by
    intro c hc hne
    rw [he.narrays] at hc
    omega
  refine ⟨⟨fun c hc => ?_, fun c hc => ?_, fun c n hc => ?_, fun c c' n hc hc' => ?_, fun c hc w hw => ?_,
    fun c hc w v hw hv => ?_⟩, fun c hc e => ?_, fun c => ?_, fun c => ?_⟩
  · by_cases hcn : c = s.narrays
    · rw [hcn]
      exact hplaced
    · rw [he.arrays, he.narrays]
      exact (h.filed.placed c (hlt c hc hcn)).extend (hlt c hc hcn) x
  · by_cases hcn : c = s.narrays
    · rw [hcn, hself]
      exact he.bhcAry
    · rw [hother c hcn] at hc ⊢
      exact h.filed.views c hc
  · rw [he.nbhc]
    exact h.filed.handle c n (hhandle c n hc)
  · exact h.filed.distinct c c' n (hhandle c n hc) (hhandle c' n hc')
  · by_cases hcn : c = s.narrays
    · rw [hcn, hself, he.bhcView] at hw
      cases hw
    · rw [hother c hcn] at hw ⊢
      exact h.filed.fits c (hlt c hc hcn) w hw
  · by_cases hcn : c = s.narrays
    · rw [hcn, hself, he.bhcView] at hw
      cases hw
    · have hlt' := hlt c hc hcn
      rw [hother c hcn] at hw hv ⊢
      rw [hother _ (h.filed.placed c hlt').base_lt.ne]
      exact h.filed.version c hlt' w v hw hv
  · rw [he.narrays] at hc
    have hcn : c ≠ s.narrays := by omega
    rw [hold c hcn]
    exact h.unwritten c (by omega) e
  · by_cases hcn : c = s.narrays
    · unfold Live
      rw [hcn, hself, he.bhcAry]
      intro e x' hx
      rw [hnew e] at hx
      cases hx
    · have hc := h.live c
      unfold Live at hc ⊢
      rw [hother c hcn, hold c hcn, he.bhc, he.memory c hcn]
      exact hc
  · unfold Guarded
    by_cases hcn : c = s.narrays
    · rw [hcn, hself, he.bhcAry]
      exact ⟨fun hne => absurd rfl hne, he.attached⟩
    · rw [hother c hcn, he.memory c hcn]
      exact h.guarded c

/-- A new base with a Bohrium-C array. -/
theorem coherent_withBhcBase (h : Coherent junk s written) {b : ℕ} (hbase : (s.arrays b).base = b)
    (hnone : (s.arrays b).bhcAry = none) (hprot : (s.memory b).prot = true) (hnew : ∀ e, written b e = none) :
    Coherent junk (withBhcBase s b) written := by
  refine ⟨filed_withBhcBase h.filed hbase hnone, h.unwritten, fun c => ?_, fun c => ?_⟩
  · by_cases hcb : c = b
    · subst hcb
      unfold Live
      rw [arrays_withBhcBase, if_pos rfl]
      refine ⟨fun e x hx => ?_, fun _ _ => hnew⟩
      rw [hnew e] at hx
      cases hx
    · have hsame : ((withBhcBase s b).arrays c).bhcAry = (s.arrays c).bhcAry := by rw [arrays_withBhcBase, if_neg hcb]
      refine (h.live c).congr hsame (fun n hn => ?_) fun _ => rfl
      show Function.update s.bhc s.nbhc {} n = s.bhc n
      exact Function.update_of_ne (h.filed.handle c n hn).ne _ _
  · have hc := h.guarded c
    unfold Guarded at hc ⊢
    by_cases hcb : c = b
    · subst hcb
      exact ⟨fun _ => hprot, hc.2⟩
    · rw [arrays_withBhcBase, if_neg hcb]
      exact hc

/-! ## Every operation -/

theorem Opened.coherent {a : ℕ} {w : TargetView} (ho : Opened junk written s s' a w) (h : Coherent junk s written) :
    Coherent junk s' written := by
  refine ⟨ho.filed, ?_, ho.live, fun c => ho.guarded c (h.guarded c)⟩
  rw [ho.geometry.narrays]
  exact h.unwritten

theorem Placed.elem_eq {a : ℕ} (h : Placed s.arrays s.narrays a) {w : TargetView} (hfits : Fits (s.arrays a) w)
    {idx : List ℕ} (hidx : InBounds idx (s.arrays a).shape) : w.elem idx = (s.arrays a).elem idx :=
  hfits.elem_eq h.pos h.strides (by rw [h.length]; exact hidx.length_eq)

/-- A write queued in the Bohrium-C array of a base. -/
theorem Coherent.enqueue (h : Coherent junk s written) {b n : ℕ} (hb : b < s.narrays)
    (hn : (s.arrays b).bhcAry = some n) (e : ℕ) (x : V) :
    Coherent junk (s.setBhc n { s.bhc n with queue := (s.bhc n).queue ++ [(e, x)] })
      (Function.update written b (Function.update (written b) e (some x))) := by
  refine ⟨h.filed.congr rfl rfl le_rfl, fun c hc e' => ?_, fun c => ?_, h.guarded⟩
  · have hcb : c ≠ b := fun heq => absurd (heq ▸ hc) (not_le.mpr hb)
    rw [Function.update_of_ne hcb]
    exact h.unwritten c hc e'
  · have hc := h.live c
    by_cases hcb : c = b
    · subst hcb
      unfold Live at hc ⊢
      show match (s.arrays c).bhcAry with
        | some h => _
        | none => _
      rw [hn] at hc ⊢
      show (∀ e' x', Function.update written c _ c e' = some x' → (Function.update s.bhc n _ n).flushed junk e' = x') ∧
        ((Function.update s.bhc n _ n).data = none → (Function.update s.bhc n _ n).queue = [] → _)
      rw [Function.update_self, Function.update_self]
      have hflushed : ({ s.bhc n with queue := (s.bhc n).queue ++ [(e, x)] } : BhcBase V).flushed junk =
          Function.update ((s.bhc n).flushed junk) e x := by
        unfold BhcBase.flushed
        rw [List.foldl_append]
        rfl
      rw [hflushed]
      refine ⟨fun e' x' hx => ?_, fun _ hqueue => absurd hqueue (by simp)⟩
      by_cases he : e' = e
      · rw [he, Function.update_self] at hx ⊢
        exact Option.some.inj hx
      · rw [Function.update_of_ne he] at hx ⊢
        exact hc.1 e' x' hx
    · have hsame : Live junk (s.setBhc n { s.bhc n with queue := (s.bhc n).queue ++ [(e, x)] }) written c := by
        refine hc.congr rfl (fun m hm => ?_) fun _ => rfl
        have hmn : m ≠ n := fun heq => hcb (h.filed.distinct c b n (heq ▸ hm) hn)
        exact Function.update_of_ne hmn _ _
      unfold Live at hsame ⊢
      rw [Function.update_of_ne hcb]
      exact hsame

/-- A write to the open memory of a base. -/
theorem Coherent.poke (h : Coherent junk s written) {b : ℕ} (hb : b < s.narrays) (hnone : (s.arrays b).bhcAry = none)
    (e : ℕ) (x : V) :
    Coherent junk (s.setMemory b { s.memory b with content := Function.update (s.memory b).content e x })
      (Function.update written b (Function.update (written b) e (some x))) := by
  refine ⟨h.filed.congr rfl rfl le_rfl, fun c hc e' => ?_, fun c => ?_, fun c => ?_⟩
  · have hcb : c ≠ b := fun heq => absurd (heq ▸ hc) (not_le.mpr hb)
    rw [Function.update_of_ne hcb]
    exact h.unwritten c hc e'
  · have hc := h.live c
    by_cases hcb : c = b
    · subst hcb
      unfold Live at hc ⊢
      show match (s.arrays c).bhcAry with
        | some h => _
        | none => _
      rw [hnone] at hc ⊢
      show ∀ e' x', Function.update written c _ c e' = some x' → (Function.update s.memory c _ c).content e' = x'
      rw [Function.update_self, Function.update_self]
      intro e' x' hx
      dsimp only
      by_cases he : e' = e
      · rw [he, Function.update_self] at hx ⊢
        exact Option.some.inj hx
      · rw [Function.update_of_ne he] at hx ⊢
        exact hc e' x' hx
    · have hsame : Live junk (s.setMemory b { s.memory b with content := Function.update (s.memory b).content e x })
          written c := by
        refine hc.congr rfl (fun _ _ => rfl) fun _ => ?_
        show (Function.update s.memory b _ c).content = _
        rw [Function.update_of_ne hcb]
      unfold Live at hsame ⊢
      rw [Function.update_of_ne hcb]
      exact hsame
  · have hc := h.guarded c
    unfold Guarded at hc ⊢
    show ((s.arrays c).bhcAry ≠ none → (Function.update s.memory b _ c).prot = true) ∧
      ((Function.update s.memory b _ c).prot = true → (Function.update s.memory b _ c).attached = true)
    rw [Function.update_apply]
    split_ifs with hcb
    · rw [← hcb]
      exact hc
    · exact hc

theorem npRead_spec (h : Coherent junk s written) {a : ℕ} {idx : List ℕ} (ha : a < s.narrays) :
    ∃ v s', npRead junk s a idx = .ok (some v, s') ∧ Coherent junk s' written ∧ SameGeometry s s' ∧
      ∀ x, written (s.arrays a).base ((s.arrays a).elem idx) = some x → v = x := by
  obtain ⟨s', hok, hr⟩ := touch_spec h ha
  refine ⟨(s'.memory (s'.arrays a).base).content ((s'.arrays a).elem idx), s', ?_, hr.coherent, hr.geometry, fun x hx => ?_⟩
  · unfold npRead
    rw [State.getBase, hok]
    rfl
  · have hlive := hr.coherent.live (s.arrays a).base
    unfold Live at hlive
    rw [hr.bhc] at hlive
    rw [hr.geometry.base, hr.geometry.elem]
    exact hlive _ _ hx

variable (junk written) in
/-- The operation succeeds, keeps the copies in agreement, and reads what was written last. -/
def Right (s : State V) (op : Op V) : Prop :=
  ∃ out s', step junk s op = .ok (out, s') ∧ Coherent junk s' (op.record s written) ∧
    ∀ b e x, op.reads s = some (b, e) → written b e = some x → out = some x

theorem create_spec (h : Coherent junk s written) {shape : List ℕ} {itemsize : ℕ} (hpos : 0 < itemsize)
    (hshape : 0 ∉ shape) (bhc : Bool) : Right junk written s (.create shape itemsize bhc) := by
  have he : Extended s (bhArrayNew junk s shape itemsize)
      { base := s.narrays, data := 0, shape := shape, strides := contiguous itemsize shape, itemsize := itemsize } := by
    refine ⟨rfl, rfl, rfl, rfl, fun c hc => ?_, fun _ => ?_, rfl, rfl⟩
    · exact Function.update_of_ne hc _ _
    · show (Function.update s.memory s.narrays _ s.narrays).attached = true
      rw [Function.update_self]
  have hself : (bhArrayNew junk s shape itemsize).arrays s.narrays =
      { base := s.narrays, data := 0, shape := shape, strides := contiguous itemsize shape, itemsize := itemsize } := by
    rw [he.arrays, Function.update_self]
  have hplaced : Placed (bhArrayNew junk s shape itemsize).arrays (bhArrayNew junk s shape itemsize).narrays s.narrays := by
    refine ⟨?_, ?_, ?_, ?_, ?_, ?_, ?_, ?_, ?_⟩
    · rw [hself, he.narrays]; exact Nat.lt_succ_self _
    · rw [hself, hself]
    · rw [hself, hself]
    · rw [hself]; exact hpos
    · rw [hself]; exact hshape
    · rw [hself]; exact length_contiguous itemsize shape
    · rw [hself]; exact Int.zero_emod _
    · rw [hself]; exact contiguous_aligned itemsize shape
    · rw [hself, hself]
      intro idx hidx
      obtain ⟨hlow, hhigh⟩ := dot_contiguous itemsize hidx
      rw [zero_add]
      exact ⟨hlow, hhigh hpos⟩
  have hnew : ∀ e, Function.update written s.narrays (fun _ => none) s.narrays e = none := by
    intro e
    rw [Function.update_self]
  have hcoherent := he.coherent h hplaced hnew fun c hc => Function.update_of_ne hc _ _
  cases bhc with
  | false => exact ⟨none, _, rfl, hcoherent, fun b e x hreads => by cases hreads⟩
  | true =>
    have hbase : ((bhArrayNew junk s shape itemsize).arrays s.narrays).base = s.narrays := by rw [hself]
    have hnone : ((bhArrayNew junk s shape itemsize).arrays s.narrays).bhcAry = none := by rw [hself]
    have hprot : ((bhArrayNew junk s shape itemsize).memory s.narrays).prot = true := by
      show (Function.update s.memory s.narrays _ s.narrays).prot = true
      rw [Function.update_self]
    refine ⟨none, withBhcBase (bhArrayNew junk s shape itemsize) s.narrays, ?_,
      coherent_withBhcBase hcoherent hbase hnone hprot hnew, fun b e x hreads => by cases hreads⟩
    show (newBhcBase (bhArrayNew junk s shape itemsize) s.narrays >>= fun s' => pure (none, s')) = _
    rw [newBhcBase_eq hbase hnone]
    rfl

theorem view_spec (h : Coherent junk s written) {a : ℕ} {data : ℤ} {shape : List ℕ} {strides : List ℤ}
    (hvalid : (Op.view a data shape strides : Op V).Valid s) : Right junk written s (.view a data shape strides) := by
  obtain ⟨ha, hshape, hlength, hdata, hstrides, hinside⟩ := hvalid
  have hp := h.filed.placed a ha
  let x : Ndarray :=
    { base := s.getBase a, data := data, shape := shape, strides := strides, itemsize := (s.arrays a).itemsize }
  let s' : State V := { s.setArray s.narrays x with narrays := s.narrays + 1 }
  have he : Extended s s' x := ⟨rfl, rfl, rfl, rfl, fun _ _ => rfl, (h.guarded s.narrays).2, rfl, rfl⟩
  have hself : s'.arrays s.narrays = x := by rw [he.arrays, Function.update_self]
  have hbase : s'.arrays (s.arrays a).base = s.arrays (s.arrays a).base := by
    rw [he.arrays, Function.update_of_ne hp.base_lt.ne]
  have hplaced : Placed s'.arrays s'.narrays s.narrays := by
    refine ⟨?_, ?_, ?_, ?_, ?_, ?_, ?_, ?_, ?_⟩
    · rw [hself, he.narrays]; exact Nat.lt_succ_of_lt hp.base_lt
    · rw [hself]
      show (s'.arrays (s.arrays a).base).base = (s.arrays a).base
      rw [hbase]
      exact hp.base_base
    · rw [hself]
      show (s'.arrays (s.arrays a).base).itemsize = (s.arrays a).itemsize
      rw [hbase]
      exact hp.itemsize
    · rw [hself]; exact hp.pos
    · rw [hself]; exact hshape
    · rw [hself]; exact hlength
    · rw [hself]; exact hdata
    · rw [hself]; exact hstrides
    · rw [hself]
      show ∀ idx, _ → _ ∧ _ < ((s'.arrays (s.arrays a).base).nbytes : ℤ)
      rw [hbase]
      exact hinside
  exact ⟨none, s', rfl, he.coherent h hplaced (h.unwritten s.narrays le_rfl) fun _ _ => rfl,
    fun b e x hreads => by cases hreads⟩

theorem bhcRead_spec (h : Coherent junk s written) {a : ℕ} {idx : List ℕ} (ha : a < s.narrays)
    (hidx : InBounds idx (s.arrays a).shape) : Right junk written s (.bhcRead a idx) := by
  obtain ⟨w, s', hok, ho⟩ := @getBhc_spec V junk s written a 999 h.filed h.live ha
  obtain ⟨n, hn⟩ := Option.ne_none_iff_exists'.mp ho.bhc
  refine ⟨some ((s'.bhc n).flushed junk (w.elem idx)), s', ?_, ho.coherent h, fun b e x hreads hx => ?_⟩
  · rw [step, show recursionLimit = 999 + 1 from rfl, hok]
    show Except.ok (w.base.map _, s') = _
    rw [hn]
    rfl
  · obtain ⟨rfl, rfl⟩ := Prod.mk.inj (Option.some.inj hreads)
    have hlive := ho.live (s.arrays a).base
    unfold Live at hlive
    rw [← ho.base, hn] at hlive
    rw [(h.filed.placed a ha).elem_eq ho.fits hidx]
    exact congrArg some (hlive.1 _ _ hx)

theorem bhcWrite_spec (h : Coherent junk s written) {a : ℕ} {idx : List ℕ} (x : V) (ha : a < s.narrays)
    (hidx : InBounds idx (s.arrays a).shape) : Right junk written s (.bhcWrite a idx x) := by
  obtain ⟨w, s', hok, ho⟩ := @getBhc_spec V junk s written a 999 h.filed h.live ha
  obtain ⟨n, hn⟩ := Option.ne_none_iff_exists'.mp ho.bhc
  have hp := h.filed.placed a ha
  have hlt : (s.arrays a).base < s'.narrays := by
    rw [ho.geometry.narrays]
    exact hp.base_lt
  have henqueue := (ho.coherent h).enqueue hlt (ho.base.symm.trans hn) (w.elem idx) x
  rw [hp.elem_eq ho.fits hidx] at henqueue
  refine ⟨none, _, ?_, henqueue, fun b e y hreads => by cases hreads⟩
  rw [step, show recursionLimit = 999 + 1 from rfl, hok]
  show (match w.base with
    | some h => _
    | none => _) = _
  rw [hn, ← hp.elem_eq ho.fits hidx]
  rfl

theorem npWrite_spec (h : Coherent junk s written) {a : ℕ} (idx : List ℕ) (x : V) (ha : a < s.narrays) :
    Right junk written s (.npWrite a idx x) := by
  obtain ⟨s', hok, hr⟩ := touch_spec h ha
  have hlt : (s.arrays a).base < s'.narrays := by
    rw [hr.geometry.narrays]
    exact (h.filed.placed a ha).base_lt
  have hpoke := hr.coherent.poke hlt hr.bhc ((s.arrays a).elem idx) x
  refine ⟨none, _, ?_, hpoke, fun b e y hreads => by cases hreads⟩
  have hbase : s'.getBase a = (s.arrays a).base := hr.geometry.base a
  rw [step, State.getBase, hok]
  show Except.ok (none, s'.setMemory (s'.getBase a) _) = _
  rw [hbase, hr.geometry.elem]

theorem npRead_right (h : Coherent junk s written) {a : ℕ} (idx : List ℕ) (ha : a < s.narrays) :
    Right junk written s (.npRead a idx) := by
  obtain ⟨v, s', hok, hc, -, hv⟩ := @npRead_spec V junk s written h a idx ha
  refine ⟨some v, s', hok, hc, fun b e x hreads hx => ?_⟩
  obtain ⟨rfl, rfl⟩ := Prod.mk.inj (Option.some.inj hreads)
  exact congrArg some (hv x hx)

theorem getItem_spec (h : Coherent junk s written) {a : ℕ} (idx : List ℕ) (ha : a < s.narrays) :
    Right junk written s (.getItem a idx) := by
  obtain ⟨s', hok, hr⟩ := dataBhc2np_spec h ha
  have ha' : a < s'.narrays := by rwa [hr.geometry.narrays]
  obtain ⟨v, s'', hok', hc, -, hv⟩ := @npRead_spec V junk s' written hr.coherent a idx ha'
  rw [hr.geometry.base, hr.geometry.elem] at hv
  refine ⟨some v, s'', ?_, hc, fun b e x hreads hx => ?_⟩
  · rw [step, hok]
    exact hok'
  · obtain ⟨rfl, rfl⟩ := Prod.mk.inj (Option.some.inj hreads)
    exact congrArg some (hv x hx)

theorem step_spec (h : Coherent junk s written) {op : Op V} (hvalid : op.Valid s) : Right junk written s op := by
  cases op with
  | create shape itemsize bhc => exact create_spec h hvalid.1 hvalid.2 bhc
  | view a data shape strides => exact view_spec h hvalid
  | bhcRead a idx => exact bhcRead_spec h hvalid.1 hvalid.2
  | bhcWrite a idx x => exact bhcWrite_spec h x hvalid.1 hvalid.2
  | npRead a idx => exact npRead_right h idx hvalid.1
  | npWrite a idx x => exact npWrite_spec h idx x hvalid.1
  | getItem a idx => exact getItem_spec h idx hvalid.1
  | bhc2np a =>
    obtain ⟨s', hok, hr⟩ := dataBhc2np_spec h hvalid
    refine ⟨none, s', ?_, hr.coherent, fun b e x hreads => by cases hreads⟩
    rw [step, hok]
    rfl

/-! ## Runs -/

theorem coherent_initial (junk : ℕ → V) : Coherent junk (State.initial junk) fun _ _ => none := by
  refine ⟨⟨fun a ha => ?_, fun _ _ => rfl, fun b n hn => ?_, fun b b' n hn => ?_, fun a ha => ?_, fun a ha => ?_⟩,
    fun _ _ _ => rfl, fun b e x hx => ?_, fun b => ⟨fun hne => absurd rfl hne, fun hfalse => ?_⟩⟩
  · exact absurd ha (Nat.not_lt_zero a)
  · cases hn
  · cases hn
  · exact absurd ha (Nat.not_lt_zero a)
  · exact absurd ha (Nat.not_lt_zero a)
  · cases hx
  · exact absurd hfalse Bool.false_ne_true

theorem Reachable.coherent (h : Reachable junk s written) : Coherent junk s written := by
  induction h with
  | initial => exact coherent_initial junk
  | @step s s' written op out _ hvalid hstep ih =>
    obtain ⟨out', s'', hok, hc, -⟩ := step_spec ih hvalid
    rw [hstep] at hok
    obtain ⟨rfl, rfl⟩ := Prod.mk.inj (Except.ok.inj hok)
    exact hc

end

end Bohrium.Npbackend
