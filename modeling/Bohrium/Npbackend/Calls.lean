import Bohrium.Npbackend.Overlap

/-! # Calls of elementwise functions

The conflicts are looked for before the inputs are broadcast; a call with one calls itself without an output
and assigns what it gets. Inputs of other types and NumPy arrays are copied on the way. -/
namespace Bohrium.Npbackend.Ufunc
open Strided Layout
set_option autoImplicit false

variable {V : Type}

/-! ## What a call is for -/

/-- The types of the result and of the inputs that the bridge or NumPy has for these arguments, if any. -/
def chosen (E : Environment V) (info : Info) (ins : List NpArray) (bohrium : Bool) : Option (ℕ × ℕ) :=
  if bohrium then (typeSig E info (ins.map .array)).toOption else E.signature info.name (ins.map fun a => .inl a.dtype)

/-- NumPy does a call without a Bohrium array. -/
def types (E : Environment V) (s : State V) (info : Info) (ins : List NpArray) (out : NpArray) : Option (ℕ × ℕ) :=
  chosen E info ins (ins.any (check s) || check s out)

/-- The result of a function whose inputs are read before it is written. -/
def result (E : Environment V) (s : State V) (info : Info) (ins : List NpArray) (inDtype : ℕ) (idx : List ℕ) : V :=
  E.apply info.name inDtype (ins.map fun a => (Operand.array a).at E inDtype s.mem idx)

/-- The call returns `out` with the result in it. -/
def Done (E : Environment V) (s : State V) (info : Info) (ins : List NpArray) (out : NpArray)
    (r : Except UfuncError NpArray × State V) : Prop :=
  ∃ sig, types E s info ins out = some sig ∧ r.1 = .ok out ∧
    Written s r.2 out fun idx => E.convert sig.1 out.dtype (result E s info ins sig.2 idx)

/-- The call is one that the bridge has: the types are known, and NumPy does not get a Bohrium array. -/
def Supported (E : Environment V) (s : State V) (info : Info) (ins : List NpArray) (out : NpArray) : Prop :=
  ins.length + 1 = info.nop ∧ (types E s info ins out).isSome = true ∧ (ins.any (check s) = true → check s out = true)

/-- The result is there, or the call is not supported and has changed nothing. -/
def Answered (E : Environment V) (s : State V) (info : Info) (ins : List NpArray) (out : NpArray)
    (r : Except UfuncError NpArray × State V) : Prop :=
  (Supported E s info ins out → Done E s info ins out r) ∧ (Done E s info ins out r ∨ Refused s r)

/-- A call computes what its inputs were before, or refuses to. -/
def CallRight (E : Environment V) (depth : ℕ) (s : State V) (info : Info) (ins : List NpArray) (out : NpArray) : Prop :=
  if ∀ a ∈ ins, Fits a.shape out.shape then Answered E s info ins out (call E depth info (ins.map .array) (some out) s)
  else Refused s (call E depth info (ins.map .array) (some out) s)

/-! ## The steps of a call -/

theorem Made.stands {E : Environment V} {out? : Option NpArray} {s₀ s s' : State V} {t : List ℕ} {d : ℕ} {x : Operand V}
    {tmp : NpArray} (hconvert : ∀ d v, E.convert d d v = v) (h : Made s s' tmp t d (x.at E d s₀.mem))
    (hout : ∀ out ∈ out?, out.base < s.nbase) : Stands E out? s₀ s' t d x (.array tmp) where
  array _ _ := ⟨tmp, rfl⟩
  shape a ha := Operand.array.inj ha ▸ h.shape
  known a ha := Operand.array.inj ha ▸ h.known
  value idx hidx := by rw [Operand.read, h.dtype, hconvert, h.value idx hidx]
  free out ho := by
    refine free_of_base_ne fun a ha => ?_
    obtain rfl := Operand.array.inj ha
    exact (Nat.ne_of_lt ((hout out ho).trans_le h.new)).symm

theorem Answered.of_done {E : Environment V} {s : State V} {info : Info} {ins : List NpArray} {out : NpArray}
    {r : Except UfuncError NpArray × State V} (h : Done E s info ins out r) : Answered E s info ins out r :=
  ⟨fun _ => h, Or.inl h⟩

theorem Answered.of_error {E : Environment V} {s s' : State V} {info : Info} {ins : List NpArray} {out : NpArray}
    {e : UfuncError} (h : ¬ Supported E s info ins out) (hs : Kept s s' []) : Answered E s info ins out (.error e, s') :=
  ⟨fun hsupported => absurd hsupported h, Or.inr ⟨⟨e, rfl⟩, hs⟩⟩

section Call
variable {E : Environment V} (hE : Documented E) {out? : Option NpArray} {s₀ s : State V} {t : List ℕ} {d : ℕ}
include hE

theorem setitem_ellipsis (depth : ℕ) (a : NpArray) (x : Operand V) (s : State V) :
    setitem E depth a [.ellipsis] x s = assign E depth x a s := by
  unfold setitem
  simp [Loc.isIndex, hE.ellipsis]

/-- An input stands for the argument once it is converted. -/
theorem convertInput_spec {x : NpArray} {y : Operand V} (h : Stands E out? s₀ s t d (.array x) y)
    (hout : ∀ out ∈ out?, out.base < s.nbase) (depth : ℕ) : ∃ y' s', convertInput E (depth + 1) d s y = (.ok y', s') ∧
      Kept s s' [] ∧ Stands E out? s₀ s' t d (.array x) y' ∧ y'.dtype = d := by
  obtain ⟨a, rfl⟩ := h.array x rfl
  rw [convertInput]
  by_cases hd : a.dtype = d
  · rw [if_pos hd]
    exact ⟨_, s, rfl, Kept.refl _ _, h, hd⟩
  · rw [if_neg hd]
    have hknown : (Operand.array a : Operand V).Known s := h.known
    have hval : ∀ idx ∈ indices a.shape, (Operand.array a).at E d s.mem idx = (Operand.array x).at E d s₀.mem idx := by
      intro idx hidx
      rw [← h.value idx (h.shape a rfl ▸ hidx), Operand.at, Operand.read, coord_self hidx]
    have hdone : ∀ s', Made s s' (emptyLike s a d).1 a.shape d ((Operand.array a).at E d s.mem) →
        Stands E out? s₀ s' t d (.array x) (.array (emptyLike s a d).1) := by
      intro s' hmade
      rw [h.shape a rfl] at hmade hval
      exact (hmade.congr hval).stands hE.convert_self hout
    dsimp only
    by_cases hcheck : check (emptyLike s a d).2 (emptyLike s a d).1 = true
    · obtain ⟨s₁, heq, hmade⟩ := assign_empty hE hknown (fits_refl a.shape) d (check s a) depth
      rw [if_pos hcheck, setitem_ellipsis hE]
      refine ⟨_, s₁, ?_, hmade.kept, hdone s₁ hmade, rfl⟩
      rw [emptyLike, heq]
    · rw [if_neg hcheck]
      have hfree : (Operand.array a : Operand V).Free (emptyLike s a d).1 :=
        free_of_base_ne fun b hb => Nat.ne_of_lt (hknown b hb)
      have hwritten := written_targetIdentity (s := (emptyLike s a d).2) hE (injective_empty s a.shape d (check s a)) hfree
      have hmade := Written.made (Kept.refl _ _) hwritten
      refine ⟨_, _, rfl, hmade.kept, hdone _ (hmade.congr fun idx hidx => ?_), rfl⟩
      rw [Operand.read, Operand.at, coord_self hidx]
      rfl

theorem convertInputs_spec {ins : List NpArray} {ys : List (Operand V)}
    (h : List.Forall₂ (Stands E out? s₀ s t d) (ins.map .array) ys) (hout : ∀ out ∈ out?, out.base < s.nbase) (depth : ℕ) :
    ∃ ys' s', convertInputs E (depth + 1) d ys s = (.ok ys', s') ∧ Kept s s' [] ∧
      List.Forall₂ (Stands E out? s₀ s' t d) (ins.map .array) ys' ∧ ∀ y ∈ ys', y.dtype = d := by
  induction ins generalizing ys s with
  | nil =>
    cases h
    exact ⟨[], s, rfl, Kept.refl _ _, List.Forall₂.nil, by simp⟩
  | cons x ins ih =>
    cases h with
    | @cons _ y _ ys hy hys =>
      obtain ⟨y', s₁, heq, hkept, hstands, hdtype⟩ := convertInput_spec hE hy hout depth
      obtain ⟨ys', s₂, heqs, hkepts, hstandss, hdtypes⟩ :=
        ih (hys.imp fun _ _ h => h.kept hkept) fun out ho => (hout out ho).trans_le hkept.nbase
      refine ⟨y' :: ys', s₂, ?_, hkept.trans_nil hkepts, List.Forall₂.cons (hstands.kept hkepts) hstandss,
        List.forall_mem_cons.mpr ⟨hdtype, hdtypes⟩⟩
      rw [convertInputs, heq]
      dsimp only
      rw [heqs]

omit hE in
theorem toBhcs_spec {xs ys : List (Operand V)} (h : List.Forall₂ (Stands E out? s₀ s t d) xs ys)
    (hout : ∀ out ∈ out?, out.base < s.nbase) (hdtype : ∀ y ∈ ys, y.dtype = d) : Kept s (toBhcs ys s).2 [] ∧
      List.Forall₂ (Stands E out? s₀ (toBhcs ys s).2 t d) xs (toBhcs ys s).1 ∧ ∀ y ∈ (toBhcs ys s).1, y.dtype = d := by
  induction ys generalizing xs s with
  | nil =>
    cases h
    exact ⟨Kept.refl _ _, List.Forall₂.nil, hdtype⟩
  | cons y ys ih =>
    rw [List.forall_mem_cons] at hdtype
    cases h with
    | cons hy hys =>
      obtain ⟨hkept, hstands, heq⟩ := stands_toBhc hy hout
      obtain ⟨hkepts, hstandss, hdtypes⟩ := ih (hys.imp fun _ _ h => h.kept hkept)
        (fun out ho => (hout out ho).trans_le hkept.nbase) hdtype.2
      exact ⟨hkept.trans_nil hkepts, List.Forall₂.cons (hstands.kept hkepts) hstandss,
        List.forall_mem_cons.mpr ⟨heq.trans hdtype.1, hdtypes⟩⟩

omit hE in
/-- The command is that of the common type of the arrays. -/
theorem commandType_eq {ys : List (Operand V)} (hne : ys ≠ []) (hys : ∀ y ∈ ys, ∃ a, y = .array a ∧ a.dtype = d) :
    commandType ys = d := by
  cases ys with
  | nil => exact absurd rfl hne
  | cons y ys =>
    rw [List.forall_mem_cons] at hys
    obtain ⟨⟨a, rfl, rfl⟩, hrest⟩ := hys
    rw [commandType]
    -- the first array decides, the others keep it
    induction ys with
    | nil => rfl
    | cons y ys ih =>
      rw [List.forall_mem_cons] at hrest
      obtain ⟨⟨b, rfl, hb⟩, hrest⟩ := hrest
      dsimp only [List.foldl_cons]
      rw [hb]
      exact ih (List.cons_ne_nil _ _) hrest

omit hE in
theorem map_read {xs ys : List (Operand V)} (h : List.Forall₂ (Stands E out? s₀ s t d) xs ys) {idx : List ℕ}
    (hidx : idx ∈ indices t) : ys.map (Operand.read E d s.mem idx) = xs.map (Operand.at E d s₀.mem idx) := by
  induction h with
  | nil => rfl
  | cons hy _ ih => rw [List.map_cons, List.map_cons, hy.value idx hidx, ih]

omit hE in
/-- The operands of an instruction are arrays of its type. -/
theorem arrays_of_stands {ins : List NpArray} {ys : List (Operand V)}
    (h : List.Forall₂ (Stands E out? s₀ s t d) (ins.map .array) ys) (hdtype : ∀ y ∈ ys, y.dtype = d) :
    ∀ y ∈ ys, ∃ a, y = .array a ∧ a.dtype = d := by
  induction ys generalizing ins with
  | nil => simp
  | cons y ys ih =>
    cases ins with
    | nil => cases h
    | cons a ins =>
      rw [List.forall_mem_cons] at hdtype ⊢
      cases h with
      | cons hy hys =>
        obtain ⟨b, rfl⟩ := hy.array a rfl
        exact ⟨⟨b, rfl, hdtype.1⟩, ih hys hdtype.2⟩

/-- The instruction computes the function of what the arguments were at first. -/
theorem written_enqueue {ins : List NpArray} {ys : List (Operand V)} {target : NpArray} (info : Info) (hne : ins ≠ [])
    (h : List.Forall₂ (Stands E (some target) s₀ s t d) (ins.map .array) ys) (hdtype : ∀ y ∈ ys, y.dtype = d)
    (hbase : target.base < s.nbase) (hinj : target.Injective) (htarget : target.shape = t) :
    Written s (enqueue E info (toBhcs ys s).2 target (toBhcs ys s).1) target (result E s₀ info ins d) := by
  obtain ⟨hkept, hstands, hdtypes⟩ := toBhcs_spec h (by simpa using hbase) hdtype
  generalize toBhcs ys s = r at hkept hstands hdtypes ⊢
  obtain ⟨bhcs, s₁⟩ := r
  dsimp only at hkept hstands hdtypes ⊢
  have harrays := arrays_of_stands hstands hdtypes
  have hbhcs : bhcs ≠ [] := by
    rintro rfl
    cases ins with
    | nil => exact hne rfl
    | cons a ins => cases hstands
  have heq : enqueue E info s₁ target bhcs = targetUfunc E s₁ info.name target bhcs := by
    unfold enqueue
    split
    · obtain ⟨a, ha, _⟩ := harrays _ (List.mem_cons_of_mem _ List.mem_cons_self)
      cases ha
    · rfl
  have hfree : ∀ y ∈ bhcs, y.Free target :=
    ((List.forall₂_and_left _ _).mp (hstands.flip.imp fun _ _ hy => ⟨hy.free target rfl, hy⟩)).1
  rw [heq]
  refine (Written.of_kept hkept (written_targetUfunc hE hinj hfree info.name)).congr fun idx hidx => ?_
  rw [htarget] at hidx
  rw [commandType_eq hbhcs harrays, map_read hstands hidx, result, List.map_map]
  rfl

/-- The instruction that computes a new array. -/
theorem made_enqueue {ins : List NpArray} {ys : List (Operand V)} (info : Info) (hne : ins ≠ [])
    (h : List.Forall₂ (Stands E none s₀ s t d) (ins.map .array) ys) (hdtype : ∀ y ∈ ys, y.dtype = d) (outDtype : ℕ)
    {target : NpArray} {s₁ : State V} (htarget : empty s t outDtype true = (target, s₁)) :
    Made s (enqueue E info (toBhcs ys s₁).2 target (toBhcs ys s₁).1) target t outDtype (result E s₀ info ins d) := by
  obtain ⟨rfl, rfl⟩ := Prod.mk.inj htarget
  refine Written.made (Kept.refl _ _) (written_enqueue hE info hne (h.imp fun _ _ hy => ?_) hdtype (Nat.lt_succ_self s.nbase)
    (injective_empty s t outDtype true) (shape_empty s t outDtype true))
  refine (hy.retarget ?_).kept (kept_empty s t outDtype true)
  rintro out ⟨⟩
  exact le_refl s.nbase

variable {ins bs : List NpArray} (hb : List.Forall₂ (Shows t) (ins.map (Operand.array (V := V))) bs)
include hb

omit hE in
theorem stands_of_shows (hknown : ∀ a ∈ ins, a.base < s.nbase) (hfree : ∀ b ∈ bs, ∀ out ∈ out?, (Operand.array b : Operand V).Free out)
    (d : ℕ) : List.Forall₂ (Stands E out? s s t d) (ins.map .array) (bs.map .array) := by
  induction ins generalizing bs with
  | nil =>
    cases hb
    exact List.Forall₂.nil
  | cons a ins ih =>
    cases hb with
    | @cons _ b _ bs ha hrest =>
      rw [List.forall_mem_cons] at hknown hfree
      refine List.Forall₂.cons ?_ (ih hrest hknown.2 hfree.2)
      have hpresents : Presents t (.array a : Operand V) (.array b) := ⟨b, rfl, ha⟩
      refine hpresents.stands (fun c hc => ?_) hfree.1 d
      exact Operand.array.inj hc ▸ hknown.1

omit hE in
/-- Broadcasting does not change what depends on the bases and on the types. -/
theorem map_of_shows {α : Type} (f : ℕ → ℕ → α) : bs.map (fun b => f b.base b.dtype) = ins.map fun a => f a.base a.dtype := by
  induction ins generalizing bs with
  | nil =>
    cases hb
    rfl
  | cons a ins ih =>
    cases hb with
    | @cons _ b _ bs ha hrest =>
      obtain ⟨hbase, hdtype, _⟩ := ha.2 a rfl
      rw [List.map_cons, List.map_cons, hbase, hdtype, ih hrest]

omit hE in
theorem typeSig_of_shows (info : Info) : typeSig E info (bs.map .array) = typeSig E info (ins.map .array) := by
  have hmap := map_of_shows hb fun _ d => (Sum.inl d : ℕ ⊕ V)
  simp only [typeSig, List.map_map, Function.comp_def, Operand.typeOrSelf, hmap]

theorem launch_none {info : Info} (hne : ins ≠ []) (hlen : ins.length ≤ 2) (hknown : ∀ a ∈ ins, a.base < s.nbase)
    {sig : ℕ × ℕ} (hsig : typeSig E info (ins.map .array) = .ok sig) (depth : ℕ) :
    ∃ tmp s', launch E (depth + 1) info (bs.map .array) none t s = (.ok tmp, s') ∧
      Made s s' tmp t sig.1 (result E s info ins sig.2) := by
  have hfree : ∀ b ∈ bs, ∀ out ∈ (none : Option NpArray), (Operand.array b : Operand V).Free out := by simp
  obtain ⟨ys, s₁, heq, hkept, hstands, hdtype⟩ := convertInputs_spec hE (stands_of_shows hb hknown hfree sig.2) (by simp) depth
  have hlen' : ¬ 2 < (bs.map (Operand.array (V := V))).length := by
    rw [List.length_map, ← hb.length_eq, List.length_map]
    omega
  rw [launch, if_neg hlen', typeSig_of_shows hb, hsig]
  dsimp only
  rw [heq]
  exact ⟨_, _, rfl, (made_enqueue hE info hne hstands hdtype sig.1 rfl).of_kept hkept⟩

theorem launch_some {info : Info} (hne : ins ≠ []) (hlen : ins.length ≤ 2) (hknown : ∀ a ∈ ins, a.base < s.nbase)
    {sig : ℕ × ℕ} (hsig : typeSig E info (ins.map .array) = .ok sig) {out : NpArray} (hbase : out.base < s.nbase)
    (hout : out.Injective) (ht : t = out.shape) (hfree : ∀ b ∈ bs, (Operand.array b : Operand V).Free out) (depth : ℕ) :
    ∃ s', launch E (depth + 1) info (bs.map .array) (some out) t s = (.ok out, s') ∧
      Written s s' out fun idx => E.convert sig.1 out.dtype (result E s info ins sig.2 idx) := by
  have hfree' : ∀ b ∈ bs, ∀ out' ∈ some out, (Operand.array b : Operand V).Free out' := by simpa using hfree
  obtain ⟨ys, s₁, heq, hkept, hstands, hdtype⟩ :=
    convertInputs_spec hE (stands_of_shows hb hknown hfree' sig.2) (by simpa using hbase) depth
  have hlen' : ¬ 2 < (bs.map (Operand.array (V := V))).length := by
    rw [List.length_map, ← hb.length_eq, List.length_map]
    omega
  rw [launch, if_neg hlen', typeSig_of_shows hb, hsig]
  dsimp only
  rw [heq]
  dsimp only
  by_cases hd : sig.1 = out.dtype
  · rw [if_pos hd]
    have hwritten := written_enqueue hE info hne hstands hdtype (hbase.trans_le hkept.nbase) hout ht.symm
    refine ⟨_, rfl, (Written.of_kept hkept hwritten).congr fun idx _ => ?_⟩
    rw [hd, hE.convert_self]
  · rw [if_neg hd]
    cases htarget : empty s₁ t sig.1 true with
    | mk target s₂ =>
      have hnone : List.Forall₂ (Stands E none s s₁ t sig.2) (ins.map .array) ys :=
        hstands.imp fun _ _ hy => ⟨hy.array, hy.shape, hy.known, hy.value, by simp⟩
      have hmade := (made_enqueue hE info hne hnone hdtype sig.1 htarget).of_kept hkept
      obtain ⟨hok, hwritten⟩ := hmade.assign hE hbase hout (ht ▸ fits_refl _) depth
      dsimp only
      generalize assign E (depth + 1) _ _ _ = r at hok hwritten ⊢
      obtain ⟨r, s₃⟩ := r
      obtain rfl : r = .ok () := hok
      refine ⟨s₃, rfl, hwritten.congr fun idx hidx => ?_⟩
      rw [ht, coord_self hidx]

omit hb in
/-- A function of NumPy, computed into an array that is free. -/
theorem written_numpy (info : Info) {target : NpArray} (hinj : target.Injective) (ht : target.shape = t)
    {s₁ : State V} {sig : ℕ × ℕ} (h : List.Forall₂ (Stands E (some target) s s₁ t sig.2) (ins.map .array) (bs.map .array)) :
    Written s₁ (execute E s₁ target fun m idx => E.convert sig.1 target.dtype (E.apply info.name sig.2
        ((bs.map Operand.array).map (Operand.read E sig.2 m idx)))) target
      fun idx => E.convert sig.1 target.dtype (result E s info ins sig.2 idx) := by
  have hfree : ∀ y ∈ bs.map (Operand.array (V := V)), y.Free target :=
    ((List.forall₂_and_left _ _).mp (h.flip.imp fun _ _ hy => ⟨hy.free target rfl, hy⟩)).1
  have hwritten := @written_execute V E hE s₁ target hinj (fun m idx => E.convert sig.1 target.dtype (E.apply info.name sig.2
    ((bs.map Operand.array).map (Operand.read E sig.2 m idx)))) fun i hi j hj hij m v => by
      refine congrArg (fun l => E.convert sig.1 target.dtype (E.apply info.name sig.2 l)) ?_
      exact List.map_congr_left fun x hx => Operand.read_update (hfree x hx) hi hj hij _ m v
  refine hwritten.congr fun idx hidx => ?_
  rw [ht] at hidx
  rw [map_read h hidx, result, List.map_map]
  rfl

omit hE in
theorem signature_of_shows (info : Info) : E.signature info.name ((bs.map Operand.array).map Operand.typeOrSelf) =
    E.signature info.name (ins.map fun a => .inl a.dtype) := by
  rw [List.map_map]
  exact congrArg _ (map_of_shows hb fun _ d => (Sum.inl d : ℕ ⊕ V))

theorem numpyCall_none {info : Info} (hknown : ∀ a ∈ ins, a.base < s.nbase) {sig : ℕ × ℕ}
    (hsig : E.signature info.name (ins.map fun a => .inl a.dtype) = some sig) :
    ∃ tmp s', numpyCall E info (bs.map .array) none t s = (.ok tmp, s') ∧ Made s s' tmp t sig.1 (result E s info ins sig.2) := by
  have hstands := @stands_of_shows V E none s t ins bs hb hknown (by simp) sig.2
  rw [numpyCall, signature_of_shows hb, hsig]
  refine ⟨_, _, rfl, ?_⟩
  refine (Written.made (Kept.refl _ _) (written_numpy hE info (injective_empty s t sig.1 false)
    (shape_empty s t sig.1 false) (hstands.imp fun _ _ hy => ?_))).congr fun idx _ => hE.convert_self _ _
  refine (hy.retarget ?_).kept (kept_empty s t sig.1 false)
  rintro out ⟨⟩
  exact le_refl s.nbase

theorem numpyCall_some {info : Info} (hknown : ∀ a ∈ ins, a.base < s.nbase) {sig : ℕ × ℕ}
    (hsig : E.signature info.name (ins.map fun a => .inl a.dtype) = some sig) {out : NpArray} (hout : out.Injective)
    (ht : t = out.shape) (hfree : ∀ b ∈ bs, (Operand.array b : Operand V).Free out) :
    ∃ s', numpyCall E info (bs.map .array) (some out) t s = (.ok out, s') ∧
      Written s s' out fun idx => E.convert sig.1 out.dtype (result E s info ins sig.2 idx) := by
  have hstands := @stands_of_shows V E (some out) s t ins bs hb hknown (by simpa using hfree) sig.2
  rw [numpyCall, signature_of_shows hb, hsig]
  exact ⟨_, rfl, written_numpy hE info hout ht.symm hstands⟩

omit hE in
theorem zipWith_broadcasted (cs : List NpArray) :
    List.zipWith Operand.broadcasted (ins.map (Operand.array (V := V))) (bs ++ cs) = bs.map .array := by
  induction ins generalizing bs with
  | nil =>
    cases hb
    rfl
  | cons a ins ih =>
    cases hb with
    | cons _ hrest => exact congrArg (Operand.array _ :: ·) (ih hrest)

omit hE in
theorem any_check_of_shows : (bs.map Operand.array).any (Operand.check s) = ins.any (check s) := by
  have hmap := map_of_shows hb fun b _ => s.bohrium b
  have hbs : (bs.map (Operand.array (V := V))).any (Operand.check s) = (bs.map fun b => s.bohrium b.base).any id := by
    rw [List.any_map, List.any_map]
    rfl
  rw [hbs, hmap, List.any_map]
  rfl

omit hE in
theorem launch_error {info : Info} (hlen : ins.length ≤ 2) {e : UfuncError}
    (hsig : typeSig E info (ins.map .array) = .error e) (depth : ℕ) (out? : Option NpArray) :
    launch E depth info (bs.map .array) out? t s = (.error e, s) := by
  have hlen' : ¬ 2 < (bs.map (Operand.array (V := V))).length := by
    rw [List.length_map, ← hb.length_eq, List.length_map]
    omega
  rw [launch, if_neg hlen', typeSig_of_shows hb, hsig]

omit hE in
theorem numpyCall_error {info : Info} (hsig : E.signature info.name (ins.map fun a => .inl a.dtype) = none)
    (out? : Option NpArray) : numpyCall E info (bs.map .array) out? t s = (.error .typeError, s) := by
  rw [numpyCall, signature_of_shows hb, hsig]

theorem compute_none {info : Info} (hne : ins ≠ []) (hlen : ins.length ≤ 2) (hknown : ∀ a ∈ ins, a.base < s.nbase) (depth : ℕ) :
    (∀ sig, chosen E info ins (ins.any (check s)) = some sig → ∃ tmp s',
      compute E (depth + 1) info (ins.map .array) bs none t s = (.ok tmp, s') ∧
        Made s s' tmp t sig.1 (result E s info ins sig.2)) ∧
    (chosen E info ins (ins.any (check s)) = none → ∃ e,
      compute E (depth + 1) info (ins.map .array) bs none t s = (.error e, s)) := by
  have hargs := zipWith_broadcasted hb []
  rw [List.append_nil] at hargs
  unfold compute
  dsimp only
  rw [hargs, any_check_of_shows hb]
  unfold chosen
  cases hany : ins.any (check s) with
  | true =>
    rw [if_pos rfl, if_pos rfl, Option.any_none, if_neg Bool.false_ne_true]
    cases hsig : typeSig E info (ins.map .array) with
    | error e => exact ⟨fun sig h => (Option.some_ne_none sig h.symm).elim, fun _ => ⟨e, launch_error hb hlen hsig _ _⟩⟩
    | ok sig =>
      refine ⟨fun sig' h => ?_, fun h => (Option.some_ne_none _ h).elim⟩
      obtain rfl : sig = sig' := Option.some.inj h
      exact launch_none hE hb hne hlen hknown hsig depth
  | false =>
    rw [if_neg Bool.false_ne_true, if_neg Bool.false_ne_true, Option.any_none, if_neg Bool.false_ne_true]
    cases hsig : E.signature info.name (ins.map fun a => .inl a.dtype) with
    | none => exact ⟨fun sig h => (Option.some_ne_none sig h.symm).elim, fun _ => ⟨_, numpyCall_error hb hsig _⟩⟩
    | some sig =>
      refine ⟨fun sig' h => ?_, fun h => (Option.some_ne_none _ h).elim⟩
      obtain rfl : sig = sig' := Option.some.inj h
      exact numpyCall_none hE hb hknown hsig

/-- With an output that is free, `__call__` is right. -/
theorem compute_some {info : Info} (hne : ins ≠ []) (hlen : ins.length + 1 = info.nop) (hknown : ∀ a ∈ ins, a.base < s.nbase)
    {out : NpArray} (hbase : out.base < s.nbase) (hout : out.Injective) (ht : t = out.shape)
    (hfree : ∀ b ∈ bs, (Operand.array b : Operand V).Free out) (depth : ℕ) (cs : List NpArray) :
    Answered E s info ins out (compute E (depth + 1) info (ins.map .array) (bs ++ cs) (some out) t s) := by
  have hlen2 : ins.length ≤ 2 := by
    have hnop := info.operands
    omega
  unfold compute
  dsimp only
  rw [zipWith_broadcasted hb cs, any_check_of_shows hb, Option.any_some, Option.any_some]
  by_cases hrefuse : ins.any (check s) = true ∧ check s out = false
  · rw [if_pos hrefuse.1, hrefuse.2, Bool.not_false, if_pos rfl]
    refine Answered.of_error (fun h => ?_) (Kept.refl s [])
    have hcheck := h.2.2 hrefuse.1
    rw [hrefuse.2] at hcheck
    cases hcheck
  · by_cases hbohrium : (ins.any (check s) || check s out) = true
    · -- either way it is `launch`
      have hlaunch : (if ins.any (check s) = true then
          if (!check s out) = true then (.error .outputMustBeBohrium, s)
          else launch E (depth + 1) info (bs.map .array) (some out) t s
          else if check s out = true then launch E (depth + 1) info (bs.map .array) (some out) t s
          else numpyCall E info (bs.map .array) (some out) t s) = launch E (depth + 1) info (bs.map .array) (some out) t s := by
        cases hany : ins.any (check s) <;> cases hcheck : check s out <;> simp_all
      rw [hlaunch]
      cases hsig : typeSig E info (ins.map .array) with
      | error e =>
        rw [launch_error hb hlen2 hsig]
        refine Answered.of_error (fun h => ?_) (Kept.refl s [])
        have htypes := h.2.1
        rw [types, hbohrium, chosen, if_pos rfl, hsig] at htypes
        cases htypes
      | ok sig =>
        obtain ⟨s', heq, hwritten⟩ := launch_some hE hb hne hlen2 hknown hsig hbase hout ht hfree depth
        rw [heq]
        refine Answered.of_done ⟨sig, ?_, rfl, hwritten⟩
        rw [types, hbohrium, chosen, if_pos rfl, hsig]
        rfl
    · rw [Bool.not_eq_true, Bool.or_eq_false_iff] at hbohrium
      rw [hbohrium.1, hbohrium.2, if_neg Bool.false_ne_true, if_neg Bool.false_ne_true]
      have htypes : types E s info ins out = E.signature info.name (ins.map fun a => .inl a.dtype) := by
        rw [types, hbohrium.1, hbohrium.2]
        rfl
      cases hsig : E.signature info.name (ins.map fun a => .inl a.dtype) with
      | none =>
        rw [numpyCall_error hb hsig]
        refine Answered.of_error (fun h => ?_) (Kept.refl s [])
        have hno := h.2.1
        rw [htypes, hsig] at hno
        cases hno
      | some sig =>
        obtain ⟨s', heq, hwritten⟩ := numpyCall_some hE hb hknown hsig hout ht hfree
        rw [heq]
        exact Answered.of_done ⟨sig, htypes.trans hsig, rfl, hwritten⟩

omit hb in
/-- The call without an output, as the code makes it when there is a conflict. -/
theorem call_none {info : Info} (hne : ins ≠ []) (hlen : ins.length + 1 = info.nop) (hknown : ∀ a ∈ ins, a.base < s.nbase)
    {t' : List ℕ} (hfits : ∀ a ∈ ins, Fits a.shape t') (depth : ℕ) :
    (∀ sig, chosen E info ins (ins.any (check s)) = some sig → ∃ t tmp s',
      call E (depth + 2) info (ins.map .array) none s = (.ok tmp, s') ∧ Fits t t' ∧ (∀ a ∈ ins, Fits a.shape t) ∧
        Made s s' tmp t sig.1 (result E s info ins sig.2)) ∧
    (chosen E info ins (ins.any (check s)) = none → ∃ e,
      call E (depth + 2) info (ins.map .array) none s = (.error e, s)) := by
  have hlen2 : ins.length ≤ 2 := by
    have hnop := info.operands
    omega
  rw [call, if_neg (by simpa using hlen)]
  rw [Option.toList_none, List.map_nil, List.append_nil]
  cases hb : broadcastArrays E (ins.map .array) with
  | none => exact absurd ⟨t', by simpa [Operand.shape] using hfits⟩ (broadcastArrays_none hE hb)
  | some bargs =>
    obtain ⟨t, ht, hshows⟩ := broadcastArrays_some hE hb
    have hle : Fits t t' := ht.2 t' (by simpa [Operand.shape] using hfits)
    have hall : ∀ a ∈ ins, Fits a.shape t := fun a ha => ht.1 (.array a) (List.mem_map_of_mem ha)
    have hlast : (bargs.getLast?.map NpArray.shape).getD [] = t := by
      cases hbargs : bargs.getLast? with
      | none =>
        rw [List.getLast?_eq_none_iff.mp hbargs] at hshows
        exact absurd (List.map_eq_nil_iff.mp (List.forall₂_nil_right_iff.mp hshows)) hne
      | some b => exact shape_of_shows hshows b (List.mem_of_getLast? hbargs)
    dsimp only
    rw [hlast]
    obtain ⟨hsome, hnone⟩ := compute_none hE hshows hne hlen2 hknown depth
    refine ⟨fun sig hsig => ?_, hnone⟩
    obtain ⟨tmp, s', heq, hmade⟩ := hsome sig hsig
    exact ⟨t, tmp, s', heq, hle, hall, hmade⟩

theorem frees_of_no_conflict {out : NpArray} (hout : out.Injective) (hno : overlapConflict E out (ins.map .array) = false)
    (hfits : ∀ a ∈ ins, Fits a.shape out.shape) (ht : t = out.shape) : ∀ b ∈ bs, (Operand.array b : Operand V).Free out := by
  induction ins generalizing bs with
  | nil =>
    cases hb
    simp
  | cons a ins ih =>
    cases hb with
    | cons ha hrest =>
      rw [List.forall_mem_cons] at hfits ⊢
      obtain ⟨hfirst, hnos⟩ := Bool.or_eq_false_iff.mp hno
      refine ⟨free_of_no_conflict hE hout ?_ (ht ▸ ha) hfits.1, ih hrest hnos hfits.2⟩
      exact (Bool.or_false _).trans hfirst

omit hb in
/-- A conflict is with an array on the same base, which is a Bohrium array or is not, like the result. -/
theorem check_of_conflict {out : NpArray} (hc : overlapConflict E out (ins.map .array) = true) :
    ∃ a ∈ ins, check s a = check s out := by
  simp only [overlapConflict, List.any_map, List.any_eq_true, Function.comp_apply, Bool.and_eq_true] at hc
  obtain ⟨a, ha, hshare, _⟩ := hc
  refine ⟨a, ha, ?_⟩
  by_contra hne
  have hbase : out.base ≠ a.base := fun heq => hne (congrArg s.bohrium heq.symm)
  rw [hE.apart out a hbase] at hshare
  cases hshare

omit hb in
/-- With a conflict, the result is computed into a temporary array. -/
theorem call_of_conflict {info : Info} (hne : ins ≠ []) (hlen : ins.length + 1 = info.nop) (hknown : ∀ a ∈ ins, a.base < s.nbase)
    {out : NpArray} (hbase : out.base < s.nbase) (hout : out.Injective) (hfits : ∀ a ∈ ins, Fits a.shape out.shape)
    (hc : overlapConflict E out (ins.map .array) = true) (depth : ℕ) {bargs : List NpArray}
    (hb : broadcastArrays E (ins.map .array ++ [.array out]) = some bargs)
    (hlast : (bargs.getLast?.map NpArray.shape).getD [] = out.shape) :
    Answered E s info ins out (call E (depth + 3) info (ins.map .array) (some out) s) := by
  have hbohrium : (ins.any (check s) || check s out) = ins.any (check s) := by
    obtain ⟨a, ha, hcheck⟩ := check_of_conflict (s := s) hE hc
    rw [Bool.or_eq_left_iff_imp, ← hcheck]
    exact fun h => List.any_eq_true.mpr ⟨a, ha, h⟩
  obtain ⟨hsome, hnone⟩ := call_none hE hne hlen hknown hfits depth
  rw [call, if_neg (by simpa using hlen)]
  rw [Option.toList_some, List.map_singleton, hb]
  dsimp only
  rw [hlast, if_neg (not_not_intro rfl), if_pos hc]
  cases hsig : chosen E info ins (ins.any (check s)) with
  | none =>
    obtain ⟨e, he⟩ := hnone hsig
    rw [he]
    refine Answered.of_error (fun h => ?_) (Kept.refl s [])
    have htypes := h.2.1
    rw [types, hbohrium, hsig] at htypes
    cases htypes
  | some sig =>
    obtain ⟨t, tmp, s₁, heq, hle, hall, hmade⟩ := hsome sig hsig
    obtain ⟨hok, hwritten⟩ := hmade.assign hE hbase hout hle (depth + 1)
    rw [heq]
    dsimp only
    generalize assign E (depth + 2) (.array tmp) out s₁ = r at hok hwritten ⊢
    obtain ⟨r, s₂⟩ := r
    obtain rfl : r = .ok () := hok
    refine Answered.of_done ⟨sig, ?_, rfl, hwritten.congr fun idx _ => ?_⟩
    · rw [types, hbohrium, hsig]
    · refine congrArg (fun l => E.convert sig.1 out.dtype (E.apply info.name sig.2 l)) (List.map_congr_left fun a ha => ?_)
      rw [Operand.at, Operand.at, coord_coord (hall a ha)]

omit hb in
/-- Whatever the operands share, a call computes what its inputs were before. -/
theorem callRight {info : Info} (hknown : ∀ a ∈ ins, a.base < s.nbase) {out : NpArray}
    (hbase : out.base < s.nbase) (hout : out.Injective) (depth : ℕ) : CallRight E (depth + 3) s info ins out := by
  unfold CallRight
  by_cases hlen : ins.length + 1 = info.nop
  · have hne : ins ≠ [] := by
      rintro rfl
      have hnop := info.operands
      simp only [List.length_nil] at hlen
      omega
    cases hb : broadcastArrays E (ins.map .array ++ [.array out]) with
    | none =>
      have hno : ¬ ∀ a ∈ ins, Fits a.shape out.shape := by
        intro hfits
        refine broadcastArrays_none hE hb ⟨out.shape, fun x hx => ?_⟩
        obtain hx | hx := List.mem_append.mp hx
        · obtain ⟨a, ha, rfl⟩ := List.mem_map.mp hx
          exact hfits a ha
        · obtain rfl := List.mem_singleton.mp hx
          exact fits_refl _
      rw [if_neg hno, call, if_neg (by simpa using hlen), Option.toList_some, List.map_singleton, hb]
      exact ⟨⟨_, rfl⟩, Kept.refl s []⟩
    | some bargs =>
      obtain ⟨t, ht, hshows⟩ := broadcastArrays_some hE hb
      obtain ⟨bs, c, rfl, hbs, hc⟩ := forall₂_concat hshows
      have hlast : ((bs ++ [c]).getLast?.map NpArray.shape).getD [] = t := by
        rw [List.getLast?_concat]
        exact hc.1
      have hiff := common_append_singleton ht
      by_cases hfits : ∀ a ∈ ins, Fits a.shape out.shape
      · have htout : t = out.shape := hiff.mpr fun x hx => by
          obtain ⟨a, ha, rfl⟩ := List.mem_map.mp hx
          exact hfits a ha
        rw [if_pos hfits]
        cases hconflict : overlapConflict E out (ins.map .array) with
        | true => exact call_of_conflict hE hne hlen hknown hbase hout hfits hconflict depth hb (hlast.trans htout)
        | false =>
          rw [call, if_neg (by simpa using hlen), Option.toList_some, List.map_singleton, hb]
          dsimp only
          rw [hlast, if_neg (not_not_intro htout), hconflict, if_neg Bool.false_ne_true]
          exact compute_some hE hbs hne hlen hknown hbase hout htout
            (frees_of_no_conflict hE hbs hout hconflict hfits htout) (depth + 1) [c]
      · have htout : t ≠ out.shape := fun heq => hfits fun a ha => hiff.mp heq (.array a) (List.mem_map_of_mem ha)
        rw [if_neg hfits, call, if_neg (by simpa using hlen), Option.toList_some, List.map_singleton, hb]
        dsimp only
        rw [hlast, if_pos htout]
        split
        · exact ⟨⟨_, rfl⟩, Kept.refl s []⟩
        · exact ⟨⟨_, rfl⟩, Kept.refl s []⟩
  · have hcall : call E (depth + 3) info (ins.map .array) (some out) s = (.error .invalidNumber, s) := by
      rw [call, if_pos (by simpa using hlen)]
    rw [hcall]
    split
    · exact Answered.of_error (fun h => hlen h.1) (Kept.refl s [])
    · exact ⟨⟨_, rfl⟩, Kept.refl s []⟩

end Call

/-- Every call is right, and an assignment is right exactly if the argument fits, or if the shapes cannot be
broadcast together. -/
theorem overlap_iff (E : Environment V) (hE : Documented E) (depth : ℕ) (s : State V) (out : NpArray) (hbase : out.base < s.nbase)
    (hout : out.Injective) :
    (∀ info ins, (∀ a ∈ ins, a.base < s.nbase) → CallRight E (depth + 3) s info ins out) ∧
      ∀ ary : Operand V, ary.Known s → (AssignRight E (depth + 2) s ary out ↔
        Fits ary.shape out.shape ∨ ¬ ∃ t, Fits ary.shape t ∧ Fits out.shape t) :=
  ⟨fun _ _ hknown => callRight hE hknown hbase hout depth,
    fun _ hknown => assignRight_iff_fits hE hknown hbase hout depth⟩

/-! ## NumPy on integers -/

/-- An argument in the lengths `t`, which are given from the last one on. -/
def widened (t : List ℕ) : Operand ℤ → NpArray
  | .scalar _ d => ⟨0, d, 0, (widen t []).reverse⟩
  | .array a => { a with dims := (widen t a.dims.reverse).reverse }

/-- Integers of one type, executed in row-major order; the function of every name is a sum. -/
def integers : Environment ℤ where
  broadcastArrays xs := (joinAll (xs.map fun x => x.shape.reverse)).map fun t => xs.map (widened t)
  mayShareMemory a b := a.base == b.base
  getitem a loc := if loc = [.ellipsis] then some a else none
  resultType _ := 0
  signature _ _ := some (0, 0)
  isTwo v := v == 2
  convert _ _ v := v
  apply _ _ vs := vs.sum
  order _ idxs := idxs

theorem shows_widened {t : List ℕ} {x : Operand ℤ} (h : BroadcastsTo x.shape.reverse t) : Shows t.reverse x (widened t x) := by
  cases x with
  | scalar v d =>
    refine ⟨?_, fun a ha => by cases ha⟩
    rw [widened, NpArray.shape, List.map_reverse, shape_widen]
  | array a =>
    refine ⟨by rw [widened, NpArray.shape, List.map_reverse, shape_widen], fun b hb => ?_⟩
    obtain rfl := Operand.array.inj hb
    refine ⟨rfl, rfl, fun idx hidx => ?_⟩
    have hlen : idx.reverse.length = t.length := by
      rw [mem_indices] at hidx
      simpa using hidx.length_eq
    have hle : a.dims.reverse.length ≤ t.length := by simpa [Operand.shape, NpArray.shape] using h.length_le
    have hcoord : (coordinate a.shape.reverse idx.reverse).reverse.length = a.dims.length := by
      rw [List.length_reverse, coordinate, List.length_zipWith, List.length_reverse, NpArray.shape, List.length_map]
      rw [List.length_reverse] at hle
      omega
    have hwiden : idx.reverse.length = (widen t a.dims.reverse).length := by
      rw [hlen, ← List.length_map Dim.shape, shape_widen]
    have hdot : Strided.dot (widen t a.dims.reverse).reverse idx = Strided.dot a.dims (coord a.shape idx) := by
      have hleft := dot_reverse hwiden
      have hright := dot_reverse hcoord
      rw [List.reverse_reverse] at hleft hright
      rw [hleft, dot_widen hlen hle, List.map_reverse]
      exact hright
    exact congrArg (Prod.mk _) (congrArg (_ + ·) hdot)

theorem documented_integers : Documented integers where
  broadcast_none xs h := by
    rintro ⟨t, ht⟩
    obtain ⟨ms, hms, _⟩ := @joinAll_of_le (xs.map fun x => x.shape.reverse) t.reverse (by simpa [Fits] using ht)
    have hnone := Option.map_eq_none_iff.mp h
    rw [hms] at hnone
    cases hnone
  broadcast_some xs bs h := by
    obtain ⟨t, ht, rfl⟩ := Option.map_eq_some_iff.mp h
    have hle := joinAll_eq_some ht
    refine ⟨t.reverse, ⟨fun x hx => ?_, fun t' ht' => ?_⟩, ?_⟩
    · rw [Fits, List.reverse_reverse]
      exact hle _ (List.mem_map_of_mem hx)
    · obtain ⟨ms, hms, hms'⟩ := @joinAll_of_le (xs.map fun x => x.shape.reverse) t'.reverse (by simpa [Fits] using ht')
      rw [Fits, List.reverse_reverse]
      rw [ht] at hms
      exact Option.some.inj hms ▸ hms'
    · rw [List.forall₂_map_right_iff, List.forall₂_same]
      exact fun x hx => shows_widened (hle _ (List.mem_map_of_mem hx))
  share a b i j _ _ h := beq_iff_eq.mpr (congrArg Prod.fst h)
  apart a b h := beq_eq_false_iff_ne.mpr h
  ellipsis a := rfl
  order _ idxs := List.Perm.refl idxs
  convert_self _ _ := rfl

/-- One base of four integers, its own indices. -/
def line : State ℤ := ⟨Prod.snd, fun _ => true, 1, 0⟩

/-- The three elements of the line from `data` on. -/
def window (data : ℤ) : NpArray := ⟨0, 0, data, [⟨3, 1⟩]⟩

/-- Two overlapping windows are added into the first one. -/
theorem overlap_iff_window : CallRight integers 3 line ⟨"add", 3, [(0, 0)], Or.inr rfl⟩ [window 0, window 1] (window 0) :=
  (overlap_iff integers documented_integers 0 line (window 0) (by decide) (by unfold NpArray.Injective; decide)).1 _ _ (by decide)

/-- Three elements are assigned to an array with one, and no exception is raised. -/
theorem not_assignRight_window : ¬ AssignRight integers 2 line (.array (window 1)) ⟨0, 0, 0, [⟨1, 1⟩]⟩ := by
  unfold AssignRight
  rw [if_neg (by decide)]
  rintro ⟨⟨e, he⟩, _⟩
  have hknown : (Operand.array (window 1) : Operand ℤ).Known line := by
    rintro a ha
    obtain rfl := Operand.array.inj ha
    decide
  have hfits : Fits (Operand.array (window 1) : Operand ℤ).shape [3] ∧ Fits (NpArray.mk 0 0 0 [⟨1, 1⟩]).shape [3] := by
    decide
  rw [assign_of_compatible documented_integers hknown (by decide) hfits 0] at he
  cases he

end Bohrium.Npbackend.Ufunc
