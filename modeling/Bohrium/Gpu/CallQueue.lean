import Bohrium.Core.Instruction

/-! # The call queue of the GPU engine

`compileAndRun` and `build` of `ve/gpu/InstructionScheduler.cpp`. One thread schedules; every
`build` is a thread of its own unless kernels are compiled synchronously. A critical section under
`kernelMutex` is one step, and so is the start of a build. `knownKernelID` belongs to the
scheduling thread alone. The kernels that are called and the arrays that are deleted are logged. -/
namespace Bohrium.Gpu
set_option autoImplicit false

/-! ## Kernels and calls -/

/-- `KernelID`: the function ID and the literal ID, the latter 0 for a dynamic-size kernel. -/
abbrev KernelID := ℕ × ℕ

/-- `KernelParameter`: a `BaseArray` or a `Scalar`. -/
inductive KernelParameter
  | array (ary : ℕ)
  | scalar (value : BhConstant)
  deriving DecidableEq, Repr

/-- `SourceKernelCall`. -/
structure SourceKernelCall where
  id : KernelID
  shape : List ℕ
  source : String
  sizeParameters : List ℤ
  valueParameters : List (KernelParameter × Bool)
  discardSet : List ℕ
  deriving DecidableEq, Repr

namespace SourceKernelCall

def functionID (k : SourceKernelCall) : ℕ := k.id.1

def literalID (k : SourceKernelCall) : ℕ := k.id.2

end SourceKernelCall

/-- A compiled kernel: its name, its source, and whether `-DFIXED_SIZE` was given. -/
structure Kernel where
  functionID : ℕ
  fixedSize : Bool
  source : String
  deriving DecidableEq, Repr

/-- `KernelCall`, an entry of the call queue. -/
abbrev KernelCall := KernelID × SourceKernelCall

/-- What happens on the device side. -/
inductive Event
  | call (kernel : Kernel) (c : KernelCall)
  | delete (ary : ℕ)
  deriving DecidableEq, Repr

/-- `Kernel::call` followed by `deleteBuffers`. -/
def callEvents (kernel : Kernel) (c : KernelCall) : List Event := .call kernel c :: c.2.discardSet.map .delete

/-! ## The scheduler's state -/

/-- The switches of the resource manager. -/
structure Config where
  fixedSizeKernel : Bool
  dynamicSizeKernel : Bool
  asyncCompile : Bool

/-- `starting` are the builds that `compileAndRun` is about to start, `building` those that run. -/
structure State where
  knownKernelID : List (ℕ × ℕ) := []
  kernelMap : List (KernelID × Kernel) := []
  callQueue : List KernelCall := []
  starting : List (KernelID × String) := []
  building : List (KernelID × String) := []
  log : List Event := []
  deriving DecidableEq, Repr

/-- `insert` of a map: an entry that is there stays. -/
def mapInsert {α β : Type} [BEq α] (m : List (α × β)) (k : α) (v : β) : List (α × β) :=
  if (m.lookup k).isSome then m else m ++ [(k, v)]

def State.push (s : State) (c : KernelCall) : State := { s with callQueue := s.callQueue ++ [c] }

/-- The branch of `compileAndRun` for a kernel that is known. -/
def runKnown (s : State) (c : KernelCall) : State :=
  if s.callQueue = [] then
    match s.kernelMap.lookup c.1 with
    | none => s.push c
    | some kernel => { s with log := s.log ++ callEvents kernel c }
  else s.push c

/-- The branch for a new kernel, up to the start of its builds. -/
def runNew (cfg : Config) (s : State) (k : SourceKernelCall) : State :=
  let kernelID : KernelID := (k.functionID, if cfg.fixedSizeKernel then k.literalID else 0)
  { s.push (kernelID, k) with
    knownKernelID := mapInsert s.knownKernelID kernelID.1 kernelID.2
    starting := (if cfg.fixedSizeKernel then [(k.id, k.source)] else []) ++
      (if cfg.dynamicSizeKernel then [((k.functionID, 0), k.source)] else []) }

/-- `compileAndRun`. -/
def compileAndRun (cfg : Config) (s : State) (k : SourceKernelCall) : State :=
  match s.knownKernelID.lookup k.functionID with
  | some literal =>
    if cfg.dynamicSizeKernel ∨ literal = k.literalID then
      runKnown s ((k.functionID, if literal = k.literalID then literal else 0), k)
    else runNew cfg s k
  | none => runNew cfg s k

/-- The loop of `build`: the queue is called from its front as long as the kernels are there. -/
def drain (kernels : List (KernelID × Kernel)) : List KernelCall → List Event × List KernelCall
  | [] => ([], [])
  | c :: queue =>
    match kernels.lookup c.1 with
    | some kernel =>
      let r := drain kernels queue
      (callEvents kernel c ++ r.1, r.2)
    | none => ([], c :: queue)

/-- `build`, from the insertion of the compiled kernel on. -/
def build (s : State) (b : KernelID × String) : State :=
  let kernelMap := mapInsert s.kernelMap b.1 ⟨b.1.1, b.1.2 ≠ 0, b.2⟩
  let r := drain kernelMap s.callQueue
  { s with kernelMap := kernelMap, callQueue := r.2, log := s.log ++ r.1 }

/-! ## Runs -/

/-- A step that no call of `compileAndRun` begins: a build is started, or it ends. -/
inductive Internal (cfg : Config) : State → State → Prop
  | start {s : State} {b : KernelID × String} {rest : List (KernelID × String)}
      (hasync : cfg.asyncCompile = true) (hs : s.starting = b :: rest) :
      Internal cfg s { s with starting := rest, building := s.building ++ [b] }
  | here {s : State} {b : KernelID × String} {rest : List (KernelID × String)}
      (hsync : cfg.asyncCompile = false) (hs : s.starting = b :: rest) :
      Internal cfg s (build { s with starting := rest } b)
  | finish {s : State} {b : KernelID × String} {pre post : List (KernelID × String)}
      (hs : s.building = pre ++ b :: post) :
      Internal cfg s (build { s with building := pre ++ post } b)

/-- The states that the calls `submitted`, in this order, can lead to. -/
inductive Runs (cfg : Config) : List SourceKernelCall → State → Prop
  | init : Runs cfg [] {}
  | submit {submitted : List SourceKernelCall} {s : State} (k : SourceKernelCall) (h : Runs cfg submitted s)
      (hs : s.starting = []) : Runs cfg (submitted ++ [k]) (compileAndRun cfg s k)
  | internal {submitted : List SourceKernelCall} {s s' : State} (h : Runs cfg submitted s)
      (hstep : Internal cfg s s') : Runs cfg submitted s'

/-! ## What the operations do -/

/-- The calls of a log. -/
def calls (log : List Event) : List KernelCall :=
  log.filterMap fun
    | .call _ c => some c
    | .delete _ => none

theorem calls_append (l l' : List Event) : calls (l ++ l') = calls l ++ calls l' := List.filterMap_append

theorem calls_callEvents (kernel : Kernel) (c : KernelCall) : calls (callEvents kernel c) = [c] := by
  have hdelete : calls (c.2.discardSet.map .delete) = [] := by
    simp [calls, List.filterMap_map]
  unfold callEvents
  rw [← List.singleton_append, calls_append, hdelete]
  rfl

theorem call_mem_callEvents {kernel kernel' : Kernel} {c c' : KernelCall}
    (h : Event.call kernel' c' ∈ callEvents kernel c) : kernel' = kernel ∧ c' = c := by
  simpa [callEvents] using h

section Map
variable {α β : Type} [BEq α] {m : List (α × β)} {k j : α} {v w : β}

theorem lookup_append_singleton : (m ++ [(k, v)]).lookup j = (m.lookup j).or (if j == k then some v else none) := by
  induction m with
  | nil =>
    rw [List.nil_append, List.lookup_cons]
    cases j == k <;> rfl
  | cons p m ih =>
    rw [List.cons_append, List.lookup_cons, List.lookup_cons, ih]
    cases j == p.1 <;> rfl

theorem lookup_mapInsert_of_some (h : m.lookup j = some w) : (mapInsert m k v).lookup j = some w := by
  unfold mapInsert
  split_ifs
  · exact h
  · rw [lookup_append_singleton, h]
    rfl

variable [LawfulBEq α]

theorem isSome_lookup_mapInsert : ((mapInsert m k v).lookup k).isSome := by
  unfold mapInsert
  split_ifs with h
  · exact h
  · rw [lookup_append_singleton, if_pos (beq_self_eq_true k)]
    cases m.lookup k <;> rfl

theorem lookup_mapInsert_cases (h : (mapInsert m k v).lookup j = some w) : m.lookup j = some w ∨ j = k ∧ w = v := by
  unfold mapInsert at h
  split_ifs at h with hk
  · exact Or.inl h
  · rw [lookup_append_singleton] at h
    cases hj : m.lookup j with
    | some u =>
      rw [hj] at h
      exact Or.inl h
    | none =>
      rw [hj, Option.none_or] at h
      split_ifs at h with hjk
      exact Or.inr ⟨eq_of_beq hjk, (Option.some.inj h).symm⟩

end Map

/-- The loop of `build` calls a front part of the queue, each kernel with its entry. -/
theorem drain_spec (kernels : List (KernelID × Kernel)) (queue : List KernelCall) :
    calls (drain kernels queue).1 ++ (drain kernels queue).2 = queue ∧
      (∀ kernel c, .call kernel c ∈ (drain kernels queue).1 → kernels.lookup c.1 = some kernel) ∧
      ((∀ c ∈ queue, (kernels.lookup c.1).isSome) → (drain kernels queue).2 = []) := by
  induction queue with
  | nil => exact ⟨rfl, nofun, fun _ => rfl⟩
  | cons c queue ih =>
    obtain ⟨horder, hentry, hall⟩ := ih
    unfold drain
    cases hc : kernels.lookup c.1 with
    | none =>
      refine ⟨rfl, nofun, fun h => ?_⟩
      have hsome := h c List.mem_cons_self
      rw [hc] at hsome
      cases hsome
    | some kernel =>
      refine ⟨?_, ?_, fun h => hall fun c' hc' => h c' (List.mem_cons_of_mem c hc')⟩
      · dsimp only
        rw [calls_append, calls_callEvents, List.append_assoc, horder]
        rfl
      · intro kernel' c' hmem
        rcases List.mem_append.mp hmem with hmem | hmem
        · obtain ⟨rfl, rfl⟩ := call_mem_callEvents hmem
          exact hc
        · exact hentry kernel' c' hmem

/-! ## The invariant -/

/-- The kernel is there, or a build will bring it. -/
def State.Covered (s : State) (id : KernelID) : Prop :=
  (s.kernelMap.lookup id).isSome ∨ id ∈ s.starting.map Prod.fst ∨ id ∈ s.building.map Prod.fst

structure Inv (cfg : Config) (submitted : List SourceKernelCall) (s : State) : Prop where
  order : (calls s.log ++ s.callQueue).map Prod.snd = submitted
  entries : ∀ kernel c, .call kernel c ∈ s.log → s.kernelMap.lookup c.1 = some kernel
  ids : ∀ c ∈ calls s.log ++ s.callQueue, c.1 = c.2.id ∨ c.1 = (c.2.functionID, 0)
  known : ∀ f l, s.knownKernelID.lookup f = some l →
    (if cfg.fixedSizeKernel then s.Covered (f, l) else l = 0) ∧ (cfg.dynamicSizeKernel = true → s.Covered (f, 0))
  covered : ∀ c ∈ s.callQueue, s.Covered c.1
  idle : s.starting = [] → s.building = [] → s.callQueue = []

variable {cfg : Config} {submitted : List SourceKernelCall} {s s' : State}

/-- Coverage is all that the known kernels need. -/
theorem known_of_covered {known : List (ℕ × ℕ)} (hcov : ∀ id, s.Covered id → s'.Covered id)
    (h : ∀ f l, known.lookup f = some l →
      (if cfg.fixedSizeKernel then s.Covered (f, l) else l = 0) ∧ (cfg.dynamicSizeKernel = true → s.Covered (f, 0))) :
    ∀ f l, known.lookup f = some l →
      (if cfg.fixedSizeKernel then s'.Covered (f, l) else l = 0) ∧
        (cfg.dynamicSizeKernel = true → s'.Covered (f, 0)) := by
  intro f l hl
  obtain ⟨hfixed, hdynamic⟩ := h f l hl
  refine ⟨?_, fun hd => hcov _ (hdynamic hd)⟩
  split_ifs at hfixed ⊢
  · exact hcov _ hfixed
  · exact hfixed

theorem Inv.push {c : KernelCall} (h : Inv cfg submitted s) (hid : c.1 = c.2.id ∨ c.1 = (c.2.functionID, 0))
    (hcov : s.Covered c.1) (hbusy : s.callQueue = [] → s.kernelMap.lookup c.1 = none) :
    Inv cfg (submitted ++ [c.2]) (s.push c) := by
  have hlist : calls s.log ++ (s.callQueue ++ [c]) = calls s.log ++ s.callQueue ++ [c] :=
    (List.append_assoc _ _ _).symm
  refine ⟨?_, h.entries, ?_, h.known, ?_, ?_⟩
  · show (calls s.log ++ (s.callQueue ++ [c])).map Prod.snd = _
    rw [hlist, List.map_append, h.order]
    rfl
  · intro d hd
    have hd' : d ∈ calls s.log ++ (s.callQueue ++ [c]) := hd
    rw [hlist, List.mem_append, List.mem_singleton] at hd'
    rcases hd' with hd' | rfl
    · exact h.ids d hd'
    · exact hid
  · intro d hd
    rcases List.mem_append.mp hd with hd | hd
    · exact h.covered d hd
    · rw [List.mem_singleton.mp hd]
      exact hcov
  · intro hstart hbuild
    have hnone := hbusy (h.idle hstart hbuild)
    rcases hcov with hsome | hmem | hmem
    · rw [hnone] at hsome
      cases hsome
    · have hnil : s.starting = [] := hstart
      rw [hnil] at hmem
      cases hmem
    · have hnil : s.building = [] := hbuild
      rw [hnil] at hmem
      cases hmem

theorem Inv.runKnown {c : KernelCall} (h : Inv cfg submitted s) (hid : c.1 = c.2.id ∨ c.1 = (c.2.functionID, 0))
    (hcov : s.Covered c.1) : Inv cfg (submitted ++ [c.2]) (runKnown s c) := by
  unfold Gpu.runKnown
  by_cases hq : s.callQueue = []
  · rw [if_pos hq]
    cases hk : s.kernelMap.lookup c.1 with
    | none => exact h.push hid hcov fun _ => hk
    | some kernel =>
      -- the queue is empty and the kernel there: the call overtakes nothing
      have horder := h.order
      rw [hq, List.append_nil] at horder
      refine ⟨?_, ?_, ?_, h.known, ?_, fun _ _ => hq⟩
      · dsimp only
        rw [calls_append, calls_callEvents, hq, List.append_nil, List.map_append, horder]
        rfl
      · intro kernel' c' hmem
        rcases List.mem_append.mp hmem with hmem | hmem
        · exact h.entries kernel' c' hmem
        · obtain ⟨rfl, rfl⟩ := call_mem_callEvents hmem
          exact hk
      · intro d hd
        dsimp only at hd
        rw [calls_append, calls_callEvents, hq, List.append_nil, List.mem_append, List.mem_singleton] at hd
        rcases hd with hd | rfl
        · exact h.ids d (List.mem_append_left _ hd)
        · exact hid
      · exact h.covered
  · rw [if_neg hq]
    exact h.push hid hcov fun hnil => absurd hnil hq

/-- A new kernel is queued, and a build of it is about to be started. -/
theorem Inv.runNew (hcfg : cfg.fixedSizeKernel ∨ cfg.dynamicSizeKernel) (k : SourceKernelCall)
    (h : Inv cfg submitted s) (hs : s.starting = []) : Inv cfg (submitted ++ [k]) (runNew cfg s k) := by
  obtain ⟨s', hs'⟩ : ∃ s', s' = Gpu.runNew cfg s k := ⟨_, rfl⟩
  obtain ⟨id, hid⟩ : ∃ id : KernelID, id = (k.functionID, if cfg.fixedSizeKernel then k.literalID else 0) := ⟨_, rfl⟩
  have hqueue : s'.callQueue = s.callQueue ++ [(id, k)] := by rw [hs', hid]; rfl
  have hlog : s'.log = s.log := by rw [hs']; rfl
  have hmap : s'.kernelMap = s.kernelMap := by rw [hs']; rfl
  have hknown : s'.knownKernelID = mapInsert s.knownKernelID id.1 id.2 := by rw [hs', hid]; rfl
  have hstart : s'.starting = (if cfg.fixedSizeKernel then [(k.id, k.source)] else []) ++
      (if cfg.dynamicSizeKernel then [((k.functionID, 0), k.source)] else []) := by rw [hs']; rfl
  have hbuild : s'.building = s.building := by rw [hs']; rfl
  have hmono : ∀ id, s.Covered id → s'.Covered id := by
    intro id hcov
    unfold State.Covered
    rw [hmap, hbuild]
    rcases hcov with hcov | hcov | hcov
    · exact Or.inl hcov
    · rw [hs] at hcov
      cases hcov
    · exact Or.inr (Or.inr hcov)
  have hfixed : cfg.fixedSizeKernel = true → s'.Covered k.id := by
    intro hf
    refine Or.inr (Or.inl ?_)
    rw [hstart, hf]
    simp
  have hdynamic : cfg.dynamicSizeKernel = true → s'.Covered (k.functionID, 0) := by
    intro hd
    refine Or.inr (Or.inl ?_)
    rw [hstart, hd]
    simp
  have hcovered : s'.Covered id := by
    rw [hid]
    cases hf : cfg.fixedSizeKernel with
    | true => exact hfixed hf
    | false => exact hdynamic (hcfg.resolve_left (by rw [hf]; simp))
  rw [← hs']
  refine ⟨?_, ?_, ?_, ?_, ?_, ?_⟩
  · rw [hlog, hqueue, ← List.append_assoc, List.map_append, h.order]
    rfl
  · intro kernel c hc
    rw [hlog] at hc
    rw [hmap]
    exact h.entries kernel c hc
  · intro c hc
    rw [hlog, hqueue, ← List.append_assoc, List.mem_append, List.mem_singleton] at hc
    rcases hc with hc | rfl
    · exact h.ids c hc
    · rw [hid]
      cases cfg.fixedSizeKernel with
      | true => exact Or.inl rfl
      | false => exact Or.inr rfl
  · intro f l hl
    rw [hknown] at hl
    rcases lookup_mapInsert_cases hl with hl | ⟨rfl, rfl⟩
    · exact known_of_covered hmono h.known f l hl
    · refine ⟨?_, fun hd => ?_⟩
      · split_ifs with hf
        · exact hcovered
        · rw [hid, if_neg hf]
      · rw [hid]
        exact hdynamic hd
  · intro c hc
    rw [hqueue, List.mem_append, List.mem_singleton] at hc
    rcases hc with hc | rfl
    · exact hmono _ (h.covered c hc)
    · exact hcovered
  · intro hnil
    rw [hstart] at hnil
    rcases hcfg with hf | hd
    · rw [hf] at hnil
      cases hnil
    · rw [hd] at hnil
      cases (List.append_eq_nil_iff.mp hnil).2

theorem Inv.compileAndRun (hcfg : cfg.fixedSizeKernel ∨ cfg.dynamicSizeKernel) (k : SourceKernelCall)
    (h : Inv cfg submitted s) (hs : s.starting = []) : Inv cfg (submitted ++ [k]) (compileAndRun cfg s k) := by
  unfold Gpu.compileAndRun
  cases hl : s.knownKernelID.lookup k.functionID with
  | none => exact h.runNew hcfg k hs
  | some literal =>
    dsimp only
    obtain ⟨hfixed, hdynamic⟩ := h.known _ _ hl
    by_cases hlit : literal = k.literalID
    · rw [if_pos (Or.inr hlit), if_pos hlit]
      have hid : ((k.functionID, literal) : KernelID) = k.id := by rw [hlit]; rfl
      suffices hcov : s.Covered (k.functionID, literal) from
        Inv.runKnown (c := ((k.functionID, literal), k)) h (Or.inl hid) hcov
      cases hf : cfg.fixedSizeKernel with
      | true =>
        rw [if_pos hf] at hfixed
        exact hfixed
      | false =>
        rw [if_neg (by rw [hf]; simp)] at hfixed
        rw [hfixed]
        exact hdynamic (hcfg.resolve_left (by rw [hf]; simp))
    · rw [if_neg hlit]
      split_ifs with hd
      · exact Inv.runKnown (c := ((k.functionID, 0), k)) h (Or.inr rfl) (hdynamic (hd.resolve_right hlit))
      · exact h.runNew hcfg k hs

/-- A build that ends: its kernel is inserted, and the queue is called as far as the kernels go. -/
theorem Inv.build {b : KernelID × String} {t : State} (h : Inv cfg submitted s) (hqueue : t.callQueue = s.callQueue)
    (hlog : t.log = s.log) (hmap : t.kernelMap = s.kernelMap) (hknown : t.knownKernelID = s.knownKernelID)
    (hcov : ∀ id, s.Covered id → t.Covered id ∨ id = b.1) : Inv cfg submitted (build t b) := by
  obtain ⟨s', hs'⟩ : ∃ s', s' = Gpu.build t b := ⟨_, rfl⟩
  obtain ⟨kernels, hkernels⟩ : ∃ m, m = mapInsert s.kernelMap b.1 ⟨b.1.1, b.1.2 ≠ 0, b.2⟩ := ⟨_, rfl⟩
  have hmap' : s'.kernelMap = kernels := by rw [hs', hkernels, ← hmap]; rfl
  have hqueue' : s'.callQueue = (drain kernels s.callQueue).2 := by rw [hs', hkernels, ← hmap, ← hqueue]; rfl
  have hlog' : s'.log = s.log ++ (drain kernels s.callQueue).1 := by
    rw [hs', hkernels, ← hmap, ← hqueue, ← hlog]
    rfl
  have hknown' : s'.knownKernelID = s.knownKernelID := by rw [hs', ← hknown]; rfl
  obtain ⟨horder, hentry, hall⟩ := drain_spec kernels s.callQueue
  have hmono : ∀ id, s.Covered id → s'.Covered id := by
    intro id hid
    have hkeep : ∀ id, (t.kernelMap.lookup id).isSome → (s'.kernelMap.lookup id).isSome := by
      intro id hsome
      obtain ⟨kernel, hk⟩ := Option.isSome_iff_exists.mp hsome
      rw [hmap] at hk
      rw [hmap', hkernels, lookup_mapInsert_of_some hk]
      rfl
    rcases hcov id hid with (hid | hid | hid) | rfl
    · exact Or.inl (hkeep id hid)
    · exact Or.inr (Or.inl (by rw [hs']; exact hid))
    · exact Or.inr (Or.inr (by rw [hs']; exact hid))
    · refine Or.inl ?_
      rw [hmap', hkernels]
      exact isSome_lookup_mapInsert
  have hlist : calls s'.log ++ s'.callQueue = calls s.log ++ s.callQueue := by
    rw [hlog', hqueue', calls_append, List.append_assoc, horder]
  rw [← hs']
  refine ⟨?_, ?_, ?_, ?_, ?_, ?_⟩
  · rw [hlist]
    exact h.order
  · intro kernel c hc
    rw [hlog', List.mem_append] at hc
    rw [hmap']
    rcases hc with hc | hc
    · rw [hkernels, lookup_mapInsert_of_some (h.entries kernel c hc)]
    · exact hentry kernel c hc
  · rw [hlist]
    exact h.ids
  · rw [hknown']
    exact known_of_covered hmono h.known
  · intro c hc
    refine hmono _ (h.covered c ?_)
    rw [hqueue'] at hc
    rw [← horder]
    exact List.mem_append_right _ hc
  · intro hstart hbuild
    rw [hqueue']
    refine hall fun c hc => ?_
    rw [← hmap']
    rcases hmono _ (h.covered c hc) with hsome | hmem | hmem
    · exact hsome
    · rw [hstart] at hmem
      cases hmem
    · rw [hbuild] at hmem
      cases hmem

theorem Inv.internal (h : Inv cfg submitted s) (hstep : Internal cfg s s') : Inv cfg submitted s' := by
  cases hstep with
  | @start b rest hasync hs =>
    have hcov : ∀ id, s.Covered id →
        State.Covered { s with starting := rest, building := s.building ++ [b] } id := by
      intro id hid
      unfold State.Covered at hid ⊢
      rw [hs] at hid
      simp only [List.map_cons, List.mem_cons, List.map_append, List.mem_append] at hid ⊢
      tauto
    refine ⟨h.order, h.entries, h.ids, known_of_covered hcov h.known, fun c hc => hcov _ (h.covered c hc), ?_⟩
    intro _ hnil
    cases (List.append_eq_nil_iff.mp hnil).2
  | @here b rest hsync hs =>
    refine h.build rfl rfl rfl rfl fun id hid => ?_
    unfold State.Covered at hid ⊢
    rw [hs] at hid
    simp only [List.map_cons, List.mem_cons] at hid ⊢
    tauto
  | @finish b pre post hs =>
    refine h.build rfl rfl rfl rfl fun id hid => ?_
    unfold State.Covered at hid ⊢
    rw [hs] at hid
    simp only [List.map_cons, List.map_append, List.mem_append, List.mem_cons] at hid ⊢
    tauto

theorem inv_init : Inv cfg [] {} :=
  ⟨rfl, nofun, nofun, nofun, nofun, fun _ _ => rfl⟩

theorem Runs.inv (hcfg : cfg.fixedSizeKernel ∨ cfg.dynamicSizeKernel) (h : Runs cfg submitted s) :
    Inv cfg submitted s := by
  induction h with
  | init => exact inv_init
  | submit k _ hs ih => exact ih.compileAndRun hcfg k hs
  | internal _ hstep ih => exact ih.internal hstep

/-- The builds still to be started or to end. -/
def State.work (s : State) : ℕ := 2 * s.starting.length + s.building.length

theorem Internal.work_lt (h : Internal cfg s s') : s'.work < s.work := by
  cases h with
  | start _ hs => simp only [State.work, hs, List.length_append, List.length_cons, List.length_nil]; omega
  | here _ hs => simp only [State.work, build, hs, List.length_cons]; omega
  | finish hs => simp only [State.work, build, hs, List.length_append, List.length_cons]; omega

theorem exists_internal (h : s.work ≠ 0) : ∃ s', Internal cfg s s' := by
  cases hs : s.starting with
  | cons b rest =>
    cases ha : cfg.asyncCompile with
    | true => exact ⟨_, Internal.start ha hs⟩
    | false => exact ⟨_, Internal.here ha hs⟩
  | nil =>
    cases hb : s.building with
    | nil => exact absurd (by rw [State.work, hs, hb]; rfl) h
    | cons b rest => exact ⟨_, Internal.finish (show s.building = [] ++ b :: rest from hb)⟩

/-- Calls are made once each and in the order of submission, with the kernel that the map holds for
the queued ID; the builds come to an end, and without one the queue is empty. -/
theorem kernels_called_in_order (hcfg : cfg.fixedSizeKernel ∨ cfg.dynamicSizeKernel) (h : Runs cfg submitted s) :
    (calls s.log).map Prod.snd ++ s.callQueue.map Prod.snd = submitted ∧
      (∀ kernel c, .call kernel c ∈ s.log →
        s.kernelMap.lookup c.1 = some kernel ∧ (c.1 = c.2.id ∨ c.1 = (c.2.functionID, 0))) ∧
      (s.starting = [] → s.building = [] → s.callQueue = [] ∧ (calls s.log).map Prod.snd = submitted) ∧
      (s.work ≠ 0 → ∃ s', Internal cfg s s') ∧ ∀ s', Internal cfg s s' → s'.work < s.work := by
  have hinv := h.inv hcfg
  have horder := hinv.order
  rw [List.map_append] at horder
  refine ⟨horder, ?_, ?_, exists_internal, fun s' => Internal.work_lt⟩
  · intro kernel c hc
    refine ⟨hinv.entries kernel c hc, hinv.ids c (List.mem_append_left _ ?_)⟩
    exact List.mem_filterMap.mpr ⟨_, hc, rfl⟩
  · intro hstart hbuild
    have hq := hinv.idle hstart hbuild
    rw [hq, List.map_nil, List.append_nil] at horder
    exact ⟨hq, horder⟩

/-- One function called for two sizes; the second call waits for the dynamic-size kernel, and that
one, although it is ready first, for the call before it. -/
def twoSizes : SourceKernelCall × SourceKernelCall :=
  (⟨(7, 3), [8], "f", [8], [(.array 0, true)], []⟩, ⟨(7, 4), [9], "f", [9], [(.array 0, true)], [0]⟩)

theorem kernels_called_in_order_twoSizes : ∃ s, Runs ⟨true, true, true⟩ [twoSizes.1, twoSizes.2] s ∧
    s.callQueue = [] ∧ (calls s.log).map Prod.snd = [twoSizes.1, twoSizes.2] := by
  have h0 : Runs ⟨true, true, true⟩ [] {} := Runs.init
  have h1 := Runs.submit twoSizes.1 h0 rfl
  have h2 := h1.internal (Internal.start rfl rfl)
  have h3 := h2.internal (Internal.start rfl rfl)
  have h4 := Runs.submit twoSizes.2 h3 rfl
  have h5 := h4.internal (Internal.finish (show _ = [(twoSizes.1.id, "f")] ++ ((7, 0), "f") :: [] from rfl))
  have h6 := h5.internal (Internal.finish (show _ = [] ++ (twoSizes.1.id, "f") :: [] from rfl))
  exact ⟨_, h6, (kernels_called_in_order (Or.inl rfl) h6).2.2.1 rfl rfl⟩

end Bohrium.Gpu
