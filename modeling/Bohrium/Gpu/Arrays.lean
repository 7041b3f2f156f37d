import Bohrium.Core.Kernel
import Bohrium.Gpu.CallQueue
import Mathlib.Data.List.Dedup

/-! # The arrays of the GPU engine

`schedule`, `sync`, `discard` and `call_child` of `ve/gpu/InstructionScheduler.cpp`. A `BaseArray`
is a number that is never used again; `arrayMap` belongs to the scheduling thread. What that thread
does between two critical sections is one step with the critical section that follows. -/
namespace Bohrium.Gpu
set_option autoImplicit false

/-! ## The scheduling thread -/

abbrev ArrayMap := List (Option BhBase × ℕ)

/-- What the source generator makes of a kernel: IDs, shape, text and size parameters. -/
structure Code where
  id : KernelID
  shape : List ℕ
  source : String
  sizeParameters : List ℤ

/-- What `schedule` has still to do for the kernel it has taken. -/
inductive Act
  | sync (base : Option BhBase)
  | discard (bases : List (Option BhBase))
  | attach (bases : List (Option BhBase))
  | child
  deriving DecidableEq, Repr

structure World where
  queue : State := {}
  arrayMap : ArrayMap := []
  next : ℕ := 0
  todo : List Act := []
  deriving DecidableEq, Repr

/-- A parameter of `generateKernel`: the array is created unless it is known. -/
def World.getArray (w : World) (base : Option BhBase) : World :=
  if (w.arrayMap.lookup base).isSome then w
  else { w with arrayMap := w.arrayMap ++ [(base, w.next)], next := w.next + 1 }

/-- The bases of the parameters, in the order of their IDs. -/
def bases (kernel : BhIrKernel) : List (Option BhBase) := kernel.parameters.map.map Prod.fst

/-- The arrays a map has for some bases. -/
def lookups (m : ArrayMap) (bs : List (Option BhBase)) : List ℕ := bs.filterMap (m.lookup ·)

def eraseAll (m : ArrayMap) (bs : List (Option BhBase)) : ArrayMap := m.filter (·.1 ∉ bs)

/-- The call that `generateKernel` makes, once the arrays are there. -/
def generateKernel (m : ArrayMap) (kernel : BhIrKernel) (code : Code) : SourceKernelCall :=
  { id := code.id
    shape := code.shape
    source := code.source
    sizeParameters := code.sizeParameters
    valueParameters := (bases kernel).filterMap (fun base =>
      (m.lookup base).map fun ary => (.array ary, kernel.outputMap.any (·.1 = base))) ++
      kernel.constants.map fun c => (.scalar c, false)
    discardSet := [] }

/-- `discard`. -/
def World.discard (w : World) (bs : List (Option BhBase)) : World :=
  { w with
    queue := { w.queue with log := w.queue.log ++ (lookups w.arrayMap bs).map .delete }
    arrayMap := eraseAll w.arrayMap bs }

/-- `addDiscard`, for several arrays. -/
def SourceKernelCall.addDiscards (k : SourceKernelCall) (as : List ℕ) : SourceKernelCall :=
  { k with discardSet := k.discardSet ++ as }

/-- The discards of a kernel without computations: they go to the last call of the queue. -/
def World.attach (w : World) (bs : List (Option BhBase)) : World :=
  match w.queue.callQueue.getLast? with
  | none => w.discard bs
  | some c =>
    { w with
      queue := { w.queue with
        callQueue := w.queue.callQueue.dropLast ++ [(c.1, c.2.addDiscards (lookups w.arrayMap bs))] }
      arrayMap := eraseAll w.arrayMap bs }

/-- `schedule`, for one kernel: what is done at once, and what is left to do. `gen` throws for
kernels that OpenCL cannot express. -/
def World.take (cfg : Config) (gen : BhIrKernel → Option Code) (w : World) (kernel : BhIrKernel) : World :=
  if kernel.outputSet ≠ [] then
    if kernel.scalar then
      -- `call_child`
      { w with todo := (kernel.syncs ++ bases kernel).map .sync ++
          [.discard (kernel.outputSet.map BhView.base).dedup] ++ kernel.instrIndexes.map (fun _ => .child) ++
          [.discard kernel.discards] }
    else
      let w := (bases kernel).foldl World.getArray w
      match gen kernel with
      | none => w
      | some code =>
        let call := generateKernel w.arrayMap kernel code
        if kernel.syncs ≠ [] then
          { w with
            queue := compileAndRun cfg w.queue call
            todo := kernel.syncs.map .sync ++ [.discard kernel.discards] }
        else
          { w with
            queue := compileAndRun cfg w.queue (call.addDiscards (lookups w.arrayMap kernel.discards))
            arrayMap := eraseAll w.arrayMap kernel.discards }
  else { w with todo := kernel.syncs.map .sync ++ if kernel.discards ≠ [] then [.attach kernel.discards] else [] }

/-- The kernels `add_instr` builds. -/
def Built (kernel : BhIrKernel) : Prop :=
  ∃ (l : List BhInstruction) (idxs : List ℕ), kernel = idxs.foldl (BhIrKernel.addInstr l) {}

/-- A step of the scheduling thread in the middle of a kernel. -/
inductive ActStep : World → World → Prop
  | unknown {w : World} {base : Option BhBase} {rest : List Act} (ht : w.todo = .sync base :: rest)
      (hb : w.arrayMap.lookup base = none) : ActStep w { w with todo := rest }
  | synced {w : World} {base : Option BhBase} {rest : List Act} (ht : w.todo = .sync base :: rest)
      (hb : (w.arrayMap.lookup base).isSome) (hq : w.queue.callQueue = []) : ActStep w { w with todo := rest }
  | discard {w : World} {bs : List (Option BhBase)} {rest : List Act} (ht : w.todo = .discard bs :: rest) :
      ActStep w { w.discard bs with todo := rest }
  | attach {w : World} {bs : List (Option BhBase)} {rest : List Act} (ht : w.todo = .attach bs :: rest) :
      ActStep w { w.attach bs with todo := rest }
  | child {w : World} {rest : List Act} (ht : w.todo = .child :: rest) : ActStep w { w with todo := rest }
  | failed {w : World} {rest : List Act} (ht : w.todo = .child :: rest) : ActStep w { w with todo := [] }

/-- The worlds that are reached when every kernel that is taken up meets `ok`. -/
inductive Reachable (cfg : Config) (gen : BhIrKernel → Option Code) (ok : World → BhIrKernel → Prop) : World → Prop
  | init : Reachable cfg gen ok {}
  | take {w : World} (kernel : BhIrKernel) (h : Reachable cfg gen ok w) (hk : Built kernel) (hok : ok w kernel)
      (hs : w.queue.starting = []) (ht : w.todo = []) : Reachable cfg gen ok (w.take cfg gen kernel)
  | act {w w' : World} (h : Reachable cfg gen ok w) (hs : w.queue.starting = []) (hstep : ActStep w w') :
      Reachable cfg gen ok w'
  | build {w : World} {s : State} (h : Reachable cfg gen ok w) (hstep : Internal cfg w.queue s) :
      Reachable cfg gen ok { w with queue := s }

/-- The arrays among the parameters of a call. -/
def SourceKernelCall.arrays (k : SourceKernelCall) : List ℕ :=
  k.valueParameters.filterMap fun
    | (.array ary, _) => some ary
    | _ => none

/-- No array was deleted before a call that has it as a parameter, be the call made or in the queue. -/
def State.Outlives (s : State) : Prop :=
  ∀ pre d post, s.log = pre ++ .delete d :: post →
    (∀ kernel c, .call kernel c ∈ post → d ∉ c.2.arrays) ∧ ∀ c ∈ s.callQueue, d ∉ c.2.arrays

/-! ## The order of calls and deletions -/

/-- A call with the arrays it uses, or a deletion. -/
inductive Mark
  | call (arrays : List ℕ)
  | delete (ary : ℕ)

def Event.mark : Event → Mark
  | .call _ c => .call c.2.arrays
  | .delete d => .delete d

def SourceKernelCall.marks (k : SourceKernelCall) : List Mark := .call k.arrays :: k.discardSet.map .delete

/-- What has happened, and what will happen when the queue is called. -/
def State.timeline (s : State) : List Mark := s.log.map Event.mark ++ s.callQueue.flatMap fun c => c.2.marks

/-- The second mark does not use what the first one deletes. -/
def Mark.Ok (m m' : Mark) : Prop := ∀ d as, m = .delete d → m' = .call as → d ∉ as

theorem map_mark_callEvents (kernel : Kernel) (c : KernelCall) :
    (callEvents kernel c).map Event.mark = c.2.marks := by
  simp [callEvents, SourceKernelCall.marks, Event.mark, Function.comp_def]

theorem timeline_push (s : State) (c : KernelCall) : (s.push c).timeline = s.timeline ++ c.2.marks := by
  simp [State.timeline, State.push]

theorem timeline_runKnown (s : State) (c : KernelCall) : (runKnown s c).timeline = s.timeline ++ c.2.marks := by
  unfold runKnown
  split_ifs with hq
  · cases s.kernelMap.lookup c.1 with
    | none => exact timeline_push s c
    | some kernel =>
      simp only [State.timeline, hq, List.flatMap_nil, List.append_nil, List.map_append, map_mark_callEvents]
  · exact timeline_push s c

/-- A call of `compileAndRun` comes after everything that was called or queued before. -/
theorem timeline_compileAndRun (cfg : Config) (s : State) (k : SourceKernelCall) :
    (compileAndRun cfg s k).timeline = s.timeline ++ k.marks := by
  have hnew : (runNew cfg s k).timeline = s.timeline ++ k.marks := timeline_push s _
  unfold compileAndRun
  cases s.knownKernelID.lookup k.functionID with
  | none => exact hnew
  | some literal =>
    dsimp only
    by_cases h : cfg.dynamicSizeKernel ∨ literal = k.literalID
    · rw [if_pos h]
      exact timeline_runKnown s _
    · rw [if_neg h]
      exact hnew

theorem timeline_drain (kernels : List (KernelID × Kernel)) (queue : List KernelCall) :
    (drain kernels queue).1.map Event.mark ++ (drain kernels queue).2.flatMap (fun c => c.2.marks) =
      queue.flatMap fun c => c.2.marks := by
  induction queue with
  | nil => rfl
  | cons c queue ih =>
    unfold drain
    cases kernels.lookup c.1 with
    | none => rfl
    | some kernel =>
      dsimp only
      rw [List.map_append, map_mark_callEvents, List.append_assoc, ih, List.flatMap_cons]

theorem timeline_build (s : State) (b : KernelID × String) : (build s b).timeline = s.timeline := by
  unfold build State.timeline
  dsimp only
  rw [List.map_append, List.append_assoc, timeline_drain]

theorem drain_suffix (kernels : List (KernelID × Kernel)) (queue : List KernelCall) :
    ∀ c ∈ (drain kernels queue).2, c ∈ queue := by
  intro c hc
  rw [← (drain_spec kernels queue).1]
  exact List.mem_append_right _ hc

variable {cfg : Config} {gen : BhIrKernel → Option Code} {s s' : State} {w w' : World}

/-- Builds change neither the order of calls and deletions nor add to the queue. -/
theorem Internal.timeline_eq (h : Internal cfg s s') :
    s'.timeline = s.timeline ∧ ∀ c ∈ s'.callQueue, c ∈ s.callQueue := by
  cases h with
  | start => exact ⟨rfl, fun c hc => hc⟩
  | here => exact ⟨timeline_build _ _, fun c hc => drain_suffix _ _ c hc⟩
  | finish => exact ⟨timeline_build _ _, fun c hc => drain_suffix _ _ c hc⟩

theorem outlives_of_timeline (h : s.timeline.Pairwise Mark.Ok) : s.Outlives := by
  intro pre d post hlog
  unfold State.timeline at h
  rw [hlog, List.map_append, List.map_cons, List.append_assoc] at h
  have hd := (List.pairwise_append.mp h).2.1
  rw [List.cons_append, List.pairwise_cons] at hd
  refine ⟨fun kernel c hc => ?_, fun c hc => ?_⟩
  · refine hd.1 (Event.call kernel c).mark (List.mem_append_left _ (List.mem_map_of_mem hc)) d _ rfl rfl
  · refine hd.1 (.call c.2.arrays) (List.mem_append_right _ ?_) d _ rfl rfl
    exact List.mem_flatMap.mpr ⟨c, hc, List.mem_cons_self⟩

/-! ## The invariant -/

/-- The arrays that the GPU knows: none of them is deleted, nor will be by a queued call. -/
structure Owned (w : World) : Prop where
  ok : w.queue.timeline.Pairwise Mark.Ok
  live : ∀ p ∈ w.arrayMap, .delete p.2 ∉ w.queue.timeline
  distinct : (w.arrayMap.map Prod.snd).Nodup
  fresh : ∀ p ∈ w.arrayMap, p.2 < w.next
  past : ∀ d, .delete d ∈ w.queue.timeline → d < w.next

theorem mem_of_lookup {m : ArrayMap} {b : Option BhBase} {a : ℕ} (h : m.lookup b = some a) : (b, a) ∈ m := by
  induction m with
  | nil => cases h
  | cons p m ih =>
    rw [List.lookup_cons] at h
    cases hb : b == p.1 with
    | true =>
      rw [hb] at h
      rw [eq_of_beq hb, ← Option.some.inj h]
      exact List.mem_cons_self
    | false =>
      rw [hb] at h
      exact List.mem_cons_of_mem p (ih h)

theorem mem_lookups {m : ArrayMap} {bs : List (Option BhBase)} {a : ℕ} (h : a ∈ lookups m bs) :
    ∃ b ∈ bs, (b, a) ∈ m := by
  obtain ⟨b, hb, ha⟩ := List.mem_filterMap.mp h
  exact ⟨b, hb, mem_of_lookup ha⟩

/-- What is erased is not found under another base. -/
theorem not_mem_lookups_of_erased {m : ArrayMap} {bs : List (Option BhBase)} (h : (m.map Prod.snd).Nodup)
    {p : Option BhBase × ℕ} (hp : p ∈ eraseAll m bs) : p.2 ∉ lookups m bs := by
  intro ha
  obtain ⟨b, hb, hmem⟩ := mem_lookups ha
  obtain ⟨hpm, hpb⟩ := List.mem_filter.mp hp
  have heq : p = (b, p.2) := List.inj_on_of_nodup_map h hpm hmem rfl
  rw [heq] at hpb
  simp [hb] at hpb

theorem lookup_of_eraseAll {m : ArrayMap} {bs : List (Option BhBase)} {b : Option BhBase} {a : ℕ}
    (h : (eraseAll m bs).lookup b = some a) : m.lookup b = some a := by
  induction m with
  | nil => cases h
  | cons p m ih =>
    rw [List.lookup_cons]
    by_cases hp : p.1 ∈ bs
    · have herase : eraseAll (p :: m) bs = eraseAll m bs := by simp [eraseAll, hp]
      rw [herase] at h
      have hb : b ∉ bs := by
        have hmem := mem_of_lookup h
        simpa using (List.mem_filter.mp hmem).2
      have hne : (b == p.1) = false := beq_false_of_ne fun heq => hb (heq ▸ hp)
      rw [hne]
      exact ih h
    · have herase : eraseAll (p :: m) bs = p :: eraseAll m bs := by simp [eraseAll, hp]
      rw [herase, List.lookup_cons] at h
      cases hb : b == p.1 with
      | true =>
        rw [hb] at h
        exact h
      | false =>
        rw [hb] at h
        exact ih h

theorem delete_mem_map {d : ℕ} {as : List ℕ} : Mark.delete d ∈ as.map Mark.delete ↔ d ∈ as := by
  simp

/-- A mark that deletes, before anything. -/
theorem ok_delete_iff {d : ℕ} {m : Mark} : Mark.Ok (.delete d) m ↔ ∀ as, m = .call as → d ∉ as :=
  ⟨fun h as hm => h d as rfl hm, fun h d' as hd hm => by cases hd; exact h as hm⟩

theorem ok_delete_right (m : Mark) (d : ℕ) : Mark.Ok m (.delete d) := fun _ _ _ h => by cases h

theorem pairwise_deletes (as : List ℕ) : (as.map Mark.delete).Pairwise Mark.Ok := by
  rw [List.pairwise_map]
  exact List.pairwise_of_forall fun a b => ok_delete_right _ b

/-- Deletions at the end of a list of marks. -/
theorem pairwise_append_deletes {T : List Mark} (as : List ℕ) (h : T.Pairwise Mark.Ok) :
    (T ++ as.map Mark.delete).Pairwise Mark.Ok := by
  refine List.pairwise_append.mpr ⟨h, pairwise_deletes as, ?_⟩
  · intro m _ m' hm'
    obtain ⟨d, _, rfl⟩ := List.mem_map.mp hm'
    exact ok_delete_right m d

/-- The arrays that go at once, with those that a queue still uses apart. -/
theorem Owned.discard {bs : List (Option BhBase)} (h : Owned w)
    (hsafe : ∀ a ∈ lookups w.arrayMap bs, ∀ c ∈ w.queue.callQueue, a ∉ c.2.arrays) : Owned (w.discard bs) := by
  have htime : (w.discard bs).queue.timeline = w.queue.log.map Event.mark ++
      ((lookups w.arrayMap bs).map .delete ++ w.queue.callQueue.flatMap fun c => c.2.marks) := by
    simp [State.timeline, World.discard, Event.mark, Function.comp_def]
  have hmem : ∀ d, Mark.delete d ∈ (w.discard bs).queue.timeline ↔
      Mark.delete d ∈ w.queue.timeline ∨ d ∈ lookups w.arrayMap bs := by
    intro d
    rw [htime, State.timeline]
    simp only [List.mem_append, delete_mem_map]
    tauto
  refine ⟨?_, ?_, ?_, ?_, ?_⟩
  · have hok := h.ok
    unfold State.timeline at hok
    obtain ⟨hlog, hqueue, hcross⟩ := List.pairwise_append.mp hok
    rw [htime]
    refine List.pairwise_append.mpr ⟨hlog, List.pairwise_append.mpr ⟨pairwise_deletes _, hqueue, ?_⟩, ?_⟩
    · intro m hm m' hm'
      obtain ⟨a, ha, rfl⟩ := List.mem_map.mp hm
      rw [ok_delete_iff]
      intro as has
      obtain ⟨c, hc, hmark⟩ := List.mem_flatMap.mp hm'
      rw [has, SourceKernelCall.marks, List.mem_cons] at hmark
      rcases hmark with hmark | hmark
      · rw [Mark.call.inj hmark]
        exact hsafe a ha c hc
      · obtain ⟨_, _, hno⟩ := List.mem_map.mp hmark
        cases hno
    · intro m hm m' hm'
      rcases List.mem_append.mp hm' with hm' | hm'
      · obtain ⟨a, _, rfl⟩ := List.mem_map.mp hm'
        exact ok_delete_right m a
      · exact hcross m hm m' hm'
  · intro p hp hdel
    rcases (hmem p.2).mp hdel with hdel | hdel
    · exact h.live p (List.mem_filter.mp hp).1 hdel
    · exact not_mem_lookups_of_erased h.distinct hp hdel
  · exact h.distinct.sublist ((List.filter_sublist).map _)
  · exact fun p hp => h.fresh p (List.mem_filter.mp hp).1
  · intro d hd
    rcases (hmem d).mp hd with hd | hd
    · exact h.past d hd
    · obtain ⟨b, _, hb⟩ := mem_lookups hd
      exact h.fresh _ hb

/-- A call at the end of the timeline whose deletions are taken out of the map. -/
theorem Owned.extend {q : State} {bs : List (Option BhBase)} {T : List Mark} (h : Owned w)
    (htime : q.timeline = w.queue.timeline ++ T ++ (lookups w.arrayMap bs).map .delete)
    (hT : ∀ m ∈ T, ∃ as, m = .call as ∧ ∀ a ∈ as, .delete a ∉ w.queue.timeline) :
    Owned { w with queue := q, arrayMap := eraseAll w.arrayMap bs } := by
  have hcall : ∀ d, Mark.delete d ∉ T := by
    intro d hd
    obtain ⟨as, has, _⟩ := hT _ hd
    cases has
  have hmem : ∀ d, Mark.delete d ∈ q.timeline ↔ Mark.delete d ∈ w.queue.timeline ∨ d ∈ lookups w.arrayMap bs := by
    intro d
    rw [htime]
    simp only [List.mem_append, delete_mem_map, hcall d, or_false]
  refine ⟨?_, ?_, ?_, ?_, ?_⟩
  · rw [htime]
    refine pairwise_append_deletes _ (List.pairwise_append.mpr ⟨h.ok, ?_, ?_⟩)
    · refine List.pairwise_of_forall_mem_list fun m hm m' _ d as hd _ => ?_
      obtain ⟨as, has, _⟩ := hT m hm
      rw [has] at hd
      cases hd
    · intro m hm m' hm' d as hd has ha
      obtain ⟨as', has', hlive⟩ := hT m' hm'
      rw [has] at has'
      rw [Mark.call.inj has'] at ha
      exact hlive d ha (hd ▸ hm)
  · intro p hp hdel
    rcases (hmem p.2).mp hdel with hdel | hdel
    · exact h.live p (List.mem_filter.mp hp).1 hdel
    · exact not_mem_lookups_of_erased h.distinct hp hdel
  · exact h.distinct.sublist ((List.filter_sublist).map _)
  · exact fun p hp => h.fresh p (List.mem_filter.mp hp).1
  · intro d hd
    rcases (hmem d).mp hd with hd | hd
    · exact h.past d hd
    · obtain ⟨b, _, hb⟩ := mem_lookups hd
      exact h.fresh _ hb

theorem Owned.attach {bs : List (Option BhBase)} (h : Owned w) : Owned (w.attach bs) := by
  unfold World.attach
  cases hlast : w.queue.callQueue.getLast? with
  | none =>
    have hnil : w.queue.callQueue = [] := List.getLast?_eq_none_iff.mp hlast
    refine h.discard fun a _ c hc => ?_
    rw [hnil] at hc
    cases hc
  | some c =>
    have hsplit : w.queue.callQueue = w.queue.callQueue.dropLast ++ [c] := by
      obtain ⟨l, hl⟩ := List.getLast?_eq_some_iff.mp hlast
      rw [hl, List.dropLast_concat]
    refine h.extend (T := []) ?_ nofun
    rw [List.append_nil]
    unfold State.timeline
    dsimp only
    conv_rhs => rw [hsplit]
    simp [SourceKernelCall.marks, SourceKernelCall.addDiscards, SourceKernelCall.arrays]

/-! ## Generating a kernel -/

/-- The map only grows, at the bases `bs`. -/
structure Grown (bs : List (Option BhBase)) (w w' : World) : Prop where
  queue : w'.queue = w.queue
  todo : w'.todo = w.todo
  keep : ∀ b a, w.arrayMap.lookup b = some a → w'.arrayMap.lookup b = some a
  others : ∀ b, b ∉ bs → w'.arrayMap.lookup b = w.arrayMap.lookup b

theorem grown_getArray (w : World) (b : Option BhBase) : Grown [b] w (w.getArray b) := by
  unfold World.getArray
  split_ifs with hb
  · exact ⟨rfl, rfl, fun _ _ h => h, fun _ _ => rfl⟩
  · refine ⟨rfl, rfl, fun b' a h => ?_, fun b' hb' => ?_⟩
    · rw [lookup_append_singleton, h]
      rfl
    · have hne : (b' == b) = false := beq_false_of_ne fun heq => hb' (List.mem_singleton.mpr heq)
      rw [lookup_append_singleton, hne]
      cases w.arrayMap.lookup b' <;> rfl

theorem isSome_lookup_getArray (w : World) (b : Option BhBase) : ((w.getArray b).arrayMap.lookup b).isSome := by
  unfold World.getArray
  split_ifs with hb
  · exact hb
  · rw [lookup_append_singleton, if_pos (beq_self_eq_true b)]
    cases w.arrayMap.lookup b <;> rfl

theorem Owned.getArray (h : Owned w) (b : Option BhBase) : Owned (w.getArray b) := by
  unfold World.getArray
  split_ifs with hb
  · exact h
  · refine ⟨h.ok, fun p hp => ?_, ?_, fun p hp => ?_, fun d hd => (h.past d hd).trans (Nat.lt_succ_self _)⟩
    · rcases List.mem_append.mp hp with hp | hp
      · exact h.live p hp
      · rw [List.mem_singleton.mp hp]
        exact fun hdel => absurd (h.past _ hdel) (lt_irrefl _)
    · rw [List.map_append]
      refine List.Nodup.append h.distinct (List.nodup_singleton _) fun a ha hn => ?_
      obtain ⟨p, hp, rfl⟩ := List.mem_map.mp ha
      rw [List.map_singleton, List.mem_singleton] at hn
      exact absurd (h.fresh p hp) (by rw [hn]; exact lt_irrefl _)
    · rcases List.mem_append.mp hp with hp | hp
      · exact (h.fresh p hp).trans (Nat.lt_succ_self _)
      · rw [List.mem_singleton.mp hp]
        exact Nat.lt_succ_self _

theorem getArrays_spec (bs : List (Option BhBase)) (h : Owned w) :
    Owned (bs.foldl World.getArray w) ∧ Grown bs w (bs.foldl World.getArray w) ∧
      ∀ b ∈ bs, ((bs.foldl World.getArray w).arrayMap.lookup b).isSome := by
  induction bs generalizing w with
  | nil => exact ⟨h, ⟨rfl, rfl, fun _ _ h => h, fun _ _ => rfl⟩, nofun⟩
  | cons b bs ih =>
    obtain ⟨howned, hgrown, hknown⟩ := ih (h.getArray b)
    have hfirst := grown_getArray w b
    refine ⟨howned, ⟨hgrown.queue.trans hfirst.queue, hgrown.todo.trans hfirst.todo,
      fun b' a hb' => hgrown.keep b' a (hfirst.keep b' a hb'), fun b' hb' => ?_⟩, fun b' hb' => ?_⟩
    · rw [List.mem_cons, not_or] at hb'
      exact (hgrown.others b' hb'.2).trans (hfirst.others b' (fun h => hb'.1 (List.mem_singleton.mp h)))
    rcases List.mem_cons.mp hb' with rfl | hb'
    · obtain ⟨a, ha⟩ := Option.isSome_iff_exists.mp (isSome_lookup_getArray w b')
      rw [List.foldl_cons, hgrown.keep b' a ha]
      rfl
    · exact hknown b' hb'

theorem arrays_generateKernel (m : ArrayMap) (kernel : BhIrKernel) (code : Code) :
    (generateKernel m kernel code).arrays = lookups m (bases kernel) := by
  have hconst : ∀ cs : List BhConstant, (cs.map fun c => ((KernelParameter.scalar c, false) :
      KernelParameter × Bool)).filterMap (fun
        | (.array ary, _) => some ary
        | _ => none) = [] := by
    intro cs
    simp [List.filterMap_map]
  unfold generateKernel SourceKernelCall.arrays lookups
  dsimp only
  rw [List.filterMap_append, hconst, List.append_nil, List.filterMap_filterMap]
  refine List.filterMap_congr fun b _ => ?_
  cases m.lookup b <;> rfl

/-- A generated call only uses arrays that live. -/
theorem Owned.lookups_live (h : Owned w) (bs : List (Option BhBase)) :
    ∀ a ∈ lookups w.arrayMap bs, .delete a ∉ w.queue.timeline := by
  intro a ha
  obtain ⟨b, _, hb⟩ := mem_lookups ha
  exact h.live _ hb

/-! ## The output set of a kernel -/

/-- Outputs are parameters: an array that is no parameter any more is no output any more. -/
structure Parametric (k : BhIrKernel) : Prop where
  set : ∀ v ∈ k.outputSet, (v.base, v) ∈ k.outputMap
  map : ∀ p ∈ k.outputMap, p.1 ∈ bases k

theorem mem_seqset_insert {s : Seqset (Option BhBase)} {b b' : Option BhBase} :
    b' ∈ (s.insert b).1.map.map Prod.fst ↔ b' = b ∨ b' ∈ s.map.map Prod.fst := by
  rcases s.insert_spec b with ⟨_, heq, p, hp, rfl⟩ | ⟨_, heq⟩
  · rw [heq]
    exact ⟨Or.inr, fun hb => hb.elim (fun hb => hb ▸ List.mem_map_of_mem hp) id⟩
  · rw [heq]
    simp only [List.map_append, List.mem_append, List.map_cons, List.map_nil, List.mem_singleton]
    exact or_comm

theorem Parametric.addDiscard {k : BhIrKernel} (h : Parametric k) (base : Option BhBase) :
    Parametric (k.addDiscard base) := by
  have hset : ∀ v ∈ k.outputSet.filter (· ∉ (k.outputMap.filter (·.1 = base)).map Prod.snd),
      (v.base, v) ∈ k.outputMap.filter (·.1 ≠ base) := by
    intro v hv
    obtain ⟨hv, hno⟩ := List.mem_filter.mp hv
    have hmem := h.set v hv
    refine List.mem_filter.mpr ⟨hmem, ?_⟩
    rw [decide_eq_true_eq] at hno ⊢
    intro heq
    exact hno (List.mem_map.mpr ⟨_, List.mem_filter.mpr ⟨hmem, by simpa using heq⟩, rfl⟩)
  unfold BhIrKernel.addDiscard
  dsimp only
  split_ifs
  · exact ⟨h.set, h.map⟩
  · refine ⟨hset, fun p hp => ?_⟩
    obtain ⟨hp, hne⟩ := List.mem_filter.mp hp
    obtain ⟨q, hq, hqp⟩ := List.mem_map.mp (h.map p hp)
    refine List.mem_map.mpr ⟨q, List.mem_filter.mpr ⟨hq, ?_⟩, hqp⟩
    rw [hqp]
    exact hne
  · exact ⟨hset, fun p hp => h.map p (List.mem_filter.mp hp).1⟩

theorem Parametric.addInput {k : BhIrKernel} (h : Parametric k) (sweep : Bool) (constant : BhConstant) (v : BhView) :
    Parametric (k.addInput sweep constant v) := by
  have hmap : ∀ p ∈ k.outputMap, p.1 ∈ (k.parameters.insert v.base).1.map.map Prod.fst :=
    fun p hp => mem_seqset_insert.mpr (Or.inr (h.map p hp))
  unfold BhIrKernel.addInput
  dsimp only
  split_ifs
  · exact h
  · exact ⟨h.set, h.map⟩
  · exact ⟨h.set, hmap⟩
  · exact ⟨h.set, hmap⟩
  · exact ⟨h.set, h.map⟩
  · exact ⟨h.set, h.map⟩

theorem Parametric.addOutput {k : BhIrKernel} (h : Parametric k) (opcode : BhOpcode) (v : BhView) :
    Parametric (k.addOutput opcode v) := by
  refine ⟨fun u hu => ?_, fun p hp => ?_⟩
  · rcases mem_setInsert.mp hu with rfl | hu
    · exact List.mem_append_right _ (List.mem_singleton_self _)
    · exact List.mem_append_left _ (h.set u hu)
  · refine mem_seqset_insert.mpr ?_
    rcases List.mem_append.mp hp with hp | hp
    · exact Or.inr (h.map p hp)
    · rw [List.mem_singleton.mp hp]
      exact Or.inl rfl

theorem Parametric.record {k : BhIrKernel} (h : Parametric k) (i : BhInstruction) : Parametric (k.record i) := by
  have hinputs : ∀ (vs : List BhView) (k : BhIrKernel), Parametric k →
      Parametric (vs.foldl (BhIrKernel.addInput (bhOpcodeIsSweep i.opcode) i.constant) k) := by
    intro vs
    induction vs with
    | nil => exact fun k h => h
    | cons v vs ih => exact fun k h => ih _ (h.addInput _ _ v)
  unfold BhIrKernel.record
  split
  · exact h
  · exact ⟨h.set, h.map⟩
  · exact h.addDiscard _
  · split_ifs
    · exact h
    · exact ⟨h.set, h.map⟩
  · have hout := (hinputs i.inputs k h).addOutput i.opcode i.operand0
    dsimp only
    split_ifs
    · exact ⟨hout.set, hout.map⟩
    · exact hout

theorem Built.parametric {k : BhIrKernel} (h : Built k) : Parametric k := by
  obtain ⟨l, idxs, rfl⟩ := h
  have hfold : ∀ (idxs : List ℕ) (k : BhIrKernel), Parametric k →
      Parametric (idxs.foldl (BhIrKernel.addInstr l) k) := by
    intro idxs
    induction idxs with
    | nil => exact fun k h => h
    | cons n idxs ih =>
      intro k h
      have hrec := h.record (instrAt l n)
      exact ih _ ⟨hrec.set, hrec.map⟩
  exact hfold idxs {} ⟨nofun, nofun⟩

/-! ## Waiting for an empty queue -/

def Act.isSync : Act → Bool
  | .sync _ => true
  | _ => false

/-- What is deleted at once is used by no queued call: the queue is empty, or `sync` will wait until
it is, or the arrays are others. -/
def World.Guarded (w : World) : Prop :=
  w.queue.callQueue = [] ∨
    (∃ b, .sync b ∈ w.todo.takeWhile Act.isSync ∧ (w.arrayMap.lookup b).isSome) ∨
    ∀ bs, .discard bs ∈ w.todo → ∀ a ∈ lookups w.arrayMap bs, ∀ c ∈ w.queue.callQueue, a ∉ c.2.arrays

structure WInv (w : World) : Prop where
  owned : Owned w
  guarded : w.Guarded

/-- Without syncs to come, the guard is about the queue or the arrays. -/
theorem World.Guarded.resolve (h : w.Guarded) (hnone : w.todo.takeWhile Act.isSync = []) :
    ∀ bs, .discard bs ∈ w.todo → ∀ a ∈ lookups w.arrayMap bs, ∀ c ∈ w.queue.callQueue, a ∉ c.2.arrays := by
  rcases h with h | ⟨b, hb, _⟩ | h
  · intro bs _ a _ c hc
    rw [h] at hc
    cases hc
  · rw [hnone] at hb
    cases hb
  · exact h

theorem lookups_eraseAll_subset {m : ArrayMap} {bs bs' : List (Option BhBase)} {a : ℕ}
    (h : a ∈ lookups (eraseAll m bs) bs') : a ∈ lookups m bs' := by
  obtain ⟨b, hb, ha⟩ := List.mem_filterMap.mp h
  exact List.mem_filterMap.mpr ⟨b, hb, lookup_of_eraseAll ha⟩

/-- The arrays of the queued calls after an attachment are those before. -/
theorem arrays_attach {bs : List (Option BhBase)} : ∀ c ∈ (w.attach bs).queue.callQueue,
    ∃ c' ∈ w.queue.callQueue, c.2.arrays = c'.2.arrays := by
  intro c hc
  unfold World.attach at hc
  cases hlast : w.queue.callQueue.getLast? with
  | none =>
    rw [hlast] at hc
    exact ⟨c, hc, rfl⟩
  | some d =>
    rw [hlast] at hc
    obtain ⟨l, hl⟩ := List.getLast?_eq_some_iff.mp hlast
    rcases List.mem_append.mp hc with hc | hc
    · exact ⟨c, (List.dropLast_sublist _).mem hc, rfl⟩
    · rw [List.mem_singleton.mp hc]
      refine ⟨d, ?_, rfl⟩
      rw [hl]
      exact List.mem_append_right _ (List.mem_singleton_self d)

theorem WInv.act (h : WInv w) (hstep : ActStep w w') : WInv w' := by
  cases hstep with
  | @unknown base rest ht hb =>
    refine ⟨⟨h.owned.ok, h.owned.live, h.owned.distinct, h.owned.fresh, h.owned.past⟩, ?_⟩
    rcases h.guarded with hg | ⟨b, hb', hk⟩ | hg
    · exact Or.inl hg
    · refine Or.inr (Or.inl ⟨b, ?_, hk⟩)
      rw [ht] at hb'
      rcases List.mem_cons.mp hb' with heq | hb'
      · cases heq
        rw [hb] at hk
        cases hk
      · exact hb'
    · refine Or.inr (Or.inr fun bs hbs => hg bs ?_)
      rw [ht]
      exact List.mem_cons_of_mem _ hbs
  | synced ht hb hq =>
    exact ⟨⟨h.owned.ok, h.owned.live, h.owned.distinct, h.owned.fresh, h.owned.past⟩, Or.inl hq⟩
  | @discard bs rest ht =>
    have hsafe := h.guarded.resolve (by rw [ht]; rfl)
    have howned := h.owned.discard (hsafe bs (by rw [ht]; exact List.mem_cons_self))
    refine ⟨⟨howned.ok, howned.live, howned.distinct, howned.fresh, howned.past⟩, Or.inr (Or.inr ?_)⟩
    intro bs' hbs' a ha c hc
    refine hsafe bs' ?_ a (lookups_eraseAll_subset ha) c hc
    rw [ht]
    exact List.mem_cons_of_mem _ hbs'
  | @attach bs rest ht =>
    have hsafe := h.guarded.resolve (by rw [ht]; rfl)
    have howned : Owned (w.attach bs) := h.owned.attach
    refine ⟨⟨howned.ok, howned.live, howned.distinct, howned.fresh, howned.past⟩, Or.inr (Or.inr ?_)⟩
    intro bs' hbs' a ha c hc
    obtain ⟨c', hc', harrays⟩ := arrays_attach c hc
    rw [harrays]
    refine hsafe bs' ?_ a ?_ c' hc'
    · rw [ht]
      exact List.mem_cons_of_mem _ hbs'
    · have hmap : (w.attach bs).arrayMap = eraseAll w.arrayMap bs := by
        unfold World.attach
        cases w.queue.callQueue.getLast? <;> rfl
      have ha' : a ∈ lookups (w.attach bs).arrayMap bs' := ha
      rw [hmap] at ha'
      exact lookups_eraseAll_subset ha'
  | child ht =>
    have hsafe := h.guarded.resolve (by rw [ht]; rfl)
    refine ⟨⟨h.owned.ok, h.owned.live, h.owned.distinct, h.owned.fresh, h.owned.past⟩, Or.inr (Or.inr ?_)⟩
    intro bs hbs
    refine hsafe bs ?_
    rw [ht]
    exact List.mem_cons_of_mem _ hbs
  | failed ht =>
    exact ⟨⟨h.owned.ok, h.owned.live, h.owned.distinct, h.owned.fresh, h.owned.past⟩, Or.inr (Or.inr nofun)⟩

theorem WInv.build (h : WInv w) (hstep : Internal cfg w.queue s) : WInv { w with queue := s } := by
  obtain ⟨htime, hqueue⟩ := hstep.timeline_eq
  refine ⟨⟨?_, ?_, h.owned.distinct, h.owned.fresh, ?_⟩, ?_⟩
  · rw [htime]
    exact h.owned.ok
  · rw [htime]
    exact h.owned.live
  · rw [htime]
    exact h.owned.past
  · rcases h.guarded with hg | hg | hg
    · refine Or.inl (List.eq_nil_iff_forall_not_mem.mpr fun c hc => ?_)
      have hmem := hqueue c hc
      rw [hg] at hmem
      cases hmem
    · exact Or.inr (Or.inl hg)
    · exact Or.inr (Or.inr fun bs hbs a ha c hc => hg bs hbs a ha c (hqueue c hc))

/-! ## Taking a kernel -/

/-- A kernel with computations that discards at once, after `sync` or after the child, either
waits for an empty queue, since one of the arrays it syncs is known, or discards only arrays that
no queued call uses. -/
def Meets (w : World) (kernel : BhIrKernel) : Prop :=
  kernel.outputSet ≠ [] → (kernel.scalar = true ∨ kernel.syncs ≠ []) →
    (∃ b, (b ∈ kernel.syncs ∨ kernel.scalar = true ∧ b ∈ bases kernel) ∧
      ((w.arrayMap.lookup b).isSome ∨ kernel.scalar = false ∧ b ∈ bases kernel)) ∨
    ∀ b ∈ kernel.discards, (kernel.scalar = false → b ∉ bases kernel) ∧
      ∀ a, w.arrayMap.lookup b = some a → ∀ c ∈ w.queue.callQueue, a ∉ c.2.arrays

theorem takeWhile_map_sync (bs : List (Option BhBase)) (rest : List Act) :
    (bs.map Act.sync ++ rest).takeWhile Act.isSync = bs.map Act.sync ++ rest.takeWhile Act.isSync := by
  induction bs with
  | nil => rfl
  | cons b bs ih =>
    rw [List.map_cons, List.cons_append, List.takeWhile_cons, if_pos (show (Act.sync b).isSync = true from rfl), ih]
    rfl

theorem eraseAll_nil (m : ArrayMap) : eraseAll m [] = m := by simp [eraseAll]

/-- `compileAndRun` adds at most the call itself to the queue. -/
theorem mem_callQueue_compileAndRun {k : SourceKernelCall} {c : KernelCall}
    (hc : c ∈ (compileAndRun cfg s k).callQueue) : c ∈ s.callQueue ∨ c.2 = k := by
  have hpush : ∀ id, c ∈ (s.push (id, k)).callQueue → c ∈ s.callQueue ∨ c.2 = k := by
    intro id hc
    refine (List.mem_append.mp hc).imp_right fun hc => ?_
    rw [List.mem_singleton.mp hc]
  have hnew : c ∈ (runNew cfg s k).callQueue → c ∈ s.callQueue ∨ c.2 = k := hpush _
  unfold compileAndRun at hc
  cases hl : s.knownKernelID.lookup k.functionID with
  | none =>
    rw [hl] at hc
    exact hnew hc
  | some literal =>
    rw [hl] at hc
    dsimp only at hc
    by_cases h : cfg.dynamicSizeKernel ∨ literal = k.literalID
    · rw [if_pos h] at hc
      unfold runKnown at hc
      by_cases hq : s.callQueue = []
      · rw [if_pos hq] at hc
        split at hc
        · exact hpush _ hc
        · exact Or.inl hc
      · rw [if_neg hq] at hc
        exact hpush _ hc
    · rw [if_neg h] at hc
      exact hnew hc

/-- A generated call with the discards `bs` attached, after `compileAndRun`. -/
theorem Owned.run (cfg : Config) (kernel : BhIrKernel) (bs : List (Option BhBase)) (code : Code) (h : Owned w) :
    Owned { w with
      queue := compileAndRun cfg w.queue
        ((generateKernel w.arrayMap kernel code).addDiscards (lookups w.arrayMap bs))
      arrayMap := eraseAll w.arrayMap bs } := by
  refine h.extend (T := [.call (lookups w.arrayMap (bases kernel))]) ?_ ?_
  · have harrays : ((generateKernel w.arrayMap kernel code).addDiscards (lookups w.arrayMap bs)).arrays =
        lookups w.arrayMap (bases kernel) := arrays_generateKernel w.arrayMap kernel code
    have hdiscards : ((generateKernel w.arrayMap kernel code).addDiscards (lookups w.arrayMap bs)).discardSet =
        lookups w.arrayMap bs := List.nil_append _
    rw [timeline_compileAndRun, SourceKernelCall.marks, harrays, hdiscards, List.append_assoc]
    rfl
  · intro m hm
    rw [List.mem_singleton.mp hm]
    exact ⟨_, rfl, h.lookups_live _⟩

/-- `call_child`. -/
theorem WInv.takeScalar {kernel : BhIrKernel} (h : WInv w) (hk : Built kernel) (hok : Meets w kernel)
    (hout : kernel.outputSet ≠ []) (hs : kernel.scalar = true) : WInv (w.take cfg gen kernel) := by
  unfold World.take
  rw [if_pos hout, if_pos hs]
  refine ⟨⟨h.owned.ok, h.owned.live, h.owned.distinct, h.owned.fresh, h.owned.past⟩, ?_⟩
  by_cases hknown : ∃ b ∈ kernel.syncs ++ bases kernel, (w.arrayMap.lookup b).isSome
  · obtain ⟨b, hb, hsome⟩ := hknown
    refine Or.inr (Or.inl ⟨b, ?_, hsome⟩)
    dsimp only
    rw [List.append_assoc, List.append_assoc, takeWhile_map_sync]
    exact List.mem_append_left _ (List.mem_map_of_mem hb)
  · refine Or.inr (Or.inr fun bs hbs a ha c hc => ?_)
    have hbs' : bs = (kernel.outputSet.map BhView.base).dedup ∨ bs = kernel.discards := by
      simpa using hbs
    rcases hbs' with rfl | rfl
    · -- an output that is known is a parameter that is known
      obtain ⟨b, hb, hl⟩ := List.mem_filterMap.mp ha
      obtain ⟨v, hv, rfl⟩ := List.mem_map.mp (List.mem_dedup.mp hb)
      have hpar := hk.parametric
      have hmem := hpar.map _ (hpar.set v hv)
      exact absurd ⟨v.base, List.mem_append_right _ hmem, by rw [hl]; rfl⟩ hknown
    · obtain ⟨b, hb, hl⟩ := List.mem_filterMap.mp ha
      rcases hok hout (Or.inl hs) with ⟨b', hb', hsome⟩ | hother
      · rcases hsome with hsome | ⟨hno, _⟩
        · refine absurd ⟨b', List.mem_append.mpr (hb'.imp_right And.right), hsome⟩ hknown
        · rw [hs] at hno
          cases hno
      · exact (hother b hb).2 a hl c hc

/-- A kernel for the GPU. -/
theorem WInv.takeGpu {kernel : BhIrKernel} (h : WInv w) (hok : Meets w kernel) (ht : w.todo = [])
    (hout : kernel.outputSet ≠ []) (hs : kernel.scalar = false) : WInv (w.take cfg gen kernel) := by
  unfold World.take
  rw [if_pos hout, if_neg (by rw [hs]; exact Bool.false_ne_true)]
  obtain ⟨howned, hgrown, hknown⟩ := getArrays_spec (bases kernel) h.owned
  dsimp only
  generalize (bases kernel).foldl World.getArray w = w₁ at howned hgrown hknown
  have ht₁ : w₁.todo = [] := hgrown.todo.trans ht
  cases gen kernel with
  | none =>
    refine ⟨howned, Or.inr (Or.inr fun bs hbs => ?_)⟩
    rw [ht₁] at hbs
    cases hbs
  | some code =>
    dsimp only
    by_cases hsync : kernel.syncs ≠ []
    · rw [if_pos hsync]
      have hrun : Owned { w₁ with
          queue := compileAndRun cfg w₁.queue (generateKernel w₁.arrayMap kernel code) } := by
        have hrun := howned.run cfg kernel [] code
        rwa [eraseAll_nil] at hrun
      refine ⟨⟨hrun.ok, hrun.live, hrun.distinct, hrun.fresh, hrun.past⟩, ?_⟩
      rcases hok hout (Or.inr hsync) with ⟨b, hb, hsome⟩ | hother
      · have hbs : b ∈ kernel.syncs := hb.resolve_right fun hc => by rw [hs] at hc; cases hc.1
        have hk : (w₁.arrayMap.lookup b).isSome := by
          rcases hsome with hsome | ⟨_, hb'⟩
          · obtain ⟨a, ha⟩ := Option.isSome_iff_exists.mp hsome
            rw [hgrown.keep b a ha]
            rfl
          · exact hknown b hb'
        refine Or.inr (Or.inl ⟨b, ?_, hk⟩)
        dsimp only
        rw [takeWhile_map_sync]
        exact List.mem_append_left _ (List.mem_map_of_mem hbs)
      · refine Or.inr (Or.inr fun bs hbs a ha c hc => ?_)
        obtain rfl : bs = kernel.discards := by simpa using hbs
        obtain ⟨b, hb, hl⟩ := List.mem_filterMap.mp ha
        obtain ⟨hnot, huse⟩ := hother b hb
        rcases mem_callQueue_compileAndRun hc with hc | hc
        · rw [hgrown.queue] at hc
          exact huse a ((hgrown.others b (hnot hs)).symm.trans hl) c hc
        · rw [hc, arrays_generateKernel]
          intro ha'
          obtain ⟨b', hb', hl'⟩ := mem_lookups ha'
          have heq := List.inj_on_of_nodup_map howned.distinct hl' (mem_of_lookup hl) rfl
          exact hnot hs ((Prod.mk.inj heq).1 ▸ hb')
    · rw [if_neg hsync]
      have hrun := howned.run cfg kernel kernel.discards code
      refine ⟨hrun, Or.inr (Or.inr fun bs hbs => ?_)⟩
      rw [show ({ w₁ with queue := _, arrayMap := _ } : World).todo = [] from ht₁] at hbs
      cases hbs

theorem WInv.take {kernel : BhIrKernel} (h : WInv w) (hk : Built kernel) (hok : Meets w kernel) (ht : w.todo = []) :
    WInv (w.take cfg gen kernel) := by
  by_cases hout : kernel.outputSet ≠ []
  · cases hs : kernel.scalar with
    | true => exact h.takeScalar hk hok hout hs
    | false => exact h.takeGpu hok ht hout hs
  · unfold World.take
    rw [if_neg hout]
    refine ⟨⟨h.owned.ok, h.owned.live, h.owned.distinct, h.owned.fresh, h.owned.past⟩, Or.inr (Or.inr ?_)⟩
    intro bs hbs
    have hno : Act.discard bs ∉ kernel.syncs.map Act.sync ++
        if kernel.discards ≠ [] then [Act.attach kernel.discards] else [] := by
      split_ifs <;> simp
    exact absurd hbs hno

theorem Reachable.inv (h : Reachable cfg gen Meets w) : WInv w := by
  induction h with
  | init => exact ⟨⟨List.Pairwise.nil, nofun, List.nodup_nil, nofun, nofun⟩, Or.inl rfl⟩
  | take kernel _ hk hok _ ht ih => exact ih.take hk hok ht
  | act _ _ hstep ih => exact ih.act hstep
  | build _ hstep ih => exact ih.build hstep

/-- Arrays outlive the calls that use them in every run whose kernels meet the condition. -/
theorem arrays_outlive_kernels (h : Reachable cfg gen Meets w) : w.queue.Outlives :=
  outlives_of_timeline h.inv.owned.ok

/-! ## Two runs -/

/-- A kernel that copies one array to another and drops the first; with `sync`, it also syncs a third
array that the GPU has never seen. -/
def copyAndDrop (sync : Bool) : BhIrKernel :=
  let whole (addr : ℕ) : BhView := ⟨some ⟨addr, .int64, 4⟩, 0, [⟨4, 1⟩]⟩
  let blank : BhView := ⟨none, 0, []⟩
  let l : List BhInstruction :=
    [⟨.identity, whole 1, whole 0, blank, .int .int64 0⟩, ⟨.sync, whole 2, blank, blank, .int .int64 0⟩,
      ⟨.free, whole 0, blank, blank, .int .int64 0⟩, ⟨.discard, whole 0, blank, blank, .int .int64 0⟩]
  (if sync then [0, 1, 2, 3] else [0, 2, 3]).foldl (BhIrKernel.addInstr l) {}

def anyCode : BhIrKernel → Option Code := fun _ => some ⟨(7, 3), [4], "f", [4]⟩

theorem arrays_outlive_kernels_copyAndDrop :
    ∃ w, Reachable ⟨true, false, true⟩ anyCode Meets w ∧ w.queue.Outlives ∧ .delete 0 ∈ w.queue.log := by
  have hmeets : Meets {} (copyAndDrop false) := by
    intro _ hc
    exact absurd hc (by decide)
  have h0 : Reachable ⟨true, false, true⟩ anyCode Meets {} := Reachable.init
  have h1 := Reachable.take (copyAndDrop false) h0 ⟨_, _, rfl⟩ hmeets rfl rfl
  have h2 := h1.build (Internal.start rfl rfl)
  have h3 := h2.build (Internal.finish (show _ = [] ++ ((7, 3), "f") :: [] from rfl))
  exact ⟨_, h3, arrays_outlive_kernels h3, by decide⟩

/-- The kernel waits for its build when its input is deleted. -/
theorem not_arrays_outlive_lateSync :
    ∃ w, Reachable ⟨true, false, true⟩ anyCode (fun _ _ => True) w ∧ ¬ w.queue.Outlives := by
  have h0 : Reachable ⟨true, false, true⟩ anyCode (fun _ _ => True) {} := Reachable.init
  have h1 := Reachable.take (copyAndDrop true) h0 ⟨_, _, rfl⟩ trivial rfl rfl
  have h2 := h1.build (Internal.start rfl rfl)
  have h3 := h2.act rfl (ActStep.unknown rfl (by decide))
  have h4 := h3.act rfl (ActStep.discard rfl)
  refine ⟨_, h4, fun hout => ?_⟩
  have hlog := hout [] 0 [] (by decide)
  exact absurd hlog.2 (by decide)

end Bohrium.Gpu
