import Bohrium.Bxx.Lifecycle

/-! # Lifetimes in the C++ bridge

The counts of the runtime are the numbers of arrays, and the monitor of every base is in the phase
that its count asks for. Each operation of the bridge keeps this; which temporaries are left after an
operation is followed beside it. -/
namespace Bohrium.Bxx
set_option autoImplicit false

/-! ## The queue and the garbage -/

def Phase.settle : Phase → Phase
  | .discarded external => .deleted external
  | p => p

/-- The garbage is what is discarded and not deleted, and its `BH_DISCARD`s are on the queue. -/
structure Collected (w : Bridge) : Prop where
  garbage : ∀ b, b ∈ w.garbage ↔ ∃ external, phase b w.log = .discarded external
  nodup : w.garbage.Nodup
  queued : ∀ b external, phase b w.log = .discarded external → discards w.queue b = true
  room : w.queue.length ≤ queueMax

/-- Nothing happens to `c` but the deletion it waits for. -/
def Ages (w w' : Bridge) (c : BhBase) : Prop :=
  phase c w'.log = phase c w.log ∨
    ∃ external, phase c w.log = .discarded external ∧ phase c w'.log = .deleted external

theorem Ages.trans {w w' w'' : Bridge} {c : BhBase} (h : Ages w w' c) (h' : Ages w' w'' c) : Ages w w'' c := by
  obtain h | ⟨external, h₁, h₂⟩ := h
  · simpa only [Ages, h] using h'
  · obtain h' | ⟨external', h₁', _⟩ := h'
    · exact Or.inr ⟨external, h₁, h'.trans h₂⟩
    · rw [h₂] at h₁'
      cases h₁'

theorem Ages.eq_of_ne {w w' : Bridge} {c : BhBase} (h : Ages w w' c)
    (hne : ∀ external, phase c w.log ≠ .discarded external) : phase c w'.log = phase c w.log := by
  obtain h | ⟨external, h₁, _⟩ := h
  · exact h
  · exact absurd h₁ (hne external)

theorem foldl_delete_of_not_mem {b : BhBase} {bases : List BhBase} (h : b ∉ bases) (p : Phase) :
    (bases.map Event.delete).foldl (Phase.next b) p = p := by
  induction bases generalizing p with
  | nil => rfl
  | cons c bases ih =>
    simp only [List.mem_cons, not_or] at h
    obtain ⟨hc, hrest⟩ := h
    have hskip : Phase.next b p (.delete c) = p := by simp [Phase.next, Ne.symm hc]
    rw [List.map_cons, List.foldl_cons, hskip]
    exact ih hrest p

theorem foldl_delete_of_mem {b : BhBase} {bases : List BhBase} (hnd : bases.Nodup) (h : b ∈ bases)
    (external : Bool) :
    (bases.map Event.delete).foldl (Phase.next b) (.executed external) = .deleted external := by
  induction bases with
  | nil => cases h
  | cons c bases ih =>
    obtain ⟨hc, hnd⟩ := List.nodup_cons.mp hnd
    rw [List.map_cons, List.foldl_cons]
    obtain rfl | hb := List.mem_cons.mp h
    · simp only [Phase.next, if_true]
      exact foldl_delete_of_not_mem hc _
    · have hne : c ≠ b := fun he => hc (he ▸ hb)
      have hskip : Phase.next b (.executed external) (.delete c) = .executed external := by
        simp [Phase.next, hne]
      rw [hskip]
      exact ih hnd hb

theorem discards_append (batch : List BhInstruction) (i : BhInstruction) (b : BhBase) :
    discards (batch ++ [i]) b = (discards batch b || (decide (i.opcode = .discard) && uses i b)) := by
  simp [discards]

namespace Collected

variable {w : Bridge}

theorem phase_execute (h : Collected w) (b : BhBase) : phase b w.execute.log = (phase b w.log).settle := by
  show phase b (w.log ++ .execute w.queue :: w.garbage.map .delete) = _
  rw [phase_append, List.foldl_cons]
  by_cases hb : b ∈ w.garbage
  · obtain ⟨external, hp⟩ := (h.garbage b).mp hb
    rw [hp]
    simp only [Phase.next, h.queued b external hp, if_true]
    exact foldl_delete_of_mem h.nodup hb external
  · rw [foldl_delete_of_not_mem hb]
    cases hp : phase b w.log with
    | discarded external => exact absurd ((h.garbage b).mpr ⟨external, hp⟩) hb
    | absent => rfl
    | live => rfl
    | releasing external => rfl
    | freed => rfl
    | executed external => rfl
    | deleted external => rfl
    | wrong => rfl

theorem execute (h : Collected w) : Collected w.execute := by
  have hnot : ∀ b external, phase b w.execute.log ≠ .discarded external := by
    intro b external hp
    rw [h.phase_execute] at hp
    cases hq : phase b w.log <;> rw [hq] at hp <;> cases hp
  refine ⟨fun b => ⟨fun hb => ?_, fun ⟨external, hp⟩ => absurd hp (hnot b external)⟩, List.nodup_nil,
    fun b external hp => absurd hp (hnot b external), Nat.zero_le _⟩
  cases hb

theorem ages_execute (h : Collected w) (c : BhBase) : Ages w w.execute c := by
  rw [Ages, h.phase_execute]
  cases phase c w.log with
  | discarded external => exact Or.inr ⟨external, rfl, rfl⟩
  | absent => exact Or.inl rfl
  | live => exact Or.inl rfl
  | releasing external => exact Or.inl rfl
  | freed => exact Or.inl rfl
  | executed external => exact Or.inl rfl
  | deleted external => exact Or.inl rfl
  | wrong => exact Or.inl rfl

theorem guard (h : Collected w) : Collected w.guard := by
  unfold Bridge.guard
  split
  · exact h.execute
  · exact h

theorem ages_guard (h : Collected w) (c : BhBase) : Ages w w.guard c := by
  unfold Bridge.guard
  split
  · exact h.ages_execute c
  · exact Or.inl rfl

theorem queue_guard_lt (w : Bridge) : w.guard.queue.length < queueMax := by
  unfold Bridge.guard
  split
  · show 0 < queueMax
    decide
  · omega

theorem flush (h : Collected w) : Collected w.flush := by
  unfold Bridge.flush
  split
  · exact h
  · exact h.execute

theorem ages_flush (h : Collected w) (c : BhBase) : Ages w w.flush c := by
  unfold Bridge.flush
  split
  · exact Or.inl rfl
  · exact h.ages_execute c

theorem phase_push (w : Bridge) (i : BhInstruction) (b : BhBase) :
    phase b (w.push i).log = (phase b w.guard.log).next b (.instr i) := phase_append b w.guard.log [.instr i]

/-- An instruction that does not use `c`. -/
theorem ages_push (h : Collected w) {i : BhInstruction} {c : BhBase} (hc : uses i c = false) :
    Ages w (w.push i) c := by
  refine (h.ages_guard c).trans (Or.inl ?_)
  rw [phase_push]
  simp [Phase.next, hc]

/-- An instruction that uses a base which is not discarded. -/
theorem phase_push_of_uses (h : Collected w) {i : BhInstruction} {b : BhBase} (hb : uses i b = true)
    (hne : ∀ external, phase b w.log ≠ .discarded external) :
    phase b (w.push i).log = (phase b w.log).use i.opcode := by
  rw [phase_push, (h.ages_guard b).eq_of_ne hne]
  simp [Phase.next, hb]

theorem push (h : Collected w) {i : BhInstruction} (hopcode : i.opcode ≠ .discard)
    (hi : ∀ b, uses i b = true → ∀ external, phase b w.log ≠ .discarded external) : Collected (w.push i) := by
  have hg := h.guard
  have hsame : ∀ b external, phase b (w.push i).log = .discarded external ↔
      phase b w.guard.log = .discarded external := by
    intro b external
    rw [phase_push]
    by_cases hu : uses i b = true
    · have hne := hi b hu
      have hsettled := (h.ages_guard b).eq_of_ne hne
      simp only [Phase.next, if_pos hu]
      constructor
      · intro hp
        unfold Phase.use at hp
        split_ifs at hp
      · intro hp
        rw [hsettled] at hp
        exact absurd hp (hne external)
    · simp [Phase.next, hu]
  refine ⟨fun b => ?_, hg.nodup, fun b external hp => ?_, ?_⟩
  · simp only [hsame]
    exact hg.garbage b
  · show discards (w.guard.queue ++ [i]) b = true
    rw [discards_append, hg.queued b external ((hsame b external).mp hp), Bool.true_or]
  · have := queue_guard_lt w
    show (w.guard.queue ++ [i]).length ≤ queueMax
    rw [List.length_append, List.length_singleton]
    omega

end Collected

/-! ## What the queue does not touch -/

namespace Bridge

variable (w : Bridge)

@[simp] theorem arrays_guard : w.guard.arrays = w.arrays := by unfold guard; split <;> rfl
@[simp] theorem refCount_guard : w.guard.refCount = w.refCount := by unfold guard; split <;> rfl
@[simp] theorem nextBase_guard : w.guard.nextBase = w.nextBase := by unfold guard; split <;> rfl
@[simp] theorem destroyed_guard : w.guard.destroyed = w.destroyed := by unfold guard; split <;> rfl

@[simp] theorem arrays_flush : w.flush.arrays = w.arrays := by unfold flush; split <;> rfl
@[simp] theorem refCount_flush : w.flush.refCount = w.refCount := by unfold flush; split <;> rfl
@[simp] theorem nextBase_flush : w.flush.nextBase = w.nextBase := by unfold flush; split <;> rfl
@[simp] theorem destroyed_flush : w.flush.destroyed = w.destroyed := by unfold flush; split <;> rfl

variable (i : BhInstruction) (checked : Bool) (v : BhView) (b : BhBase)

@[simp] theorem arrays_push : (w.push i).arrays = w.arrays := w.arrays_guard
@[simp] theorem refCount_push : (w.push i).refCount = w.refCount := w.refCount_guard
@[simp] theorem nextBase_push : (w.push i).nextBase = w.nextBase := w.nextBase_guard
@[simp] theorem destroyed_push : (w.push i).destroyed = w.destroyed := w.destroyed_guard

@[simp] theorem arrays_freeBase : (w.freeBase checked v b).arrays = w.arrays := by
  unfold freeBase
  split <;> simp

@[simp] theorem refCount_freeBase : (w.freeBase checked v b).refCount = w.refCount := by
  unfold freeBase
  split <;> simp

@[simp] theorem nextBase_freeBase : (w.freeBase checked v b).nextBase = w.nextBase := by
  unfold freeBase
  split <;> simp

@[simp] theorem destroyed_freeBase : (w.freeBase checked v b).destroyed = w.destroyed := by
  unfold freeBase
  split <;> simp

@[simp] theorem arrays_dropReference : (w.dropReference checked v).arrays = w.arrays := by
  unfold dropReference
  split
  · rfl
  · split <;> simp [discardBase]

@[simp] theorem nextBase_dropReference : (w.dropReference checked v).nextBase = w.nextBase := by
  unfold dropReference
  split
  · rfl
  · split <;> simp [discardBase]

@[simp] theorem destroyed_dropReference : (w.dropReference checked v).destroyed = w.destroyed := by
  unfold dropReference
  split
  · rfl
  · split <;> simp [discardBase]

theorem refCount_dropReference (hv : v.base = some b) :
    (w.dropReference checked v).refCount = Function.update w.refCount b (w.refCount b - 1) := by
  simp only [dropReference, hv]
  split
  · rename_i hone
    simp [discardBase, hone]
  · rfl

end Bridge

/-! ## The end of a base -/

theorem uses_system (opcode : BhOpcode) {v : BhView} {b : BhBase} (hv : v.base = some b) (c : BhBase) :
    uses (Bridge.system opcode v) c = decide (b = c) := by
  simp [uses, Bridge.system, hv]

namespace Collected

variable {w : Bridge} {v : BhView} {b : BhBase} {external checked : Bool}

theorem freeBase (h : Collected w) (hv : v.base = some b) (hp : phase b w.log = .releasing external)
    (hext : w.external b = external) (hchecked : external = true → checked = true) :
    Collected (w.freeBase checked v b) ∧ (∀ c, b ≠ c → Ages w (w.freeBase checked v b) c) ∧
      phase b (w.freeBase checked v b).log = if external then .releasing true else .freed := by
  have hne : ∀ external, phase b w.log ≠ .discarded external := by simp [hp]
  cases external with
  | true =>
    have hc := hchecked rfl
    simp only [Bridge.freeBase, hext, hc, Bool.and_self, if_true]
    exact ⟨⟨h.garbage, h.nodup, h.queued, h.room⟩, fun c _ => Or.inl rfl, hp⟩
  | false =>
    simp only [Bridge.freeBase, hext, Bool.and_false, Bool.false_eq_true, if_false]
    refine ⟨h.push (by simp [Bridge.system]) fun c hc => ?_, fun c hc => h.ages_push ?_, ?_⟩
    · rw [uses_system _ hv, decide_eq_true_eq] at hc
      exact hc ▸ hne
    · rw [uses_system _ hv]
      simpa using hc
    · rw [h.phase_push_of_uses (by simp [uses_system _ hv]) hne, hp]
      rfl

theorem discardBase (h : Collected w) (hv : v.base = some b)
    (hp : phase b w.log = if external then .releasing true else .freed) :
    Collected (w.discardBase v b) ∧ (∀ c, b ≠ c → Ages w (w.discardBase v b) c) ∧
      phase b (w.discardBase v b).log = .discarded external := by
  have hne : ∀ external, phase b w.log ≠ .discarded external := by
    intro external'
    rw [hp]
    cases external <;> simp
  have hself : uses (Bridge.system .discard v) b = true := by simp [uses_system _ hv]
  have hb : phase b (w.discardBase v b).log = .discarded external := by
    show phase b (w.push (Bridge.system .discard v)).log = _
    rw [h.phase_push_of_uses hself hne, hp]
    cases external <;> rfl
  have hother : ∀ c, b ≠ c → Ages w (w.discardBase v b) c := by
    intro c hc
    show Ages w (w.push (Bridge.system .discard v)) c
    apply h.ages_push
    rw [uses_system _ hv]
    simpa using hc
  have hpush : ∀ c, b ≠ c → phase c (w.discardBase v b).log = phase c w.guard.log := by
    intro c hc
    show phase c (w.push (Bridge.system .discard v)).log = _
    rw [phase_push]
    simp [Phase.next, uses_system _ hv, hc]
  have hg := h.guard
  have hbnot : b ∉ w.guard.garbage := by
    intro hmem
    obtain ⟨external', hd⟩ := (hg.garbage b).mp hmem
    rw [(h.ages_guard b).eq_of_ne hne] at hd
    exact hne external' hd
  refine ⟨⟨fun c => ?_, ?_, fun c external' hc => ?_, ?_⟩, hother, hb⟩
  · show c ∈ w.guard.garbage ++ [b] ↔ _
    rw [List.mem_append, List.mem_singleton]
    by_cases hc : b = c
    · subst hc
      simp [hb]
    · rw [hpush c hc, hg.garbage c]
      simp [Ne.symm hc]
  · show (w.guard.garbage ++ [b]).Nodup
    exact List.nodup_append.mpr ⟨hg.nodup, List.nodup_singleton b, fun x hx y hy => by
      rw [List.mem_singleton.mp hy]
      exact fun he => hbnot (he ▸ hx)⟩
  · show discards (w.guard.queue ++ [Bridge.system .discard v]) c = true
    rw [discards_append]
    by_cases hbc : b = c
    · subst hbc
      rw [hself]
      simp [Bridge.system]
    · rw [hpush c hbc] at hc
      rw [hg.queued c external' hc, Bool.true_or]
  · have := queue_guard_lt w
    show (w.guard.queue ++ [Bridge.system .discard v]).length ≤ queueMax
    rw [List.length_append, List.length_singleton]
    omega

/-- A reference goes; only the last one of a base does anything. -/
theorem dropReference (h : Collected w) (hv : v.base = some b) (hp : phase b w.log = .live)
    (hchecked : w.refCount b = 1 → w.external b = true → checked = true) :
    Collected (w.dropReference checked v) ∧ (∀ c, b ≠ c → Ages w (w.dropReference checked v) c) ∧
      (w.refCount b = 1 → ∃ external, phase b (w.dropReference checked v).log = .discarded external) ∧
      (w.refCount b ≠ 1 → phase b (w.dropReference checked v).log = .live) := by
  simp only [Bridge.dropReference, hv]
  by_cases hone : w.refCount b = 1
  · rw [if_pos hone]
    let w₁ : Bridge := { w with
      refCount := Function.update w.refCount b 0
      log := w.log ++ [Event.release b (w.external b)] }
    have hp₁ : phase b w₁.log = .releasing (w.external b) := by
      show phase b (w.log ++ [_]) = _
      simp [phase_append, Phase.next, hp]
    have hother₁ : ∀ c, b ≠ c → phase c w₁.log = phase c w.log := by
      intro c hc
      show phase c (w.log ++ [_]) = _
      simp [phase_append, Phase.next, hc]
    have h₁ : Collected w₁ := by
      have hsame : ∀ c external, phase c w₁.log = .discarded external ↔ phase c w.log = .discarded external := by
        intro c external
        by_cases hc : b = c
        · subst hc
          simp [hp₁, hp]
        · rw [hother₁ c hc]
      refine ⟨fun c => ?_, h.nodup, fun c external hc => h.queued c external ((hsame c external).mp hc), h.room⟩
      simp only [hsame]
      exact h.garbage c
    obtain ⟨h₂, hother₂, hp₂⟩ := h₁.freeBase hv hp₁ rfl (hchecked hone)
    obtain ⟨h₃, hother₃, hp₃⟩ := h₂.discardBase hv hp₂
    refine ⟨h₃, fun c hc => ?_, fun _ => ⟨_, hp₃⟩, fun hne => absurd hone hne⟩
    have hages₁ : Ages w w₁ c := Or.inl (hother₁ c hc)
    exact hages₁.trans ((hother₂ c hc).trans (hother₃ c hc))
  · rw [if_neg hone]
    exact ⟨⟨h.garbage, h.nodup, h.queued, h.room⟩, fun c _ => Or.inl rfl, fun h1 => absurd h1 hone, fun _ => hp⟩

end Collected

/-! ## Counts and phases -/

/-- A base without a reference: not made yet, or at its end. -/
def Phase.Gone (p : Phase) : Prop := p = .absent ∨ ∃ external, p = .discarded external ∨ p = .deleted external

/-- What the count of a base says about its phase. -/
structure Sound (w : Bridge) : Prop where
  collected : Collected w
  nonneg : ∀ b, 0 ≤ w.refCount b
  live : ∀ b, 0 < w.refCount b → phase b w.log = .live
  gone : ∀ b, w.refCount b = 0 → (phase b w.log).Gone
  fresh : ∀ b, w.nextBase ≤ b.addr → phase b w.log = .absent

theorem Ages.gone {w w' : Bridge} {c : BhBase} (h : Ages w w' c) (hg : (phase c w.log).Gone) :
    (phase c w'.log).Gone := by
  obtain h | ⟨external, _, h⟩ := h
  · rw [h]
    exact hg
  · exact Or.inr ⟨external, Or.inr h⟩

theorem Ages.live {w w' : Bridge} {c : BhBase} (h : Ages w w' c) (hp : phase c w.log = .live) :
    phase c w'.log = .live := by
  rw [h.eq_of_ne (by simp [hp]), hp]

theorem Ages.absent {w w' : Bridge} {c : BhBase} (h : Ages w w' c) (hp : phase c w.log = .absent) :
    phase c w'.log = .absent := by
  rw [h.eq_of_ne (by simp [hp]), hp]

namespace Sound

variable {w w' : Bridge} {v : BhView} {b : BhBase}

theorem ages (h : Sound w) (hc : Collected w') (hcount : w'.refCount = w.refCount)
    (hnext : w'.nextBase = w.nextBase) (hages : ∀ c, Ages w w' c) : Sound w' where
  collected := hc
  nonneg b := hcount ▸ h.nonneg b
  live b hb := (hages b).live (h.live b (hcount ▸ hb))
  gone b hb := (hages b).gone (h.gone b (hcount ▸ hb))
  fresh b hb := (hages b).absent (h.fresh b (hnext ▸ hb))

theorem flush (h : Sound w) : Sound w.flush :=
  h.ages h.collected.flush w.refCount_flush w.nextBase_flush h.collected.ages_flush

theorem push (h : Sound w) {i : BhInstruction} (hfree : i.opcode ≠ .free) (hdiscard : i.opcode ≠ .discard)
    (hi : ∀ b, uses i b = true → 0 < w.refCount b) : Sound (w.push i) := by
  have hlive : ∀ b, uses i b = true → phase b w.log = .live := fun b hb => h.live b (hi b hb)
  apply h.ages _ (w.refCount_push i) (w.nextBase_push i)
  · intro c
    by_cases hc : uses i c = true
    · apply Or.inl
      rw [h.collected.phase_push_of_uses hc (by simp [hlive c hc]), hlive c hc]
      simp [Phase.use, hfree, hdiscard]
    · exact h.collected.ages_push (by simpa using hc)
  · apply h.collected.push hdiscard
    intro b hb
    simp [hlive b hb]

theorem addr_lt (h : Sound w) (hb : 0 < w.refCount b) : b.addr < w.nextBase := by
  by_contra hlt
  have habsent := h.fresh b (by omega)
  rw [h.live b hb] at habsent
  cases habsent

theorem dropReference (h : Sound w) {checked : Bool} (hv : v.base = some b) (hb : 0 < w.refCount b)
    (hchecked : w.refCount b = 1 → w.external b = true → checked = true) :
    Sound (w.dropReference checked v) := by
  obtain ⟨hcol, hother, hlast, hmore⟩ := h.collected.dropReference hv (h.live b hb) hchecked
  have hcount := w.refCount_dropReference checked v b hv
  have haddr := h.addr_lt hb
  -- the base itself, and every other one
  have hself : (w.dropReference checked v).refCount b = w.refCount b - 1 := by simp [hcount]
  have hrest : ∀ c, b ≠ c → (w.dropReference checked v).refCount c = w.refCount c := by
    intro c hc
    rw [hcount, Function.update_of_ne (Ne.symm hc)]
  refine ⟨hcol, fun c => ?_, fun c hc => ?_, fun c hc => ?_, fun c hc => ?_⟩
  · by_cases hbc : b = c
    · subst hbc
      omega
    · rw [hrest c hbc]
      exact h.nonneg c
  · by_cases hbc : b = c
    · subst hbc
      exact hmore (by omega)
    · exact (hother c hbc).live (h.live c (hrest c hbc ▸ hc))
  · by_cases hbc : b = c
    · subst hbc
      obtain ⟨external, hp⟩ := hlast (by omega)
      exact Or.inr ⟨external, Or.inl hp⟩
    · exact (hother c hbc).gone (h.gone c (hrest c hbc ▸ hc))
  · rw [Bridge.nextBase_dropReference] at hc
    have hbc : b ≠ c := fun he => by subst he; omega
    exact (hother c hbc).absent (h.fresh c hc)

theorem addReference (h : Sound w) (hv : v.base = some b) (hb : 0 < w.refCount b) : Sound (w.addReference v) := by
  have hcount : ∀ c, (w.addReference v).refCount c = w.refCount c + if b = c then 1 else 0 := by
    intro c
    simp only [Bridge.addReference, hv]
    by_cases hbc : b = c
    · subst hbc
      simp
    · simp [hbc, Function.update_of_ne (Ne.symm hbc)]
  have hlog : (w.addReference v).log = w.log := by simp [Bridge.addReference, hv]
  have hnext : (w.addReference v).nextBase = w.nextBase := by simp [Bridge.addReference, hv]
  have hcol : Collected (w.addReference v) := by
    simp only [Bridge.addReference, hv]
    exact ⟨h.collected.garbage, h.collected.nodup, h.collected.queued, h.collected.room⟩
  refine ⟨hcol, fun c => ?_, fun c hc => ?_, fun c hc => ?_, fun c hc => ?_⟩
  · have := h.nonneg c
    rw [hcount]
    split <;> omega
  · rw [hlog]
    rw [hcount] at hc
    apply h.live c
    split at hc
    · rename_i hbc
      exact hbc ▸ hb
    · omega
  · rw [hlog]
    rw [hcount] at hc
    have := h.nonneg c
    apply h.gone c
    split at hc <;> omega
  · rw [hlog]
    exact h.fresh c (hnext ▸ hc)

/-- `new bh_base`, with its first reference. -/
theorem create (h : Sound w) (hb : b.addr = w.nextBase) :
    Sound { w with
      nextBase := w.nextBase + 1
      log := w.log ++ [.create b]
      refCount := Function.update w.refCount b (w.refCount b + 1) } := by
  have habsent : phase b w.log = .absent := h.fresh b hb.ge
  have hzero : w.refCount b = 0 := by
    have := h.nonneg b
    by_contra hne
    have hlt := h.addr_lt (b := b) (by omega)
    omega
  have hself : phase b (w.log ++ [.create b]) = .live := by
    simp [phase_append, Phase.next, habsent]
  have hother : ∀ c, b ≠ c → phase c (w.log ++ [.create b]) = phase c w.log := by
    intro c hc
    simp [phase_append, Phase.next, hc]
  have hdisc : ∀ c external, phase c (w.log ++ [.create b]) = .discarded external ↔
      phase c w.log = .discarded external := by
    intro c external
    by_cases hbc : b = c
    · subst hbc
      simp [hself, habsent]
    · rw [hother c hbc]
  constructor
  · refine ⟨fun c => ?_, h.collected.nodup, fun c external hc => ?_, h.collected.room⟩
    · simp only [hdisc]
      exact h.collected.garbage c
    · exact h.collected.queued c external ((hdisc c external).mp hc)
  · intro c
    show 0 ≤ Function.update w.refCount b (w.refCount b + 1) c
    by_cases hbc : c = b
    · subst hbc
      simp [hzero]
    · rw [Function.update_of_ne hbc]
      exact h.nonneg c
  · intro c hc
    show phase c (w.log ++ [.create b]) = .live
    by_cases hbc : c = b
    · rw [hbc]
      exact hself
    · rw [hother c (Ne.symm hbc)]
      apply h.live c
      simpa only [Function.update_of_ne hbc] using hc
  · intro c hc
    show (phase c (w.log ++ [.create b])).Gone
    by_cases hbc : c = b
    · subst hbc
      simp [hzero] at hc
    · rw [hother c (Ne.symm hbc)]
      apply h.gone c
      simpa only [Function.update_of_ne hbc] using hc
  · intro c hc
    have hbc : b ≠ c := fun he => by
      subst he
      have : w.nextBase + 1 ≤ b.addr := hc
      omega
    show phase c (w.log ++ [.create b]) = .absent
    rw [hother c hbc]
    exact h.fresh c (Nat.le_of_succ_le hc)

end Sound

end Bohrium.Bxx
