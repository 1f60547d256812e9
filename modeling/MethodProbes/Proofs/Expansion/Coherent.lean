import MethodProbes.Proofs.Expansion.StoredVars
import MethodProbes.Proofs.Tracking.EntryCall

/-!
# What is bound together

Which variables an expander has bound fits the tracking of the method: the entry binds the variables
of its call at once, with the duration and the level that later markers of the cycle use.
-/
namespace MethodProbes

open Step

namespace Cycle

/-- The entry of the cycle has been expanded. -/
def Entered (c : Cycle) : Prop := c.isBound .entryTs = true ∨ c.isBound .sampleHit = true

/-- The variables that are bound are those that the tracking asks for. -/
structure Coherent (t : Tracking) (c : Cycle) : Prop where
  timed : c.isBound .entryTs = true → t.timed = true
  sampled : c.isBound .sampleHit = true → t.isSampled = true
  /-- An entry binds all variables of its call. -/
  entry : c.Entered → ∀ v ∈ t.entryVars, c.isBound v = true
  duration : c.Entered → t.timed = true → c.isBound .duration = true
  level : c.Entered → t.gate.comparesLevel = true → c.isBound .level = true
  timed_of_duration : c.isBound .duration = true → t.timed = true
  measured : c.measured = true → c.isBound .duration = true

theorem coherent_initial (t : Tracking) : initial.Coherent t := by
  constructor <;> simp [isBound, Entered, initial, slot?]

theorem Coherent.reset {t : Tracking} {c : Cycle} (h : c.Coherent t) : c.reset.Coherent t := by
  have hentered : ¬ c.reset.Entered := by simp [Entered, isBound]
  refine ⟨?_, ?_, fun h => absurd h hentered, fun h => absurd h hentered,
    fun h => absurd h hentered, fun hb => h.timed_of_duration ?_,
    fun h => absurd h Bool.false_ne_true⟩
  · simp [isBound]
  · simp [isBound]
  · rw [isBound, slot?_reset, if_pos rfl] at hb
    exact hb

end Cycle

namespace Context

variable {x : Context}

def entryCode (x : Context) (call : ProbeCall) : List Step :=
  match x.tracking.isSampled, x.tracking.timed with
  | true, true => x.callWithId call ++
    [.emit (.dup .long), .store .entryTs, .emit .longToInt, .store .sampleHit]
  | true, false => x.callWithId call ++ [.store .sampleHit]
  | false, _ => [.emit (.invoke call.callee), .store .entryTs]

theorem define_of_bound {v : Var} (h : x.cycle.isBound v = true) : x.define v = [] := by
  rw [define, if_pos h]

theorem entrySteps_of_entered (hx : x.cycle.Coherent x.tracking) (h : x.cycle.Entered) :
    x.entrySteps = [] := by
  have hbound := hx.entry h
  rw [entrySteps]
  cases hs : x.tracking.sampling? with
  | some s =>
    have hsampled : x.tracking.isSampled = true := by
      cases hm : x.tracking.isSampled with
      | true => rfl
      | false => rw [Tracking.sampling?_of_not_sampled hm] at hs; cases hs
    have hhit : x.cycle.isBound .sampleHit = true :=
      hbound _ (by simp [Tracking.entryVars, hsampled])
    cases ht : x.tracking.timed with
    | true => simp [hhit, define_of_bound (hx.duration h ht)]
    | false => simp [hhit]
  | none =>
    cases ht : x.tracking.timed with
    | true =>
      have hts : x.cycle.isBound .entryTs = true := hbound _ (by simp [Tracking.entryVars, ht])
      simp [hts]
    | false => rfl

theorem entrySteps_of_no_call (h : x.tracking.call? = none) : x.entrySteps = [] := by
  rw [Tracking.call?] at h
  rw [entrySteps]
  cases hs : x.tracking.sampling? with
  | some s =>
    rw [hs] at h
    cases h
  | none =>
    rw [hs] at h
    cases ht : x.tracking.timed with
    | true =>
      rw [ht] at h
      cases h
    | false => rfl

/-- The first entry of a cycle makes the call behind a gate. -/
theorem entrySteps_of_fresh (hT : x.tracking.Sound) (h : ¬ x.cycle.Entered) {call : ProbeCall}
    (hcall : x.tracking.call? = some call) :
    x.entrySteps = (if x.tracking.timed then x.define .duration else []) ++
      x.gated x.tracking.entryVars (x.entryCode call) := by
  obtain ⟨hts, hhit⟩ := not_or.1 h
  rw [Tracking.call?] at hcall
  rw [entrySteps, Tracking.entryVars, entryCode]
  cases hm : x.tracking.isSampled with
  | true =>
    obtain ⟨n, s, hs, -⟩ := Tracking.sampling?_of_sampled hT hm
    rw [hs] at hcall ⊢
    cases hcall
    cases ht : x.tracking.timed <;> simp [hts, hhit]
  | false =>
    rw [Tracking.sampling?_of_not_sampled hm] at hcall ⊢
    cases ht : x.tracking.timed with
    | true =>
      rw [ht] at hcall
      cases hcall
      simp [hts]
    | false =>
      rw [ht] at hcall
      cases hcall

theorem mem_entryCode {call : ProbeCall} {v : Var} :
    .store v ∈ x.entryCode call ↔ v ∈ x.tracking.entryVars ∨
      v = .entryTs ∧ x.tracking.isSampled = false := by
  rw [entryCode, Tracking.mem_entryVars]
  cases x.tracking.isSampled <;> cases x.tracking.timed <;> cases v <;> simp [callWithId]

theorem isBound_of_fresh (hT : x.tracking.Sound) (h : ¬ x.cycle.Entered) {call : ProbeCall}
    (hcall : x.tracking.call? = some call) (σ : Layout) {v : Var} (hv : v ∈ x.tracking.entryVars) :
    (afterAll σ x.cycle x.entrySteps).isBound v = true := by
  have hr : .reset ∉ x.entrySteps := x.scoped_entrySteps.reset_notMem
  have hmem : .store v ∈ x.entrySteps := by
    rw [entrySteps_of_fresh hT h hcall, gated_eq]
    refine List.mem_append_right _ (List.mem_append_left _ (List.mem_append_right _ ?_))
    exact mem_entryCode.2 (.inl hv)
  exact (isBound_afterAll σ hr _ _).2 (.inl hmem)

theorem measured_notMem_entryCode (call : ProbeCall) : .measured ∉ x.entryCode call := by
  rw [entryCode]
  split <;> simp [callWithId]

/-- Apart from entries only tests store variables, and not those of an entry's call. -/
theorem store_mem_steps {m : Marker} (hm : m.kind ≠ .entry) {v : Var} (h : .store v ∈ x.steps m) :
    m.kind = .test ∧ (v = .level ∨ v = .duration ∧ x.tracking.timed = true) := by
  rw [steps] at h
  cases hk : m.kind with
  | entry => exact absurd hk hm
  | test =>
    rw [hk] at h
    refine ⟨rfl, ?_⟩
    rcases mem_testSteps h with h | ⟨h, -⟩ | ⟨ht, h | h⟩
    · cases h with
      | store hv => exact .inl (List.mem_singleton.1 hv)
    · cases h
    · cases h with
      | store hv => exact .inr ⟨List.mem_singleton.1 hv, ht⟩
    · cases h
  | elseBranch =>
    rw [hk] at h
    dsimp only [elseSteps] at h
    split at h <;> simp [Step.merge] at h
  | duration =>
    rw [hk] at h
    dsimp only [durationSteps] at h
    split at h <;> simp at h
  | exit =>
    rw [hk] at h
    dsimp only [exitSteps] at h
    split at h <;> simp [callWithId, Step.merge] at h
  | reset =>
    rw [hk] at h
    simp at h

end Context

namespace Cycle

variable {t : Tracking} {c : Cycle}

/-- Code keeps the variables coherent if it stores those of an entry at once or not at all. -/
theorem Coherent.afterAll {ss : List Step} (h : c.Coherent t) (σ : Layout) (hr : .reset ∉ ss)
    (hstore : ∀ v, .store v ∈ ss → v ∈ t.entryVars ∨ v = .level ∨ v = .duration ∧ t.timed = true)
    (hentry : ∀ v ∈ t.entryVars, .store v ∈ ss → (∀ u ∈ t.entryVars, .store u ∈ ss) ∧
      (t.timed = true → .store .duration ∈ ss ∨ c.isBound .duration = true) ∧
      (t.gate.comparesLevel = true → .store .level ∈ ss ∨ c.isBound .level = true))
    (hmeasured : .measured ∈ ss → .store .duration ∈ ss) :
    (Step.afterAll σ c ss).Coherent t := by
  have hbound (v : Var) : (Step.afterAll σ c ss).isBound v = true ↔
      .store v ∈ ss ∨ c.isBound v = true := isBound_afterAll σ hr c v
  have hentered (h' : (Step.afterAll σ c ss).Entered) :
      c.Entered ∨ ∃ v ∈ t.entryVars, .store v ∈ ss := by
    rw [Entered, hbound, hbound] at h'
    rcases h' with (hs | hb) | (hs | hb)
    · exact .inr ⟨_, (hstore _ hs).resolve_right (by simp), hs⟩
    · exact .inl (.inl hb)
    · exact .inr ⟨_, (hstore _ hs).resolve_right (by simp), hs⟩
    · exact .inl (.inr hb)
  refine ⟨fun hb => ?_, fun hb => ?_, fun he v hv => ?_, fun he ht => ?_, fun he hg => ?_,
    fun hb => ?_, fun hm => ?_⟩
  · rcases (hbound _).1 hb with hs | hb
    · simpa [Tracking.mem_entryVars] using hstore _ hs
    · exact h.timed hb
  · rcases (hbound _).1 hb with hs | hb
    · simpa [Tracking.mem_entryVars] using hstore _ hs
    · exact h.sampled hb
  · rw [hbound]
    rcases hentered he with he | ⟨u, hu, hs⟩
    · exact .inr (h.entry he v hv)
    · exact .inl ((hentry u hu hs).1 v hv)
  · rw [hbound]
    rcases hentered he with he | ⟨u, hu, hs⟩
    · exact .inr (h.duration he ht)
    · exact (hentry u hu hs).2.1 ht
  · rw [hbound]
    rcases hentered he with he | ⟨u, hu, hs⟩
    · exact .inr (h.level he hg)
    · exact (hentry u hu hs).2.2 hg
  · rcases (hbound _).1 hb with hs | hb
    · simpa [Tracking.mem_entryVars] using hstore _ hs
    · exact h.timed_of_duration hb
  · rw [hbound]
    exact ((measured_afterAll σ hr c).1 hm).imp hmeasured h.measured

/-- Code that stores no variable of an entry keeps the variables coherent. -/
theorem Coherent.later {ss : List Step} (h : c.Coherent t) (σ : Layout) (hr : .reset ∉ ss)
    (hstore : ∀ v, .store v ∈ ss → v = .level ∨ v = .duration ∧ t.timed = true)
    (hmeasured : .measured ∈ ss → .store .duration ∈ ss) : (Step.afterAll σ c ss).Coherent t := by
  refine h.afterAll σ hr (fun v hs => .inr (hstore v hs)) (fun v hv hs => ?_) hmeasured
  rcases hstore v hs with rfl | ⟨rfl, -⟩ <;> simp [Tracking.mem_entryVars] at hv

theorem Coherent.entrySteps {x : Context} (hT : x.tracking.Sound)
    (h : x.cycle.Coherent x.tracking) (σ : Layout) :
    (Step.afterAll σ x.cycle x.entrySteps).Coherent x.tracking := by
  by_cases he : x.cycle.Entered
  · rw [Context.entrySteps_of_entered h he]
    exact h
  cases hcall : x.tracking.call? with
  | none =>
    rw [Context.entrySteps_of_no_call hcall]
    exact h
  | some call =>
    have hr : .reset ∉ x.entrySteps := x.scoped_entrySteps.reset_notMem
    rw [Context.entrySteps_of_fresh hT he hcall] at hr ⊢
    have hdef (v : Var) (hs : .store v ∈ if x.tracking.timed then x.define .duration else []) :
        v = .duration ∧ x.tracking.timed = true := by
      split at hs
      next ht =>
        cases x.plain_of_mem_define hs with
        | store hv => exact ⟨List.mem_singleton.1 hv, ht⟩
      next => cases hs
    have hcode (v : Var) (hv : v ∈ x.tracking.entryVars) : .store v ∈ x.entryCode call :=
      Context.mem_entryCode.2 (.inl hv)
    refine h.afterAll σ hr (fun v hs => ?_) (fun v hv _ => ⟨fun u hu => ?_, fun ht => ?_,
      fun hg => ?_⟩) fun hm => ?_
    · rcases List.mem_append.1 hs with hs | hs
      · exact .inr (.inr (hdef v hs))
      rcases Context.mem_gated hs with hs | hs
      · cases hs with
        | store hv => exact (List.mem_cons.1 hv).elim (fun hv => .inr (.inl hv)) .inl
      · rcases Context.mem_entryCode.1 hs with hv | ⟨rfl, hm⟩
        · exact .inl hv
        · refine .inl (Tracking.mem_entryVars.2 (.inl ⟨rfl, ?_⟩))
          rw [Tracking.call?, Tracking.sampling?_of_not_sampled hm] at hcall
          cases ht : x.tracking.timed with
          | true => rfl
          | false => rw [ht] at hcall; cases hcall
    · apply List.mem_append_right
      rw [Context.gated_eq]
      exact List.mem_append_left _ (List.mem_append_right _ (hcode u hu))
    · cases hb : x.cycle.isBound .duration with
      | true => exact .inr rfl
      | false => exact .inl (by simp [ht, Context.define, hb])
    · cases hb : x.cycle.isBound .level with
      | true => exact .inr rfl
      | false =>
        refine .inl (List.mem_append_right _ ?_)
        rw [Context.gated_eq]
        exact List.mem_append_left _ (List.mem_append_left _ (x.store_level_mem_guard hg hb _ _ _))
    · rcases List.mem_append.1 hm with hm | hm
      · split at hm
        · cases x.plain_of_mem_define hm
        · cases hm
      · rcases Context.mem_gated hm with hm | hm
        · cases hm
        · exact absurd hm (Context.measured_notMem_entryCode call)

theorem Coherent.steps {x : Context} (hT : x.tracking.Sound) (h : x.cycle.Coherent x.tracking)
    (m : Marker) (σ : Layout) : (Step.afterAll σ x.cycle (x.steps m)).Coherent x.tracking := by
  by_cases hm : m.kind = .reset
  · rw [Context.steps, hm]
    exact h.reset
  by_cases hk : m.kind = .entry
  · rw [Context.steps, hk]
    exact h.entrySteps hT σ
  have hr : .reset ∉ x.steps m := (x.scoped_steps hm).reset_notMem
  apply h.later σ hr (fun v hs => (Context.store_mem_steps hk hs).2)
  intro hmeasured
  rw [Context.steps] at hmeasured ⊢
  cases hk' : m.kind with
  | test =>
    rw [hk'] at hmeasured
    exact Context.store_duration_mem_testSteps hmeasured
  | elseBranch =>
    rw [hk'] at hmeasured
    dsimp only [Context.elseSteps] at hmeasured
    split at hmeasured <;> simp [Step.merge] at hmeasured
  | duration =>
    rw [hk'] at hmeasured
    dsimp only [Context.durationSteps] at hmeasured
    split at hmeasured <;> simp at hmeasured
  | exit =>
    rw [hk'] at hmeasured
    dsimp only [Context.exitSteps] at hmeasured
    split at hmeasured <;> simp [Context.callWithId, Step.merge] at hmeasured
  | entry => exact absurd hk' hk
  | reset => exact absurd hk' hm

end Cycle

end MethodProbes
