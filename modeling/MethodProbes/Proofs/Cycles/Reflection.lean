import MethodProbes.Proofs.Cycles.Stretches
import MethodProbes.Proofs.Expansion.EarlyStores

/-!
# What a cycle has bound

Which variables are bound, and whether the duration is stored, follows from the markers that the cycle
has had so far.  A reset begins a cycle without markers; it keeps the slot of the duration.
-/
namespace MethodProbes

open Step

namespace Context

variable {x : Context}

/-- A guard binds the level only to compare it. -/
theorem comparesLevel_of_store_level {vs : List Var} (hvs : .level ∉ vs) {given : Option Label}
    {n : Nat} (h : .store .level ∈ (x.guard vs given n).1) :
    x.tracking.gate.comparesLevel = true := by
  suffices hbare : .store .level ∈ (x.guard [] given n).1 from comparesLevel_of_store_guard hbare
  cases hg : x.tracking.gate with
  | openGate =>
    rw [x.guard_openGate hg] at h
    cases h
  | skipping rs =>
    rw [x.guard_skipping hg] at h ⊢
    rw [List.mem_append, List.mem_append] at h
    rcases h with (h | h) | h
    · obtain ⟨v, hv, h⟩ := List.mem_flatMap.1 h
      cases x.plain_of_mem_define h with
      | store hlevel => exact absurd (List.mem_singleton.1 hlevel ▸ hv) hvs
    · cases given <;> simp at h
    · exact List.mem_append_right _ h

theorem exists_call_iff (hT : x.tracking.Sound) :
    (∃ call, x.tracking.call? = some call) ↔
      x.tracking.timed = true ∨ x.tracking.isSampled = true := by
  cases hm : x.tracking.isSampled with
  | true =>
    obtain ⟨n, s, hs, -⟩ := Tracking.sampling?_of_sampled hT hm
    simp [Tracking.call?, hs]
  | false =>
    rw [Tracking.call?, Tracking.sampling?_of_not_sampled hm]
    cases x.tracking.timed <;> simp

/-- An entry binds the level for the gate of its call. -/
theorem of_store_level_entry (hT : x.tracking.Sound) (hx : x.cycle.Coherent x.tracking)
    (h : .store .level ∈ x.entrySteps) : x.tracking.gate.comparesLevel = true ∧
      (x.tracking.timed = true ∨ x.tracking.isSampled = true) := by
  by_cases he : x.cycle.Entered
  · rw [entrySteps_of_entered hx he] at h
    cases h
  cases hcall : x.tracking.call? with
  | none =>
    rw [entrySteps_of_no_call hcall] at h
    cases h
  | some call =>
    refine ⟨?_, (exists_call_iff hT).1 ⟨call, hcall⟩⟩
    rw [entrySteps_of_fresh hT he hcall, gated_eq, List.mem_append, List.mem_append,
      List.mem_append] at h
    rcases h with h | (h | h) | h
    · split at h
      · cases x.plain_of_mem_define h with
        | store hv => cases List.mem_singleton.1 hv
      · cases h
    · exact comparesLevel_of_store_level (by simp [Tracking.mem_entryVars]) h
    · simp [mem_entryCode, Tracking.mem_entryVars] at h
    · cases hg : (x.guard x.tracking.entryVars none x.nextLabel).2 <;> simp [hg, Step.merge] at h

theorem entered_entrySteps (hT : x.tracking.Sound) (hx : x.cycle.Coherent x.tracking)
    (h : x.tracking.timed = true ∨ x.tracking.isSampled = true) (σ : Layout) :
    (afterAll σ x.cycle x.entrySteps).Entered := by
  by_cases he : x.cycle.Entered
  · rw [entrySteps_of_entered hx he]
    exact he
  obtain ⟨call, hcall⟩ := (exists_call_iff hT).2 h
  obtain ⟨v, hv⟩ := Tracking.exists_mem_entryVars hcall
  have hbound := isBound_of_fresh hT he hcall σ hv
  rcases Tracking.mem_entryVars.1 hv with ⟨rfl, -⟩ | ⟨rfl, -⟩
  · exact .inl hbound
  · exact .inr hbound

theorem measured_notMem_entrySteps : .measured ∉ x.entrySteps := by
  have hdefine : .measured ∉ x.define .duration := fun h => by cases x.plain_of_mem_define h
  have hgated {vs : List Var} {code : List Step} (hcode : .measured ∉ code) :
      .measured ∉ x.gated vs code := fun h => by
    rcases mem_gated h with h | h
    · cases h
    · exact hcode h
  rw [entrySteps]
  split
  · refine List.not_mem_append hdefine ?_
    split
    · exact List.not_mem_nil
    · exact hgated (by simp [callWithId])
  · split
    · exact List.not_mem_nil
    · exact hgated (by simp [callWithId])
  · split
    · exact List.not_mem_nil
    · exact List.not_mem_append hdefine (hgated (by simp))
  · exact List.not_mem_nil

theorem of_store_level_test {tag : Bool} (h : .store .level ∈ x.testSteps tag) : x.Gated tag := by
  cases hs : x.tracking.isSampled with
  | true =>
    refine .inl (Bool.eq_false_imp_eq_true.1 fun hb => ?_)
    have hmeasure : .store .level ∉ x.sampledMeasure tag := fun h => by
      rw [sampledMeasure] at h
      split at h
      · split at h
        · cases h
        · rcases mem_measure (fun _ => mem_callWithId) h with h | h
          · cases h with
            | store hv => cases List.mem_singleton.1 hv
          · cases h
      · cases h
    rw [x.testSteps_of_sampled hs, branch, if_neg (by simp [hb])] at h
    simp [hmeasure, Step.merge] at h
  | false =>
    rw [x.testSteps_of_not_sampled hs] at h
    split at h
    next ht =>
      split at h
      next => simp [Step.merge] at h
      next hm =>
        obtain ⟨ht, htag⟩ := (Bool.and_eq_true _ _).mp ht
        exact .inr ⟨hs, ht, htag, Bool.eq_false_iff.2 hm⟩
    next => simp at h

/-- Behind a test that takes the time the level is bound, if the gate compares it. -/
theorem store_level_mem_testSteps (hs : x.tracking.isSampled = false)
    (ht : x.tracking.timed = true) (hm : x.cycle.measured = false)
    (hg : x.tracking.gate.comparesLevel = true) (hb : x.cycle.isBound .level = false) :
    .store .level ∈ x.testSteps true := by
  have hguard (l : Label) (n : Nat) : .store .level ∈ x.testsTo l n :=
    x.store_level_mem_guard hg hb _ _ _
  simp [x.testSteps_of_not_sampled hs, ht, hm, clockMeasure, hguard]

end Context

/-- The cycle is as the markers `past` have left it. -/
structure Cycle.Reflects (t : Tracking) (past : List Marker) (c : Cycle) : Prop where
  coherent : c.Coherent t
  entryTs : c.isBound .entryTs = (t.timed && hasEntry past)
  sampleHit : c.isBound .sampleHit = (t.isSampled && hasEntry past)
  level : c.isBound .level = (t.gate.comparesLevel && t.gatesIn past)
  measured : c.measured = (t.timed && hasTimedTest past)

namespace Cycle

theorem reflects_initial (t : Tracking) : initial.Reflects t [] := by
  refine ⟨coherent_initial t, ?_, ?_, ?_, ?_⟩ <;> simp [isBound, initial, slot?]

theorem Reflects.reset {t : Tracking} {past : List Marker} {c : Cycle} (h : c.Reflects t past) :
    c.reset.Reflects t [] := by
  refine ⟨h.coherent.reset, ?_, ?_, ?_, ?_⟩ <;> simp [isBound, Cycle.reset, slot?]

variable {x : Context} {past : List Marker} {m : Marker}

theorem Reflects.entry (hT : x.tracking.Sound) (h : x.cycle.Reflects x.tracking past)
    (hm : m.kind = .entry) (σ : Layout) :
    (afterAll σ x.cycle x.entrySteps).Reflects x.tracking (past ++ [m]) := by
  have hc := h.coherent.entrySteps hT σ
  have hr : .reset ∉ x.entrySteps := x.scoped_entrySteps.reset_notMem
  have hentry : m.isEntry = true := decide_eq_true hm
  have htest : m.isTimedTest = false := Marker.isTimedTest_eq_false (by simp [hm])
  refine ⟨hc, ?_, ?_, ?_, ?_⟩
  · rw [hasEntry_concat, hentry, Bool.or_true, Bool.and_true, Bool.eq_iff_iff]
    refine ⟨hc.timed, fun ht => hc.entry (x.entered_entrySteps hT h.coherent (.inl ht) σ) _ ?_⟩
    exact Tracking.mem_entryVars.2 (.inl ⟨rfl, ht⟩)
  · rw [hasEntry_concat, hentry, Bool.or_true, Bool.and_true, Bool.eq_iff_iff]
    refine ⟨hc.sampled, fun hs => hc.entry (x.entered_entrySteps hT h.coherent (.inr hs) σ) _ ?_⟩
    exact Tracking.mem_entryVars.2 (.inr ⟨rfl, hs⟩)
  · have hgates : x.tracking.gatesIn (past ++ [m]) = true ↔
        x.tracking.timed = true ∨ x.tracking.isSampled = true := by
      rw [Tracking.gatesIn_concat, hentry, htest]
      cases ht : x.tracking.timed <;> cases hs : x.tracking.isSampled <;>
        simp [Tracking.gatesIn, ht, hs]
    rw [Bool.eq_iff_iff, Bool.and_eq_true, hgates]
    constructor
    -- the level is bound for the call of this entry, or an earlier gate of the cycle has bound it
    · intro hb
      rcases (isBound_afterAll σ hr _ _).1 hb with hs | hb
      · exact Context.of_store_level_entry hT h.coherent hs
      · rw [h.level, Bool.and_eq_true] at hb
        refine ⟨hb.1, ?_⟩
        have hgates := hb.2
        simp only [Tracking.gatesIn, Bool.or_eq_true, Bool.and_eq_true] at hgates
        rcases hgates with ⟨h, -⟩ | ⟨⟨h, -⟩, -⟩
        · exact h
        · exact .inl h
    · rintro ⟨hg, hcall⟩
      exact hc.level (x.entered_entrySteps hT h.coherent hcall σ) hg
  · rw [hasTimedTest_concat, htest, Bool.or_false, ← h.measured, Bool.eq_iff_iff,
      measured_afterAll σ hr, or_iff_right Context.measured_notMem_entrySteps]

theorem Reflects.test (hT : x.tracking.Sound) (h : x.cycle.Reflects x.tracking past)
    (hm : m.kind = .test) (σ : Layout) :
    (afterAll σ x.cycle (x.testSteps (m.hasTag .timed))).Reflects x.tracking (past ++ [m]) := by
  have hsteps : x.steps m = x.testSteps (m.hasTag .timed) := by rw [Context.steps, hm]
  have hr : .reset ∉ x.testSteps (m.hasTag .timed) := (x.scoped_testSteps _).reset_notMem
  have hentry : m.isEntry = false := Marker.isEntry_eq_false (by simp [hm])
  have htest : m.isTimedTest = m.hasTag .timed := by simp [Marker.isTimedTest, hm]
  -- a test binds neither variable of an entry
  have hkeep (v : Var) (hv : v = .entryTs ∨ v = .sampleHit) :
      (afterAll σ x.cycle (x.testSteps (m.hasTag .timed))).isBound v = x.cycle.isBound v := by
    rw [Bool.eq_iff_iff, isBound_afterAll σ hr, or_iff_right]
    intro hs
    rcases Context.store_mem_steps (m := m) (by simp [hm]) (hsteps ▸ hs) with ⟨-, rfl | ⟨rfl, -⟩⟩ <;>
      simp at hv
  refine ⟨?_, ?_, ?_, ?_, ?_⟩
  · rw [← hsteps]
    exact h.coherent.steps hT m σ
  · rw [hkeep _ (.inl rfl), h.entryTs, hasEntry_concat, hentry, Bool.or_false]
  · rw [hkeep _ (.inr rfl), h.sampleHit, hasEntry_concat, hentry, Bool.or_false]
  · have hgates : x.tracking.gatesIn (past ++ [m]) = true ↔ x.tracking.gatesIn past = true ∨
        x.tracking.isSampled = false ∧ x.tracking.timed = true ∧ m.hasTag .timed = true := by
      rw [Tracking.gatesIn_concat, hentry, htest]
      cases x.tracking.timed <;> cases x.tracking.isSampled <;> simp
    rw [Bool.eq_iff_iff, isBound_afterAll σ hr, h.level, Bool.and_eq_true, Bool.and_eq_true, hgates]
    constructor
    · rintro (hs | ⟨hg, hpast⟩)
      · refine ⟨Context.comparesLevel_of_store_test hs, ?_⟩
        refine (Context.of_store_level_test hs).imp (fun hhit => ?_) fun h => ⟨h.1, h.2.1, h.2.2.1⟩
        rw [h.sampleHit, Bool.and_eq_true] at hhit
        simp [Tracking.gatesIn, hhit.1, hhit.2]
      · exact ⟨hg, .inl hpast⟩
    · rintro ⟨hg, hpast | ⟨hs, ht, htag⟩⟩
      · exact .inr ⟨hg, hpast⟩
      · cases hp : x.tracking.gatesIn past with
        | true => exact .inr ⟨hg, rfl⟩
        | false =>
          -- no gate before means no timed test before, so this test does measure
          have hno : hasTimedTest past = false := by
            simpa [Tracking.gatesIn, hs, ht] using (Bool.or_eq_false_iff.1 hp).2
          rw [htag]
          exact .inl (Context.store_level_mem_testSteps hs ht (by simp [h.measured, hno]) hg
            (by simp [h.level, hp]))
  · rw [Bool.eq_iff_iff, measured_afterAll σ hr, Context.measured_mem_testSteps, Context.DurationDue,
      hasTimedTest_concat, htest, h.measured]
    cases x.tracking.timed <;> cases hasTimedTest past <;> cases m.hasTag .timed <;> simp

theorem Reflects.steps (hT : x.tracking.Sound) (h : x.cycle.Reflects x.tracking past)
    (hm : m.kind ≠ .reset) (σ : Layout) :
    (afterAll σ x.cycle (x.steps m)).Reflects x.tracking (past ++ [m]) := by
  by_cases hk : m.kind = .entry
  · rw [Context.steps, hk]
    exact h.entry hT hk σ
  by_cases ht : m.kind = .test
  · rw [Context.steps, ht]
    exact h.test hT ht σ
  have hr : .reset ∉ x.steps m := (x.scoped_steps hm).reset_notMem
  have hentry : m.isEntry = false := Marker.isEntry_eq_false hk
  have htest : m.isTimedTest = false := Marker.isTimedTest_eq_false ht
  have hkeep (v : Var) : (afterAll σ x.cycle (x.steps m)).isBound v = x.cycle.isBound v := by
    rw [Bool.eq_iff_iff, isBound_afterAll σ hr, or_iff_right]
    exact fun hs => ht (Context.store_mem_steps hk hs).1
  have hmeasured : .measured ∉ x.steps m := by
    rw [Context.steps]
    cases hm' : m.kind with
    | elseBranch => cases h : x.cycle.pendingElse <;> simp [Context.elseSteps, h, Step.merge]
    | duration =>
      dsimp only [Context.durationSteps]
      split <;> simp
    | exit =>
      dsimp only [Context.exitSteps]
      split <;> simp [Context.callWithId, Step.merge]
    | entry | test | reset => contradiction
  refine ⟨h.coherent.steps hT m σ, ?_, ?_, ?_, ?_⟩
  · rw [hkeep, h.entryTs, hasEntry_concat, hentry, Bool.or_false]
  · rw [hkeep, h.sampleHit, hasEntry_concat, hentry, Bool.or_false]
  · simp only [hkeep, h.level, Tracking.gatesIn_concat, hentry, htest, Bool.and_false, Bool.or_false]
  · rw [hasTimedTest_concat, htest, Bool.or_false, ← h.measured, Bool.eq_iff_iff,
      measured_afterAll σ hr, or_iff_right hmeasured]

theorem Reflects.openCycle (hT : x.tracking.Sound) (h : x.cycle.Reflects x.tracking past)
    (m : Marker) (σ : Layout) :
    (afterAll σ x.cycle (x.steps m)).Reflects x.tracking (openCycle past m) := by
  rw [MethodProbes.openCycle]
  split
  next hm =>
    rw [Context.steps, hm]
    exact h.reset
  next hm => exact h.steps hT hm σ

/-- The duration has a slot from the first entry or timed test of a timed method on. -/
theorem Reflects.duration (hT : x.tracking.Sound) (h : x.cycle.Reflects x.tracking past)
    (hm : m.kind ≠ .reset) (σ : Layout) :
    (afterAll σ x.cycle (x.steps m)).isBound .duration =
      (x.cycle.isBound .duration || x.tracking.timed && (m.isEntry || m.isTimedTest)) := by
  have hc := h.coherent.steps hT m σ
  have hr : .reset ∉ x.steps m := (x.scoped_steps hm).reset_notMem
  have hafter := h.steps hT hm σ
  rw [Bool.eq_iff_iff, Bool.or_eq_true, Bool.and_eq_true, Bool.or_eq_true]
  constructor
  · intro hb
    refine ((isBound_afterAll σ hr _ _).1 hb).symm.imp_right fun hs => ⟨hc.timed_of_duration hb, ?_⟩
    by_cases hk : m.kind = .entry
    · exact .inl (decide_eq_true hk)
    · have ht : m.kind = .test := (Context.store_mem_steps hk hs).1
      rw [Context.steps, ht] at hs
      exact .inr (by simp [Marker.isTimedTest, ht, (Context.due_of_store_duration hs).2.1])
  · rintro (hb | ⟨ht, hk | hk⟩)
    · exact (isBound_afterAll σ hr _ _).2 (.inr hb)
    · refine hc.duration (.inl ?_) ht
      rw [hafter.entryTs, ht, hasEntry_concat, hk, Bool.or_true, Bool.and_true]
    · refine hc.measured ?_
      rw [hafter.measured, ht, hasTimedTest_concat, hk, Bool.or_true, Bool.and_true]

end Cycle

end MethodProbes
