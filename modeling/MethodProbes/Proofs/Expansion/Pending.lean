import MethodProbes.Proofs.Expansion.Labels

/-!
# The pending else target

Only a test of a sampled invocation leaves an else target, with a label of its own, and the next
else marker places it.
-/
namespace MethodProbes

open Step

namespace Step

def keepsPending : Step → Bool
  | await _ | settle => false
  | _ => true

theorem Plain.keepsPending {vs : List Var} {s : Step} (h : Plain vs s) :
    s.keepsPending = true := by
  cases h <;> rfl

end Step

namespace Context

variable {x : Context} {σ : Layout}

theorem pendingElse_of_keepsPending {ss : List Step} (h : ∀ s ∈ ss, s.keepsPending = true)
    (c : Cycle) : (afterAll σ c ss).pendingElse = c.pendingElse :=
  pendingElse_afterAll σ (fun _ hl => Bool.false_ne_true (h _ hl))
    (fun hl => Bool.false_ne_true (h _ hl)) c

/-- Only a test of a sampled invocation leaves an else target. -/
theorem pendingElse_test (tag : Bool) :
    (afterAll σ x.cycle (x.testSteps tag)).pendingElse =
      if x.tracking.isSampled = true ∧ x.cycle.isBound .sampleHit = true then
        some ⟨x.nextLabel + 1⟩
      else x.cycle.pendingElse := by
  split
  next h =>
    rw [x.testSteps_of_sampled h.1, branch, if_pos h.2]
    have hrest (s : Step) (h : s ∈ x.testsTo ⟨x.nextLabel⟩ (x.nextLabel + 2) ++
        [.load .sampleHit, .emit (.jump .ifZero ⟨x.nextLabel + 1⟩)] ++
        x.sampledMeasure tag ++ Step.merge ⟨x.nextLabel⟩) : s.keepsPending = true := by
      rw [List.mem_append, List.mem_append, List.mem_append] at h
      rcases h with ((h | h) | h) | h
      · exact (x.plain_of_mem_guard h).keepsPending
      · revert s
        simp [Step.keepsPending]
      · rw [sampledMeasure] at h
        split at h
        · split at h
          · cases h
          · rcases mem_measure (fun _ => mem_callWithId) h with h | rfl
            · exact h.keepsPending
            · rfl
        · cases h
      · exact (plain_of_mem_merge h).keepsPending
    have hplain := pendingElse_of_keepsPending (σ := σ) hrest
      { x.cycle with pendingElse := some ⟨x.nextLabel + 1⟩ }
    simpa [afterAll_cons, Step.after, List.append_assoc] using hplain
  next hno =>
    refine pendingElse_of_keepsPending (fun s h => ?_) _
    rcases mem_testSteps h with h | h | ⟨-, h | rfl⟩
    · exact h.keepsPending
    · exact absurd h.2 hno
    · exact h.keepsPending
    · rfl

theorem pendingElse_entry :
    (afterAll σ x.cycle x.entrySteps).pendingElse = x.cycle.pendingElse := by
  have hgated {vs : List Var} {code : List Step} (hcode : ∀ s ∈ code, s.keepsPending = true)
      {s : Step} (h : s ∈ x.gated vs code) : s.keepsPending = true :=
    (mem_gated h).elim (·.keepsPending) (hcode s)
  refine pendingElse_of_keepsPending (fun s h => ?_) _
  rw [entrySteps] at h
  split at h
  · rcases List.mem_append.1 h with h | h
    · exact (x.plain_of_mem_define h).keepsPending
    · split at h
      · cases h
      · exact hgated (by simp [callWithId, Step.keepsPending]) h
  · split at h
    · cases h
    · exact hgated (by simp [callWithId, Step.keepsPending]) h
  · split at h
    · cases h
    · rcases List.mem_append.1 h with h | h
      · exact (x.plain_of_mem_define h).keepsPending
      · exact hgated (by simp [Step.keepsPending]) h
  · cases h

theorem pendingElse_steps (m : Marker) : (afterAll σ x.cycle (x.steps m)).pendingElse =
    match m.kind with
    | .test =>
      if x.tracking.isSampled = true ∧ x.cycle.isBound .sampleHit = true then
        some ⟨x.nextLabel + 1⟩
      else x.cycle.pendingElse
    | .elseBranch => none
    | _ => x.cycle.pendingElse := by
  rw [steps]
  cases m.kind with
  | entry => exact pendingElse_entry
  | test => exact pendingElse_test _
  | elseBranch =>
    dsimp only [elseSteps]
    cases h : x.cycle.pendingElse <;> simp [h, Step.after]
  | duration =>
    dsimp only [durationSteps]
    split <;> rfl
  | exit =>
    dsimp only [exitSteps]
    split
    · exact pendingElse_of_keepsPending (by simp [callWithId, Step.merge, Step.keepsPending]) _
    · rfl
  | reset => rfl

/-- A label that is pending behind a marker is the target of its branch, or was pending before. -/
theorem pending_cases {m : Marker} {l : Label}
    (h : (afterAll σ x.cycle (x.steps m)).pendingElse = some l) :
    (m.kind = .test ∧ x.tracking.isSampled = true ∧ x.cycle.isBound .sampleHit = true) ∧
        l = ⟨x.nextLabel + 1⟩ ∨
      m.kind ≠ .elseBranch ∧ x.cycle.pendingElse = some l := by
  rw [pendingElse_steps] at h
  cases hm : m.kind with
  | test =>
    simp only [hm] at h
    split at h
    next hb => exact .inl ⟨⟨rfl, hb⟩, (Option.some.inj h).symm⟩
    next => exact .inr ⟨nofun, h⟩
  | elseBranch =>
    rw [hm] at h
    cases h
  | _ =>
    rw [hm] at h
    exact .inr ⟨nofun, h⟩

theorem pendingElse_lt (m : Marker) (h : ∀ l ∈ x.cycle.pendingElse, l.id < x.nextLabel) :
    ∀ l ∈ (afterAll σ x.cycle (x.steps m)).pendingElse,
      l.id < x.nextLabel + (x.steps m).count .newLabel := by
  have hkeep (l : Label) (hl : x.cycle.pendingElse = some l) :
      l.id < x.nextLabel + (x.steps m).count .newLabel :=
    Nat.lt_of_lt_of_le (h l hl) (Nat.le_add_right _ _)
  intro l hl
  rw [Option.mem_def, pendingElse_steps] at hl
  cases hk : m.kind with
  | test =>
    simp only [hk] at hl
    split at hl
    next hb =>
      cases hl
      rw [steps, hk]
      dsimp only
      rw [testSteps_of_sampled hb.1, branch, if_pos hb.2]
      simp [List.count_append]
    next => exact hkeep l hl
  | elseBranch =>
    rw [hk] at hl
    cases hl
  | _ =>
    rw [hk] at hl
    exact hkeep l hl

end Context

end MethodProbes
