import MethodProbes.Proofs.Level.Canonical
import MethodProbes.Proofs.Level.Skips

/-!
# Tests of a gate decide on the level

The tests that a gate plans are made range by range.  They skip a level exactly if no declared interval
holds it, and there are none if every level from zero on is declared and the negative ones are alike.
-/
namespace MethodProbes

namespace Check

/-- Makes the tests of one range.  Either they skip the level, or it is the turn of the next range. -/
def skips (v : Int32) : List Check → Bool
  | [] => false
  | nextIfBelow n :: cs => if v < n then false else skips v cs
  | skipIfAtMost n :: cs => if v ≤ n then true else skips v cs
  | skip :: _ => true

/-- Makes the tests of ranges in order, up to a range that skips the level.  If there is none, the
level passes. -/
def skipsInTurn (v : Int32) : List (List Check) → Bool
  | [] => false
  | cs :: groups => if skips v cs then true else skipsInTurn v groups

theorem skips_checks (v : Int32) (r : SkipRange) : skips v r.checks = true ↔ v ∈ r := by
  obtain ⟨_ | lo, _ | hi⟩ := r <;>
    simp [SkipRange.checks, skips, SkipRange.mem_def, Int32.not_lt]

theorem skipsInTurn_checks (v : Int32) (rs : List SkipRange) :
    skipsInTurn v (rs.map SkipRange.checks) = true ↔ ∃ r ∈ rs, v ∈ r := by
  induction rs with
  | nil => simp [skipsInTurn]
  | cons r rs ih =>
    rw [List.map_cons, skipsInTurn, List.exists_mem_cons_iff, ← skips_checks, ← ih]
    cases skips v r.checks <;> simp

end Check

namespace Gate

def checks (g : Gate) : List (List Check) := g.ranges.map SkipRange.checks

theorem skipsInTurn_checks (v : Int32) (g : Gate) :
    Check.skipsInTurn v g.checks = true ↔ g.Skips v :=
  Check.skipsInTurn_checks v g.ranges

/-- An open gate has nothing to skip but negative levels, and then it would skip them all. -/
theorem complement_of_plan_openGate {is : List Interval} (h : plan is = .openGate) :
    is = [] ∨ Interval.complement is = [] ∨ Interval.complement is = [.atMost (-1)] := by
  unfold plan at h
  split at h
  · next he => exact .inl (List.isEmpty_iff.1 he)
  · split at h
    next he => exact .inr (.inl he)
    next g he =>
      split at h
      · next hle => exact .inr (.inr (hle ▸ he))
      · cases h
    next => cases h

/-- A gate is open exactly if nothing is declared, or else all levels from zero on are declared and the
negative levels are treated alike. -/
theorem plan_eq_openGate_iff {is : List Interval} :
    plan is = .openGate ↔ is = [] ∨ (∀ v, 0 ≤ v → ∃ i ∈ is, v ∈ i) ∧
      ((∀ v < 0, ∃ i ∈ is, v ∈ i) ∨ ∀ v < 0, ¬ ∃ i ∈ is, v ∈ i) := by
  constructor
  · intro h
    by_cases hne : is = []
    · exact .inl hne
    have hcovers (v : Int32) (hv : 0 ≤ v) : ∃ i ∈ is, v ∈ i :=
      (mem_of_plan_openGate h hv).resolve_left hne
    have hin (v : Int32) : (∃ i ∈ is, v ∈ i) ↔ ¬ ∃ g ∈ Interval.complement is, v ∈ g := by
      rw [Interval.mem_complement]
      simp
    refine .inr ⟨hcovers, ?_⟩
    rcases (complement_of_plan_openGate h).resolve_left hne with hc | hc
    · left
      intro v _
      rw [hin, hc]
      simp
    · right
      intro v hv
      rw [hin, hc]
      simpa [le_neg_one_iff] using hv
  · rintro (rfl | ⟨hcovers, hneg⟩)
    · exact plan_nil
    · exact plan_of_covers hcovers hneg

/-- The tests of a planned gate skip the levels that are not declared.  Of the negative levels, an open
gate lets all pass. -/
theorem checks_decide (is : List Interval) :
    (plan is ≠ .openGate →
      ∀ v, Check.skipsInTurn v (plan is).checks = true ↔ ¬ ∃ i ∈ is, v ∈ i) ∧
    (plan is = .openGate ↔ is = [] ∨ (∀ v, 0 ≤ v → ∃ i ∈ is, v ∈ i) ∧
      ((∀ v < 0, ∃ i ∈ is, v ∈ i) ∨ ∀ v < 0, ¬ ∃ i ∈ is, v ∈ i)) ∧
    ∀ v, 0 ≤ v →
      (Check.skipsInTurn v (plan is).checks = false ↔ is = [] ∨ ∃ i ∈ is, v ∈ i) := by
  refine ⟨fun hne v => ?_, plan_eq_openGate_iff, fun v hv => ?_⟩
  · rw [skipsInTurn_checks]
    cases h : plan is with
    | openGate => exact absurd h hne
    | skipping rs =>
      rw [skips_plan h]
      simp
  · rw [← passes_plan_iff is hv, ← skipsInTurn_checks, Bool.not_eq_true]

/-- Level 5 alone passes, and all negative levels are skipped with the others. -/
example :
    (plan [.exact 5]).checks = [[.skipIfAtMost 4], [.nextIfBelow 6, .skip]] ∧
      Check.skipsInTurn 5 (plan [.exact 5]).checks = false ∧
      Check.skipsInTurn (-1) (plan [.exact 5]).checks = true := by
  decide

end Gate

end MethodProbes
