import MethodProbes.Level.Interval

/-!
# Complements of level intervals

Markers declare where their code runs; the gate in front of it needs the levels where it does not.
The complement starts from all levels and takes the declared intervals away one by one.
-/
namespace MethodProbes

namespace Interval

/-- The parts of `g` outside `i`, the lower one first. -/
def diff (g i : Interval) : List Interval :=
  if i.isEmpty || i.hi < g.lo || g.hi < i.lo then [g]
  else (if g.lo < i.lo then [⟨g.lo, i.lo - 1⟩] else []) ++
    (if i.hi < g.hi then [⟨i.hi + 1, g.hi⟩] else [])

theorem toInt_sub_one {v w : Int32} (h : w.toInt < v.toInt) :
    (v - 1).toInt = v.toInt - 1 := by
  have hv := v.toInt_lt
  have hw := w.le_toInt
  rw [Int32.toInt_sub, show (1 : Int32).toInt = 1 from rfl]
  exact Int.bmod_eq_of_le (by omega) (by omega)

theorem toInt_add_one {v w : Int32} (h : v.toInt < w.toInt) :
    (v + 1).toInt = v.toInt + 1 := by
  have hv := v.le_toInt
  have hw := w.toInt_lt
  rw [Int32.toInt_add, show (1 : Int32).toInt = 1 from rfl]
  exact Int.bmod_eq_of_le (by omega) (by omega)

/-- A difference holds what lies in the first interval and not in the second. -/
theorem mem_diff {g i : Interval} {v : Int32} :
    (∃ p ∈ g.diff i, v ∈ p) ↔ v ∈ g ∧ v ∉ i := by
  simp only [diff, isEmpty, Bool.or_eq_true, decide_eq_true_eq, mem_def,
    Int32.lt_iff_toInt_lt, Int32.le_iff_toInt_le]
  split
  next h =>
    simp only [List.mem_singleton, exists_eq_left]
    omega
  next h =>
    simp only [List.mem_append, or_and_right, exists_or]
    have hl : (∃ p ∈ (if g.lo.toInt < i.lo.toInt then [(⟨g.lo, i.lo - 1⟩ : Interval)] else []),
        p.lo.toInt ≤ v.toInt ∧ v.toInt ≤ p.hi.toInt) ↔
        g.lo.toInt ≤ v.toInt ∧ v.toInt < i.lo.toInt := by
      split
      next hg =>
        simp only [List.mem_singleton, exists_eq_left, toInt_sub_one hg]
        omega
      next hg =>
        simp only [List.not_mem_nil, false_and, exists_false, false_iff]
        omega
    have hr : (∃ p ∈ (if i.hi.toInt < g.hi.toInt then [(⟨i.hi + 1, g.hi⟩ : Interval)] else []),
        p.lo.toInt ≤ v.toInt ∧ v.toInt ≤ p.hi.toInt) ↔
        i.hi.toInt < v.toInt ∧ v.toInt ≤ g.hi.toInt := by
      split
      next hg =>
        simp only [List.mem_singleton, exists_eq_left, toInt_add_one hg]
        omega
      next hg =>
        simp only [List.not_mem_nil, false_and, exists_false, false_iff]
        omega
    rw [hl, hr]
    omega

/-- The levels in none of the intervals, as increasing intervals with levels between them. -/
def complement (is : List Interval) : List Interval :=
  is.foldl (fun gaps i => gaps.flatMap (·.diff i)) [all]

@[simp] theorem complement_nil : complement [] = [all] := rfl

private theorem mem_foldl_diff {gaps is : List Interval} {v : Int32} :
    (∃ g ∈ is.foldl (fun gaps i => gaps.flatMap (·.diff i)) gaps, v ∈ g) ↔
      (∃ g ∈ gaps, v ∈ g) ∧ ∀ i ∈ is, v ∉ i := by
  induction is generalizing gaps with
  | nil => simp
  | cons i is ih =>
    rw [List.foldl_cons, ih]
    have h : (∃ p ∈ gaps.flatMap (·.diff i), v ∈ p) ↔ (∃ g ∈ gaps, v ∈ g) ∧ v ∉ i := by
      constructor
      · rintro ⟨p, hp, hv⟩
        obtain ⟨g, hg, hp⟩ := List.mem_flatMap.1 hp
        have := mem_diff.1 ⟨p, hp, hv⟩
        exact ⟨⟨g, hg, this.1⟩, this.2⟩
      · rintro ⟨⟨g, hg, hv⟩, hi⟩
        obtain ⟨p, hp, hv⟩ := mem_diff.2 ⟨hv, hi⟩
        exact ⟨p, List.mem_flatMap.2 ⟨g, hg, hp⟩, hv⟩
    rw [h, and_assoc, List.forall_mem_cons]

/-- The complement holds exactly the levels in none of the intervals. -/
theorem mem_complement {is : List Interval} {v : Int32} :
    (∃ g ∈ complement is, v ∈ g) ↔ ∀ i ∈ is, v ∉ i := by
  simp [complement, mem_foldl_diff]

end Interval

end MethodProbes
