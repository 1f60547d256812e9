import MethodProbes.Proofs.Level.Canonical

/-!
# Complements by a sweep

A complement is also found in one pass over the intervals by increasing lower bounds, with a cursor at
the first level that is not covered yet.  The gaps end next to the intervals, and wherever the sweep asks
for the level below or above a bound, there is one, up to the ends of the integers.  The order of
intervals with the same lower bound is of no account.
-/
namespace MethodProbes

namespace Interval

def pred? (v : Int32) : Option Int32 := if v = Int32.minValue then none else some (v - 1)

def succ? (v : Int32) : Option Int32 := if v = Int32.maxValue then none else some (v + 1)

theorem pred?_eq_some_iff {v w : Int32} : pred? v = some w ↔ w.toInt = v.toInt - 1 := by
  rw [pred?]
  split
  next h =>
    have hw := w.le_toInt
    rw [h, show Int32.minValue.toInt = -2 ^ 31 from rfl]
    simp only [reduceCtorEq, false_iff]
    omega
  next h =>
    have hv : Int32.minValue.toInt < v.toInt :=
      Int32.lt_iff_toInt_lt.1 (Int32.lt_of_le_of_ne (Int32.minValue_le v) (Ne.symm h))
    rw [Option.some_inj, ← Int32.toInt_inj, toInt_sub_one hv, eq_comm]

theorem succ?_eq_some_iff {v w : Int32} : succ? v = some w ↔ w.toInt = v.toInt + 1 := by
  rw [succ?]
  split
  next h =>
    have hw := w.toInt_lt
    rw [h, show Int32.maxValue.toInt = 2 ^ 31 - 1 from rfl]
    simp only [reduceCtorEq, false_iff]
    omega
  next h =>
    have hv : v.toInt < Int32.maxValue.toInt :=
      Int32.lt_iff_toInt_lt.1 (Int32.lt_of_le_of_ne (Int32.le_maxValue v) h)
    rw [Option.some_inj, ← Int32.toInt_inj, toInt_add_one hv, eq_comm]

/-- The cursor behind an interval.  There is none if the interval goes up to the greatest level. -/
def advance (start : Int32) (i : Interval) : Option Int32 :=
  if start ≤ i.hi then succ? i.hi else some start

/-- The gaps that intervals leave from the cursor on; without a cursor all is covered.  No answer comes
if a gap would have to end below the least level. -/
def sweep : Option Int32 → List Interval → Option (List Interval)
  | none, _ => some []
  | some start, [] => some [⟨start, Int32.maxValue⟩]
  | some start, i :: is =>
    if start < i.lo then do
      let hi ← pred? i.lo
      let gaps ← sweep (advance start i) is
      return ⟨start, hi⟩ :: gaps
    else sweep (advance start i) is

/-- The levels from the new cursor on are those from the old one on that are above the interval. -/
theorem exists_advance_le {start v : Int32} {i : Interval} :
    (∃ s ∈ advance start i, s.toInt ≤ v.toInt) ↔ start.toInt ≤ v.toInt ∧ i.hi.toInt < v.toInt := by
  simp only [advance, Int32.le_iff_toInt_le]
  split
  next h =>
    constructor
    · rintro ⟨s, hs, hv⟩
      have hs := succ?_eq_some_iff.1 hs
      omega
    · rintro ⟨-, hv⟩
      exact ⟨i.hi + 1, succ?_eq_some_iff.2 (toInt_add_one hv), by rw [toInt_add_one hv]; omega⟩
  next h =>
    simp only [Option.mem_some_iff, exists_eq_left']
    omega

theorem Separated.cons {i : Interval} {is : List Interval} (hi : i.lo.toInt ≤ i.hi.toInt)
    (hgap : ∀ j ∈ is, i.hi.toInt + 1 < j.lo.toInt) (his : Separated is) : Separated (i :: is) where
  nonempty := List.forall_mem_cons.2 ⟨hi, his.nonempty⟩
  apart := List.pairwise_cons.2 ⟨hgap, his.apart⟩

section

variable {start v : Int32} {i : Interval} {is : List Interval}

/-- From a cursor at or above its lower bound, only the levels above an interval are outside it. -/
theorem outside_cons_iff (hle : i.lo.toInt ≤ start.toInt) :
    (start.toInt ≤ v.toInt ∧ ∀ j ∈ i :: is, v ∉ j) ↔
      (start.toInt ≤ v.toInt ∧ i.hi.toInt < v.toInt) ∧ ∀ j ∈ is, v ∉ j := by
  rw [List.forall_mem_cons, mem_def, Int32.le_iff_toInt_le, Int32.le_iff_toInt_le]
  constructor
  · rintro ⟨hv, hvi, hout⟩
    exact ⟨by omega, hout⟩
  · rintro ⟨hv, hout⟩
    exact ⟨hv.1, by omega, hout⟩

/-- From a cursor below it, the levels up to the interval are outside, and later intervals do not begin
there. -/
theorem outside_cons_iff_of_lt (hlt : start.toInt < i.lo.toInt)
    (hle : ∀ j ∈ is, i.lo.toInt ≤ j.lo.toInt) :
    (start.toInt ≤ v.toInt ∧ ∀ j ∈ i :: is, v ∉ j) ↔
      v ∈ (⟨start, i.lo - 1⟩ : Interval) ∨
        (start.toInt ≤ v.toInt ∧ i.hi.toInt < v.toInt) ∧ ∀ j ∈ is, v ∉ j := by
  have hlater (hv : v.toInt < i.lo.toInt) : ∀ j ∈ is, v ∉ j := fun j hj hvj => by
    have hij := hle j hj
    have hjv := Int32.le_iff_toInt_le.1 (mem_def.1 hvj).1
    omega
  have hgap : v ∈ (⟨start, i.lo - 1⟩ : Interval) ↔
      start.toInt ≤ v.toInt ∧ v.toInt ≤ i.lo.toInt - 1 := by
    rw [← toInt_sub_one hlt, ← Int32.le_iff_toInt_le, ← Int32.le_iff_toInt_le]
    exact mem_def
  rw [List.forall_mem_cons, hgap, mem_def, Int32.le_iff_toInt_le, Int32.le_iff_toInt_le]
  constructor
  · rintro ⟨hv, hvi, hout⟩
    by_cases hvlo : v.toInt < i.lo.toInt
    · exact .inl (by omega)
    · exact .inr ⟨by omega, hout⟩
  · rintro (hv | ⟨hv, hout⟩)
    · exact ⟨hv.1, by omega, hlater (by omega)⟩
    · exact ⟨hv.1, by omega, hout⟩

end

/-- A sweep over intervals by increasing lower bounds finds the levels from the cursor on that are in
none of them. -/
theorem exists_sweep {is : List Interval} (hne : ∀ i ∈ is, i.lo.toInt ≤ i.hi.toInt)
    (hsorted : is.Pairwise fun i j => i.lo.toInt ≤ j.lo.toInt) (cursor : Option Int32) :
    ∃ gaps, sweep cursor is = some gaps ∧ Separated gaps ∧
      ∀ v, (∃ g ∈ gaps, v ∈ g) ↔ (∃ s ∈ cursor, s.toInt ≤ v.toInt) ∧ ∀ i ∈ is, v ∉ i := by
  induction is generalizing cursor with
  | nil =>
    cases cursor with
    | none => exact ⟨[], rfl, .nil, by simp⟩
    | some start =>
      refine ⟨[atLeast start], rfl, .singleton ?_, fun v => ?_⟩
      · exact Int32.le_iff_toInt_le.1 (Int32.le_maxValue start)
      · simp [Int32.le_iff_toInt_le]
  | cons i is ih =>
    obtain ⟨hi, hne⟩ := List.forall_mem_cons.1 hne
    obtain ⟨hle, hsorted⟩ := List.pairwise_cons.1 hsorted
    cases cursor with
    | none => exact ⟨[], rfl, .nil, by simp⟩
    | some start =>
      obtain ⟨gaps, hgaps, hsep, hmem⟩ := ih hne hsorted (advance start i)
      have hrest (v : Int32) : (∃ g ∈ gaps, v ∈ g) ↔
          (start.toInt ≤ v.toInt ∧ i.hi.toInt < v.toInt) ∧ ∀ j ∈ is, v ∉ j := by
        rw [hmem, exists_advance_le]
      simp only [Option.mem_some_iff, exists_eq_left']
      by_cases hlt : start.toInt < i.lo.toInt
      · -- a gap in front of the interval: what follows begins above `i.hi`, and so not next to it
        have hpred := toInt_sub_one hlt
        refine ⟨⟨start, i.lo - 1⟩ :: gaps, ?_, .cons ?_ (fun g hg => ?_) hsep, fun v => ?_⟩
        · rw [sweep, if_pos (Int32.lt_iff_toInt_lt.2 hlt), pred?_eq_some_iff.2 hpred, hgaps]
          rfl
        · dsimp only
          omega
        · have hlo : g.lo ∈ g := mem_def.2
            ⟨Int32.le_refl _, Int32.le_iff_toInt_le.2 (hsep.nonempty g hg)⟩
          have habove := ((hrest g.lo).1 ⟨g, hg, hlo⟩).1.2
          dsimp only
          omega
        · rw [List.exists_mem_cons_iff, hrest, outside_cons_iff_of_lt hlt hle]
      · refine ⟨gaps, ?_, hsep, fun v => ?_⟩
        · rw [sweep, if_neg fun h => hlt (Int32.lt_iff_toInt_lt.1 h), hgaps]
        · rw [hrest, outside_cons_iff (Int.not_lt.1 hlt)]

/-- A sweep over the intervals that hold levels gives the complement, in whatever order the intervals
with the same lower bound come. -/
theorem sweep_eq_complement {is js : List Interval} (hperm : js.Perm (is.filter (! ·.isEmpty)))
    (hsorted : js.Pairwise (·.lo ≤ ·.lo)) :
    sweep (some Int32.minValue) js = some (complement is) := by
  have hmem (j : Interval) : j ∈ js ↔ j ∈ is ∧ j.lo.toInt ≤ j.hi.toInt := by
    rw [hperm.mem_iff, List.mem_filter]
    simp [isEmpty, Int32.le_iff_toInt_le]
  obtain ⟨gaps, hgaps, hsep, hout⟩ := exists_sweep (fun j hj => ((hmem j).1 hj).2)
    (hsorted.imp Int32.le_iff_toInt_le.1) (some Int32.minValue)
  rw [hgaps, hsep.eq_of_mem_iff (separated_complement is) fun v => ?_]
  rw [hout, mem_complement]
  have hmin : Int32.minValue.toInt ≤ v.toInt := Int32.le_iff_toInt_le.1 (Int32.minValue_le v)
  simp only [Option.mem_some_iff, exists_eq_left', hmin, true_and]
  constructor
  · intro h i hi hv
    have hle : i.lo.toInt ≤ i.hi.toInt := by
      have hbounds := mem_def.1 hv
      simp only [Int32.le_iff_toInt_le] at hbounds
      omega
    exact h i ((hmem i).2 ⟨hi, hle⟩) hv
  · intro h j hj
    exact h j ((hmem j).1 hj).1

/-- The complement holds exactly the levels in no interval, in parts that hold levels and have levels
between them.  Neither taking intervals away nor sweeping over them computes a bound out of range. -/
theorem complement_exact (is : List Interval) :
    (∀ v, (∃ g ∈ complement is, v ∈ g) ↔ ¬ ∃ i ∈ is, v ∈ i) ∧
    Separated (complement is) ∧
    (∀ g i : Interval, ∀ p ∈ g.diff i,
      (p.lo.toInt = g.lo.toInt ∨ p.lo.toInt = i.hi.toInt + 1) ∧
      (p.hi.toInt = g.hi.toInt ∨ p.hi.toInt = i.lo.toInt - 1)) ∧
    ∀ js : List Interval, js.Perm (is.filter (! ·.isEmpty)) → js.Pairwise (·.lo ≤ ·.lo) →
      sweep (some Int32.minValue) js = some (complement is) := by
  refine ⟨fun v => ?_, separated_complement is, fun g i p hp => bounds_of_mem_diff hp,
    fun js hperm hsorted => sweep_eq_complement hperm hsorted⟩
  rw [mem_complement]
  simp

/-- Nested, repeated, adjacent and empty intervals, up to both ends of the integers. -/
example :
    let js : List Interval := [atMost (-3), ⟨0, 9⟩, ⟨0, 4⟩, ⟨0, 4⟩, ⟨10, 10⟩, atLeast 20, exact 25]
    complement (⟨5, 1⟩ :: js.reverse) = [⟨-2, -1⟩, ⟨11, 19⟩] ∧
      sweep (some Int32.minValue) js = some [⟨-2, -1⟩, ⟨11, 19⟩] := by
  decide

end Interval

end MethodProbes
