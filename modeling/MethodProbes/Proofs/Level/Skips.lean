import MethodProbes.Level.Gate

/-!
# The levels that a gate skips

A planned gate skips exactly the levels outside all declared intervals, except that an open one
may pass negative levels too.
-/
namespace MethodProbes

namespace SkipRange

instance : Membership Int32 SkipRange :=
  ⟨fun r v => (∀ lo ∈ r.lower, lo ≤ v) ∧ ∀ hi ∈ r.upper, v ≤ hi⟩

theorem mem_def {r : SkipRange} {v : Int32} :
    v ∈ r ↔ (∀ lo ∈ r.lower, lo ≤ v) ∧ ∀ hi ∈ r.upper, v ≤ hi := Iff.rfl

instance (r : SkipRange) (v : Int32) : Decidable (v ∈ r) :=
  decidable_of_iff (r.lower.all (· ≤ v) = true ∧ r.upper.all (v ≤ ·) = true) <| by
    simp [mem_def, Option.all_eq_true]

@[simp] theorem mem_ofInterval {i : Interval} {v : Int32} : v ∈ ofInterval i ↔ v ∈ i := by
  have hlo : (∀ lo ∈ (ofInterval i).lower, lo ≤ v) ↔ i.lo ≤ v := by
    simp only [ofInterval]
    split
    next h => simp [h, Int32.minValue_le]
    next h => simp
  have hhi : (∀ hi ∈ (ofInterval i).upper, v ≤ hi) ↔ v ≤ i.hi := by
    simp only [ofInterval]
    split
    next h => simp [h, Int32.le_maxValue]
    next h => simp
  rw [mem_def, hlo, hhi, Interval.mem_def]

theorem mem_of_not_comparesLevel {r : SkipRange} (h : r.comparesLevel = false) (v : Int32) :
    v ∈ r := by
  obtain ⟨_ | lo, _ | hi⟩ := r <;> simp_all [comparesLevel, mem_def]

theorem comparesLevel_ofInterval {i : Interval} (h : i ≠ .all) :
    (ofInterval i).comparesLevel = true := by
  by_cases hlo : i.lo = Int32.minValue
  · by_cases hhi : i.hi = Int32.maxValue
    · exact absurd (by cases i; simp_all [Interval.all]) h
    · simp [comparesLevel, ofInterval, hhi]
  · simp [comparesLevel, ofInterval, hlo]

end SkipRange

namespace Interval

/-- A part that is cut off has a bound of its own. -/
private theorem all_notMem_diff {g i : Interval} (h : g.diff i ≠ [g]) : all ∉ g.diff i := by
  have hlo : g.lo < i.lo → i.lo - 1 ≠ Int32.maxValue := fun hlt he => by
    have hi : i.lo = Int32.minValue := by
      rw [← Int32.sub_add_cancel i.lo 1, he]
      rfl
    exact Int32.not_lt.2 (Int32.minValue_le g.lo) (hi ▸ hlt)
  have hhi : i.hi < g.hi → i.hi + 1 ≠ Int32.minValue := fun hlt he => by
    have hi : i.hi = Int32.maxValue := by
      rw [← Int32.add_sub_cancel i.hi 1, he]
      rfl
    exact Int32.not_lt.2 (Int32.le_maxValue g.hi) (hi ▸ hlt)
  unfold diff at h ⊢
  split at h
  · exact absurd rfl h
  · rename_i hcut
    rw [if_neg hcut, List.mem_append]
    rintro (hm | hm) <;> split at hm
    · next hlt => exact hlo hlt (congrArg Interval.hi (List.mem_singleton.1 hm)).symm
    · cases hm
    · next hlt => exact hhi hlt (congrArg Interval.lo (List.mem_singleton.1 hm)).symm
    · cases hm

/-- The interval of all levels is in a complement only by itself. -/
theorem complement_eq_of_all_mem {is : List Interval} (h : all ∈ complement is) :
    complement is = [all] := by
  have hfold (gaps : List Interval) (hg : gaps = [all] ∨ all ∉ gaps) :
      is.foldl (fun gaps i => gaps.flatMap (·.diff i)) gaps = [all] ∨
        all ∉ is.foldl (fun gaps i => gaps.flatMap (·.diff i)) gaps := by
    clear h
    induction is generalizing gaps with
    | nil => exact hg
    | cons i is ih =>
      apply ih
      rcases hg with rfl | hg
      · simp only [List.flatMap_cons, List.flatMap_nil, List.append_nil]
        by_cases hd : all.diff i = [all]
        · exact .inl hd
        · exact .inr (all_notMem_diff hd)
      · refine .inr fun hm => ?_
        obtain ⟨g, hgm, hm⟩ := List.mem_flatMap.1 hm
        by_cases hd : g.diff i = [g]
        · rw [hd, List.mem_singleton] at hm
          exact hg (hm ▸ hgm)
        · exact all_notMem_diff hd hm
  exact (hfold [all] (.inl rfl)).resolve_right (not_not_intro h)

end Interval

namespace Gate

def Skips (g : Gate) (v : Int32) : Prop := ∃ r ∈ g.ranges, v ∈ r

instance (g : Gate) (v : Int32) : Decidable (g.Skips v) :=
  inferInstanceAs (Decidable (∃ r ∈ g.ranges, v ∈ r))

def comparesLevel (g : Gate) : Bool := g.ranges.any SkipRange.comparesLevel

theorem not_skips_openGate (v : Int32) : ¬ openGate.Skips v := by
  rintro ⟨r, hr, -⟩
  cases hr

theorem ranges_of_plan {is : List Interval} {rs : List SkipRange} (h : plan is = .skipping rs) :
    rs = (Interval.complement is).map .ofInterval ∧ rs ≠ [] := by
  unfold plan at h
  split at h
  · cases h
  · split at h
    next => cases h
    next g hg =>
      split at h
      · cases h
      · cases h
        simp [hg]
    next gs hne _ =>
      cases h
      refine ⟨rfl, fun hnil => hne ?_⟩
      exact List.map_eq_nil_iff.1 hnil

/-- A gate that is not open skips exactly the levels outside all intervals. -/
theorem skips_plan {is : List Interval} {rs : List SkipRange} (h : plan is = .skipping rs)
    (v : Int32) : (skipping rs).Skips v ↔ ∀ i ∈ is, v ∉ i := by
  rw [← Interval.mem_complement, (ranges_of_plan h).1]
  constructor
  · rintro ⟨r, hr, hv⟩
    obtain ⟨g, hg, rfl⟩ := List.mem_map.1 hr
    exact ⟨g, hg, SkipRange.mem_ofInterval.1 hv⟩
  · rintro ⟨g, hg, hv⟩
    exact ⟨_, List.mem_map_of_mem hg, SkipRange.mem_ofInterval.2 hv⟩

/-- An open gate leaves no level out that is not negative, unless nothing is declared. -/
theorem mem_of_plan_openGate {is : List Interval} (h : plan is = .openGate) {v : Int32}
    (hv : 0 ≤ v) : is = [] ∨ ∃ i ∈ is, v ∈ i := by
  apply Classical.byContradiction
  intro hno
  obtain ⟨hne, hno⟩ := not_or.1 hno
  have hout : ∀ i ∈ is, v ∉ i := fun i hi hvi => hno ⟨i, hi, hvi⟩
  obtain ⟨g, hg, hvg⟩ := Interval.mem_complement.2 hout
  unfold plan at h
  split at h
  · next he => exact hne (List.isEmpty_iff.1 he)
  · split at h
    next he =>
      rw [he] at hg
      cases hg
    next g' he =>
      split at h
      · next hle =>
        rw [he, List.mem_singleton] at hg
        rw [hg, hle, Interval.mem_atMost] at hvg
        exact absurd (Int32.le_trans hv hvg) (by decide)
      · cases h
    next => cases h

/-- At the levels that are not negative, an open gate stands for a declaration that holds. -/
theorem passes_plan_iff (is : List Interval) {v : Int32} (hv : 0 ≤ v) :
    ¬ (plan is).Skips v ↔ is = [] ∨ ∃ i ∈ is, v ∈ i := by
  cases h : plan is with
  | openGate => exact iff_of_true (not_skips_openGate v) (mem_of_plan_openGate h hv)
  | skipping rs =>
    have hne : is ≠ [] := by
      rintro rfl
      cases h
    rw [skips_plan h, or_iff_right hne]
    simp

theorem comparesLevel_of_mem {is : List Interval} (h : (plan is).comparesLevel = true)
    {r : SkipRange} (hr : r ∈ (plan is).ranges) : r.comparesLevel = true := by
  cases hp : plan is with
  | openGate =>
    rw [hp] at hr
    cases hr
  | skipping rs =>
    rw [hp] at h hr
    obtain ⟨hrs, -⟩ := ranges_of_plan hp
    obtain ⟨g, hg, rfl⟩ := List.mem_map.1 (hrs ▸ hr)
    apply SkipRange.comparesLevel_ofInterval
    rintro rfl
    rw [comparesLevel, ranges, hrs, Interval.complement_eq_of_all_mem hg] at h
    exact absurd h (by decide)

theorem head?_comparesLevel (is : List Interval) :
    (plan is).ranges.head?.any SkipRange.comparesLevel = (plan is).comparesLevel := by
  rw [Bool.eq_iff_iff]
  constructor
  · intro h
    obtain ⟨r, hr, hc⟩ := (Option.any_eq_true _ _).1 h
    exact List.any_eq_true.2 ⟨r, List.mem_of_mem_head? hr, hc⟩
  · intro h
    obtain ⟨r, hr, -⟩ := List.any_eq_true.1 h
    obtain ⟨r', hr'⟩ := Option.isSome_iff_exists.1 (List.isSome_head?.2 (List.ne_nil_of_mem hr))
    exact (Option.any_eq_true _ _).2 ⟨r', hr', comparesLevel_of_mem h (List.mem_of_mem_head? hr')⟩

/-- Without comparisons a gate decides the same at all levels. -/
theorem skips_of_not_comparesLevel {is : List Interval} (h : (plan is).comparesLevel = false)
    (v : Int32) : (plan is).Skips v ↔ plan is ≠ .openGate := by
  cases hp : plan is with
  | openGate => simp [not_skips_openGate]
  | skipping rs =>
    rw [hp] at h
    obtain ⟨-, hne⟩ := ranges_of_plan hp
    obtain ⟨r, rs, rfl⟩ := List.exists_cons_of_ne_nil hne
    have hr : r.comparesLevel = false :=
      Bool.eq_false_iff.2 (List.any_eq_false.1 h r List.mem_cons_self)
    simp only [ne_eq, reduceCtorEq, not_false_eq_true, iff_true]
    exact ⟨r, List.mem_cons_self, SkipRange.mem_of_not_comparesLevel hr v⟩

end Gate

end MethodProbes
