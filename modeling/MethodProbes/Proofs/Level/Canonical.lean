import Mathlib.Data.List.Basic
import MethodProbes.Level.Gate

/-!
# Complements as normal forms

The parts of a complement hold levels, stand in increasing order and have a level between them.  There
is only one such list for a set of levels, so a complement, and with it a planned gate, depends on the
intervals only through the levels that they hold.
-/
namespace MethodProbes

namespace Interval

/-- Each interval holds a level, and between two of them there is a level that belongs to neither, the
first one being the lower. -/
structure Separated (is : List Interval) : Prop where
  nonempty : ∀ i ∈ is, i.lo.toInt ≤ i.hi.toInt
  apart : is.Pairwise fun i j => i.hi.toInt + 1 < j.lo.toInt

namespace Separated

variable {i : Interval} {is js : List Interval} {v : Int32}

theorem nil : Separated [] := ⟨fun _ h => (List.not_mem_nil h).elim, .nil⟩

theorem singleton (h : i.lo.toInt ≤ i.hi.toInt) : Separated [i] :=
  ⟨fun _ hi => List.mem_singleton.1 hi ▸ h, List.pairwise_singleton _ _⟩

theorem head (h : Separated (i :: is)) : i.lo.toInt ≤ i.hi.toInt := h.nonempty i List.mem_cons_self

theorem tail (h : Separated (i :: is)) : Separated is :=
  ⟨fun j hj => h.nonempty j (List.mem_cons_of_mem i hj), (List.pairwise_cons.1 h.apart).2⟩

theorem lo_mem_head (h : Separated (i :: is)) : i.lo ∈ i :=
  mem_def.2 ⟨Int32.le_refl _, Int32.le_iff_toInt_le.2 h.head⟩

/-- The tail holds the levels above the head, which is followed by a gap. -/
theorem lt_of_mem_tail (h : Separated (i :: is)) (hv : ∃ j ∈ is, v ∈ j) :
    i.hi.toInt + 1 < v.toInt := by
  obtain ⟨j, hj, hv⟩ := hv
  have hgap := (List.pairwise_cons.1 h.apart).1 j hj
  have hlo := Int32.le_iff_toInt_le.1 (mem_def.1 hv).1
  omega

theorem mem_tail_iff (h : Separated (i :: is)) :
    (∃ j ∈ is, v ∈ j) ↔ (∃ j ∈ i :: is, v ∈ j) ∧ i.hi.toInt < v.toInt := by
  rw [List.exists_mem_cons_iff]
  constructor
  · intro hv
    have hlt := h.lt_of_mem_tail hv
    exact ⟨.inr hv, by omega⟩
  · rintro ⟨hv | hv, hlt⟩
    · have hhi := Int32.le_iff_toInt_le.1 (mem_def.1 hv).2
      omega
    · exact hv

theorem lo_le_of_mem (h : Separated (i :: is)) (hv : ∃ j ∈ i :: is, v ∈ j) :
    i.lo.toInt ≤ v.toInt := by
  have hhead := h.head
  rw [List.exists_mem_cons_iff] at hv
  rcases hv with hv | hv
  · exact Int32.le_iff_toInt_le.1 (mem_def.1 hv).1
  · have hlt := h.lt_of_mem_tail hv
    omega

theorem hi_le_of_mem {j : Interval} (hi : Separated (i :: is)) (hlo : i.lo = j.lo)
    (h : ∀ v ∈ j, ∃ k ∈ i :: is, v ∈ k) : j.hi.toInt ≤ i.hi.toInt := by
  apply Int.not_lt.1
  intro hlt
  have hsucc := toInt_add_one hlt
  have hhead := hi.head
  have hmem : i.hi + 1 ∈ j := by
    rw [mem_def, ← hlo, Int32.le_iff_toInt_le, Int32.le_iff_toInt_le, hsucc]
    omega
  have hgap := hi.lt_of_mem_tail (hi.mem_tail_iff.2 ⟨h _ hmem, by omega⟩)
  omega

/-- There is only one separated list for a set of levels. -/
theorem eq_of_mem_iff (hi : Separated is) (hj : Separated js)
    (h : ∀ v, (∃ i ∈ is, v ∈ i) ↔ ∃ j ∈ js, v ∈ j) : is = js := by
  induction is generalizing js with
  | nil =>
    cases js with
    | nil => rfl
    | cons j js =>
      obtain ⟨i, hi, -⟩ := (h j.lo).2 ⟨j, List.mem_cons_self, hj.lo_mem_head⟩
      cases hi
  | cons i is ih =>
    cases js with
    | nil =>
      obtain ⟨j, hj, -⟩ := (h i.lo).1 ⟨i, List.mem_cons_self, hi.lo_mem_head⟩
      cases hj
    | cons j js =>
      have hlo : i.lo = j.lo := by
        have hij := hi.lo_le_of_mem ((h j.lo).2 ⟨j, List.mem_cons_self, hj.lo_mem_head⟩)
        have hji := hj.lo_le_of_mem ((h i.lo).1 ⟨i, List.mem_cons_self, hi.lo_mem_head⟩)
        exact Int32.toInt_inj.1 (Int.le_antisymm hij hji)
      have hhi : i.hi = j.hi := by
        have hij := hj.hi_le_of_mem hlo.symm fun v hv => (h v).1 ⟨i, List.mem_cons_self, hv⟩
        have hji := hi.hi_le_of_mem hlo fun v hv => (h v).2 ⟨j, List.mem_cons_self, hv⟩
        exact Int32.toInt_inj.1 (Int.le_antisymm hij hji)
      have hhead : i = j := by
        cases i
        cases j
        cases hlo
        cases hhi
        rfl
      subst hhead
      rw [ih hi.tail hj.tail fun v => by rw [hi.mem_tail_iff, hj.mem_tail_iff, h]]

end Separated

section

variable {g i p : Interval}

/-- The part below an interval ends next to it. -/
theorem bounds_of_mem_below (hp : p ∈ if g.lo < i.lo then [⟨g.lo, i.lo - 1⟩] else []) :
    p.lo = g.lo ∧ p.hi.toInt = i.lo.toInt - 1 ∧ g.lo.toInt < i.lo.toInt := by
  split at hp
  next hlt =>
    rw [Int32.lt_iff_toInt_lt] at hlt
    rw [List.mem_singleton.1 hp]
    exact ⟨rfl, toInt_sub_one hlt, hlt⟩
  next => cases hp

theorem bounds_of_mem_above (hp : p ∈ if i.hi < g.hi then [⟨i.hi + 1, g.hi⟩] else []) :
    p.hi = g.hi ∧ p.lo.toInt = i.hi.toInt + 1 ∧ i.hi.toInt < g.hi.toInt := by
  split at hp
  next hlt =>
    rw [Int32.lt_iff_toInt_lt] at hlt
    rw [List.mem_singleton.1 hp]
    exact ⟨rfl, toInt_add_one hlt, hlt⟩
  next => cases hp

/-- The bounds of a difference are bounds of the first interval or next to bounds of the second. -/
theorem bounds_of_mem_diff (hp : p ∈ g.diff i) :
    (p.lo.toInt = g.lo.toInt ∨ p.lo.toInt = i.hi.toInt + 1) ∧
      (p.hi.toInt = g.hi.toInt ∨ p.hi.toInt = i.lo.toInt - 1) := by
  unfold diff at hp
  split at hp
  · obtain rfl := List.mem_singleton.1 hp
    exact ⟨.inl rfl, .inl rfl⟩
  · rcases List.mem_append.1 hp with hp | hp
    · obtain ⟨hlo, hhi, -⟩ := bounds_of_mem_below hp
      exact ⟨.inl (hlo ▸ rfl), .inr hhi⟩
    · obtain ⟨hhi, hlo, -⟩ := bounds_of_mem_above hp
      exact ⟨.inr hlo, .inl (hhi ▸ rfl)⟩

/-- A difference leaves separated parts of an interval. -/
theorem separated_diff (hg : g.lo.toInt ≤ g.hi.toInt) (i : Interval) :
    Separated (g.diff i) ∧
      ∀ p ∈ g.diff i, g.lo.toInt ≤ p.lo.toInt ∧ p.hi.toInt ≤ g.hi.toInt := by
  unfold diff
  split
  next => exact ⟨.singleton hg, fun p hp => by simp [List.mem_singleton.1 hp]⟩
  next h =>
    simp only [isEmpty, Bool.or_eq_true, decide_eq_true_eq, Int32.lt_iff_toInt_lt] at h
    have hpart : ∀ p ∈ (if g.lo < i.lo then [(⟨g.lo, i.lo - 1⟩ : Interval)] else []) ++
        (if i.hi < g.hi then [⟨i.hi + 1, g.hi⟩] else []),
        g.lo.toInt ≤ p.lo.toInt ∧ p.lo.toInt ≤ p.hi.toInt ∧ p.hi.toInt ≤ g.hi.toInt := fun p hp => by
      rcases List.mem_append.1 hp with hp | hp
      · obtain ⟨hlo, hhi, hlt⟩ := bounds_of_mem_below hp
        rw [hlo]
        omega
      · obtain ⟨hhi, hlo, hlt⟩ := bounds_of_mem_above hp
        rw [hhi]
        omega
    refine ⟨⟨fun p hp => (hpart p hp).2.1, List.pairwise_append.2 ⟨?_, ?_, fun p hp q hq => ?_⟩⟩,
      fun p hp => ⟨(hpart p hp).1, (hpart p hp).2.2⟩⟩
    · split <;> simp
    · split <;> simp
    · obtain ⟨-, hhi, -⟩ := bounds_of_mem_below hp
      obtain ⟨-, hlo, -⟩ := bounds_of_mem_above hq
      omega

end

/-- Taking an interval away keeps the others apart. -/
theorem Separated.flatMap_diff {gaps : List Interval} (h : Separated gaps) (i : Interval) :
    Separated (gaps.flatMap (·.diff i)) where
  nonempty p hp := by
    obtain ⟨g, hg, hp⟩ := List.mem_flatMap.1 hp
    exact (separated_diff (h.nonempty g hg) i).1.nonempty p hp
  apart := by
    rw [List.pairwise_flatMap]
    refine ⟨fun g hg => (separated_diff (h.nonempty g hg) i).1.apart, ?_⟩
    refine h.apart.imp_of_mem fun {g k} hg hk hgk p hp q hq => ?_
    have hp := (separated_diff (h.nonempty g hg) i).2 p hp
    have hq := (separated_diff (h.nonempty k hk) i).2 q hq
    omega

theorem separated_complement (is : List Interval) : Separated (complement is) := by
  have hfold (gaps : List Interval) (h : Separated gaps) :
      Separated (is.foldl (fun gaps i => gaps.flatMap (·.diff i)) gaps) := by
    induction is generalizing gaps with
    | nil => exact h
    | cons i is ih => exact ih _ (h.flatMap_diff i)
  exact hfold [all] (.singleton (by decide))

theorem complement_congr {is js : List Interval}
    (h : ∀ v, (∃ i ∈ is, v ∈ i) ↔ ∃ j ∈ js, v ∈ j) : complement is = complement js := by
  refine (separated_complement is).eq_of_mem_iff (separated_complement js) fun v => ?_
  rw [mem_complement, mem_complement]
  have hv := not_congr (h v)
  simpa using hv

theorem mem_complement_complement {is : List Interval} {v : Int32} :
    (∃ g ∈ complement (complement is), v ∈ g) ↔ ∃ i ∈ is, v ∈ i := by
  rw [mem_complement]
  have hout : ¬ (∃ g ∈ complement is, v ∈ g) ↔ ¬ ∀ i ∈ is, v ∉ i := not_congr mem_complement
  simpa using hout

theorem complement_eq_iff {is js : List Interval} :
    complement is = complement js ↔ ∀ v, (∃ i ∈ is, v ∈ i) ↔ ∃ j ∈ js, v ∈ j := by
  constructor
  · intro h v
    rw [← mem_complement_complement, h, mem_complement_complement]
  · exact complement_congr

/-- A separated list is what two complements make of it. -/
theorem Separated.complement_complement {is : List Interval} (h : Separated is) :
    complement (complement is) = is :=
  (separated_complement _).eq_of_mem_iff h fun _ => mem_complement_complement

/-- The complement stands for the set of declared levels: it does not depend on how they are declared.
Two complements make the one separated list that declares these levels. -/
theorem complement_canonical :
    (∀ is js : List Interval,
      complement is = complement js ↔ ∀ v, (∃ i ∈ is, v ∈ i) ↔ ∃ j ∈ js, v ∈ j) ∧
    (∀ is js : List Interval, is.Perm js → complement is = complement js) ∧
    (∀ is, ∀ i ∈ is, complement (i :: is) = complement is) ∧
    (∀ (is parts : List Interval) (i : Interval), (∀ v, v ∈ i ↔ ∃ p ∈ parts, v ∈ p) →
      complement (parts ++ is) = complement (i :: is)) ∧
    (∀ (is : List Interval) (i : Interval), i.isEmpty = true →
      complement (i :: is) = complement is) ∧
    (∀ is js : List Interval,
      (Separated js ∧ ∀ v, (∃ j ∈ js, v ∈ j) ↔ ∃ i ∈ is, v ∈ i) ↔
        js = complement (complement is)) ∧
    ∀ is : List Interval, complement (complement (complement is)) = complement is := by
  refine ⟨fun is js => complement_eq_iff, fun is js hperm => ?perm, fun is i hi => ?repeated,
    fun is parts i hparts => ?parts, fun is i hi => ?empty, fun is js => ⟨?_, ?_⟩,
    fun is => (separated_complement is).complement_complement⟩
  case perm =>
    refine complement_congr fun v => ?_
    simp only [hperm.mem_iff]
  case repeated =>
    refine complement_congr fun v => ?_
    rw [List.exists_mem_cons_iff]
    exact ⟨fun h => h.elim (fun hv => ⟨i, hi, hv⟩) id, .inr⟩
  case parts =>
    refine complement_congr fun v => ?_
    rw [List.exists_mem_cons_iff, hparts]
    simp only [List.mem_append, or_and_right, exists_or]
  case empty =>
    refine complement_congr fun v => ?_
    rw [List.exists_mem_cons_iff, or_iff_right (not_mem_of_isEmpty hi v)]
  · rintro ⟨hsep, hmem⟩
    exact hsep.eq_of_mem_iff (separated_complement _) fun v =>
      (hmem v).trans mem_complement_complement.symm
  · rintro rfl
    exact ⟨separated_complement _, fun v => mem_complement_complement⟩

end Interval

namespace Gate

theorem le_neg_one_iff {v : Int32} : v ≤ -1 ↔ v < 0 := by
  rw [Int32.le_iff_toInt_le, Int32.lt_iff_toInt_lt, show (-1 : Int32).toInt = -1 from rfl,
    show (0 : Int32).toInt = 0 from rfl]
  omega

/-- Only the levels in some interval matter to the gate, and whether there is an interval. -/
theorem plan_congr {is js : List Interval} (hnil : is = [] ↔ js = [])
    (h : ∀ v, (∃ i ∈ is, v ∈ i) ↔ ∃ j ∈ js, v ∈ j) : plan is = plan js := by
  have hempty : is.isEmpty = js.isEmpty := by
    rw [Bool.eq_iff_iff, List.isEmpty_iff, List.isEmpty_iff, hnil]
  rw [plan, plan, hempty, Interval.complement_congr h]

/-- A gate is open if every level from zero on is in some interval, and the negative levels are treated
alike. -/
theorem plan_of_covers {is : List Interval} (h : ∀ v, 0 ≤ v → ∃ i ∈ is, v ∈ i)
    (hneg : (∀ v < 0, ∃ i ∈ is, v ∈ i) ∨ ∀ v < 0, ¬ ∃ i ∈ is, v ∈ i) : plan is = .openGate := by
  have hout (v : Int32) : (∃ g ∈ Interval.complement is, v ∈ g) ↔ ¬ ∃ i ∈ is, v ∈ i := by
    rw [Interval.mem_complement]
    simp
  have hcomplement : Interval.complement is = [] ∨ Interval.complement is = [.atMost (-1)] := by
    refine hneg.imp (fun hall => ?_) (fun hnone => ?_) <;>
      refine (Interval.separated_complement is).eq_of_mem_iff ?_ fun v => (hout v).trans ?_
    · exact .nil
    · have hv : ∃ i ∈ is, v ∈ i := (Int32.le_total 0 v).elim (h v) fun hle =>
        (Int32.lt_or_eq_of_le hle).elim (hall v) fun heq => h v (heq ▸ Int32.le_refl _)
      simp [hv]
    · exact .singleton (by decide)
    · have hv : (¬ ∃ i ∈ is, v ∈ i) ↔ v < 0 :=
        ⟨fun hno => Int32.not_le.1 fun hle => hno (h v hle), hnone v⟩
      simp [hv, le_neg_one_iff]
  rw [plan]
  split
  · rfl
  · rcases hcomplement with hc | hc <;> rw [hc]
    rfl

end Gate

end MethodProbes
