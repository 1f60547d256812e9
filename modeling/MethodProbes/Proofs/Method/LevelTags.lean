import MethodProbes.Proofs.Level.Canonical
import MethodProbes.Proofs.Maps
import MethodProbes.Proofs.Method.Registrations
import MethodProbes.Proofs.Tracking.Recorded

/-!
# What level tags say

The level tags of a method say where its probe code runs, and nothing else.  They reach the code only
through the gate, which depends on the declared intervals only through the levels that they hold.
-/
namespace MethodProbes

namespace Marker

def withoutLevel (m : Marker) : Marker := { m with tags := m.tags.erase TagName.level.key }

variable (m : Marker)

theorem tag?_withoutLevel (t : TagName) :
    m.withoutLevel.tag? t = if t = .level then none else m.tag? t := by
  have hkey : t.key = TagName.level.key ↔ t = .level := by cases t <;> decide
  rw [withoutLevel, tag?, SortedMap.get?_erase]
  simp only [hkey, tag?]

theorem hasTag_withoutLevel {t : TagName} (h : t ≠ .level) :
    m.withoutLevel.hasTag t = m.hasTag t := by
  have htag := m.tag?_withoutLevel t
  rw [if_neg h] at htag
  exact congrArg Option.isSome htag

theorem methodId?_withoutLevel : m.withoutLevel.methodId? = m.methodId? := by
  rw [methodId?, tag?_withoutLevel, if_neg (by decide), methodId?]

theorem declaration_withoutLevel :
    m.withoutLevel.declaration = { m.declaration with level := none } := by
  simp [declaration, hasTag_withoutLevel, level?, levelText?, sampler?, mean?, tag?_withoutLevel]

theorem faults_withoutLevel (h : m.faults = []) : m.withoutLevel.faults = [] := by
  simp only [faults, List.append_eq_nil_iff, Option.toList_eq_nil_iff] at h ⊢
  obtain ⟨⟨-, hsampler⟩, hmean⟩ := h
  simp only [samplerFault?, meanFault?, levelFault?, levelText?, tag?_withoutLevel] at hsampler hmean ⊢
  exact ⟨⟨rfl, hsampler⟩, hmean⟩

end Marker

namespace Tracking

def withLevels (t : Tracking) (is : List Interval) : Tracking := { t with levels := is }

theorem declare_withLevels (t : Tracking) (d : Declaration) (defaultMean : Nat)
    (is : List Interval) :
    (t.withLevels is).declare { d with level := none } defaultMean =
      (t.declare d defaultMean).withLevels is := by
  rw [declare, declare]
  cases d.sampler with
  | none => simp [withLevels]
  | some s =>
    simp only [addSampler, withLevels, Option.toList_none, List.append_nil]
    split <;> rfl

theorem record_withoutLevel {t u : Tracking} {m : Marker} {defaultMean : Nat}
    (h : t.record m defaultMean = .ok u) (is : List Interval) :
    (t.withLevels is).record m.withoutLevel defaultMean = .ok (u.withLevels is) := by
  rw [record_eq] at h ⊢
  have hkind : m.withoutLevel.kind = m.kind := rfl
  rw [hkind]
  split at h
  next hk =>
    rw [if_pos hk]
    cases hf : m.faults with
    | nil =>
      rw [hf] at h
      cases h
      rw [m.faults_withoutLevel hf, m.declaration_withoutLevel, declare_withLevels]
      rfl
    | cons e es =>
      rw [hf] at h
      cases h
  next hk =>
    cases h
    rw [if_neg hk]

end Tracking

namespace Context

/-- The code of a marker depends on the declared intervals only through the gate. -/
theorem steps_withLevels (x : Context) {is : List Interval} (h : .plan is = x.tracking.gate)
    (m : Marker) : { x with tracking := x.tracking.withLevels is }.steps m = x.steps m := by
  have hgate : (x.tracking.withLevels is).gate = x.tracking.gate := h
  have hguard (vs : List Var) (given : Option Label) (n : Nat) :
      { x with tracking := x.tracking.withLevels is }.guard vs given n = x.guard vs given n := by
    simp only [guard, hgate]
    rfl
  cases hk : m.kind <;> simp only [steps, hk]
  · simp only [entrySteps, gated, hguard]
    rfl
  · simp only [testSteps, branch, clockMeasure, testsTo, hguard]
    rfl
  · rfl
  · rfl
  · rfl

theorem steps_withoutLevel (x : Context) (m : Marker) : x.steps m.withoutLevel = x.steps m := by
  have htimed : m.withoutLevel.hasTag .timed = m.hasTag .timed :=
    m.hasTag_withoutLevel (by decide)
  rw [steps, steps, htimed]
  rfl

end Context

namespace Expander

def withLevels (x : Expander) (is : List Interval) : Expander :=
  { x with tracking := x.tracking.withLevels is }

theorem recordAll_withoutLevel {x y : Expander} {ms : List Marker} (h : x.recordAll ms = .ok y)
    (is : List Interval) :
    (x.withLevels is).recordAll (ms.map Marker.withoutLevel) = .ok (y.withLevels is) := by
  induction ms generalizing x with
  | nil =>
    cases h
    rfl
  | cons m ms ih =>
    obtain ⟨z, hz, h⟩ := recordAll_cons h
    have hrecord : (x.withLevels is).record m.withoutLevel = .ok (z.withLevels is) := by
      rw [record] at hz ⊢
      cases hr : x.tracking.record m x.settings.defaultMean with
      | error e =>
        rw [hr] at hz
        cases hz
      | ok t =>
        rw [hr] at hz
        cases hz
        have hr := Tracking.record_withoutLevel hr is
        simp [withLevels, hr, Except.map]
    rw [List.map_cons, recordAll, List.foldlM_cons, hrecord]
    exact ih h

theorem expand_withLevels (x : Expander) {is : List Interval} (h : .plan is = x.tracking.gate)
    (m : Marker) (b : Buffer) : (x.withLevels is).expand m b =
      { x.expand m b with expander := (x.expand m b).expander.withLevels is } := by
  have hid : (x.withLevels is).effectiveId m = x.effectiveId m := rfl
  rw [expand, expand, hid]
  cases x.effectiveId m with
  | error e => rfl
  | ok id =>
    have hsteps := (x.context id b.nextLabel).steps_withLevels h m
    dsimp only [context, withLevels] at hsteps ⊢
    rw [hsteps]
    rfl

theorem expandAll_withLevels (x : Expander) {is : List Interval} (h : .plan is = x.tracking.gate)
    (b : Buffer) (n : Nat) (ms : List Marker) :
    (x.withLevels is).expandAll b n ms = x.expandAll b n ms := by
  induction ms generalizing x b n with
  | nil => rfl
  | cons m ms ih =>
    have htracking := (x.expand_keeps m b).2
    rw [expandAll, expandAll, x.expand_withLevels h]
    rcases he : x.expand m b with ⟨y, c, r, _ | e⟩
    · rw [he] at htracking
      dsimp only at htracking ⊢
      rw [ih y (by rw [h, htracking])]
    · rfl

theorem expandAll_withoutLevel (x : Expander) (b : Buffer) (n : Nat) (ms : List Marker) :
    x.expandAll b n (ms.map Marker.withoutLevel) = x.expandAll b n ms := by
  induction ms generalizing x b n with
  | nil => rfl
  | cons m ms ih =>
    have hexpand : x.expand m.withoutLevel b = x.expand m b := by
      simp only [expand, effectiveId, m.methodId?_withoutLevel, Context.steps_withoutLevel]
      rfl
    simp only [List.map_cons, expandAll, hexpand, ih]
    rfl

end Expander

/-- What comes of expanding markers: why it fails, or the code, its spans and the number of slots. -/
def Trace.outcome (t : Trace) : Except MarkerError (Array Insn × List Span × Nat) :=
  match t.error with
  | some e => .error e
  | none => .ok (t.buffer.insns, t.spans, t.buffer.slots.size)

def Attempt.outcome (a : Attempt) : Except MarkerError (Array Insn × List Span × Nat) :=
  a.result.map fun p => (p.code, p.spans, p.slots)

namespace Body

def withoutLevels (b : Body) : Body := { b with markers := b.markers.map Marker.withoutLevel }

/-- The intervals that the markers of a body declare, if they can all be recorded. -/
def levels? (b : Body) (settings : Settings) : Option (List Interval) :=
  ((Expander.new b.methodId settings).recordAll b.markers).toOption.map (·.tracking.levels)

theorem outcome_attempt_of_ok {b : Body} {settings : Settings} {x : Expander}
    (h : (Expander.new b.methodId settings).recordAll b.markers = .ok x) (firstSlot : UInt16) :
    (b.attempt settings firstSlot).outcome =
      (x.expandAll (.empty firstSlot) 0 b.markers).outcome := by
  rw [attempt, h, Attempt.outcome, Trace.outcome]
  dsimp only
  cases (x.expandAll (.empty firstSlot) 0 b.markers).error <;> rfl

/-- A body comes to what its markers without level tags come to, expanded with its intervals. -/
theorem outcome_attempt_of_levels? {b : Body} {settings : Settings} {is : List Interval}
    (h : b.levels? settings = some is) (firstSlot : UInt16) : ∃ x : Expander,
      (Expander.new b.withoutLevels.methodId settings).recordAll b.withoutLevels.markers = .ok x ∧
      x.withLevels [] = x ∧
      (b.attempt settings firstSlot).outcome =
        ((x.withLevels is).expandAll (.empty firstSlot) 0 b.withoutLevels.markers).outcome := by
  rw [levels?] at h
  cases hx : (Expander.new b.methodId settings).recordAll b.markers with
  | error e =>
    rw [hx] at h
    cases h
  | ok x =>
    rw [hx] at h
    cases h
    refine ⟨x.withLevels [], Expander.recordAll_withoutLevel hx [], rfl, ?_⟩
    rw [outcome_attempt_of_ok hx]
    exact congrArg Trace.outcome (x.expandAll_withoutLevel _ 0 b.markers).symm

/-- The level tags of a body say nothing but at which levels its code runs.  Bodies that differ in level
tags only come to the same, if neither declares an interval, or both do and the same levels are in some
interval of the one and of the other.  If a body declares every level from zero on, and all negative
levels or none, it comes to what it comes to without level tags. -/
theorem outcome_of_levels {b : Body} {settings : Settings} {is : List Interval}
    (hb : b.levels? settings = some is) (firstSlot : UInt16) :
    (∀ (b' : Body) (js : List Interval), b'.withoutLevels = b.withoutLevels →
      b'.levels? settings = some js → (is = [] ↔ js = []) →
      (∀ v, (∃ i ∈ is, v ∈ i) ↔ ∃ j ∈ js, v ∈ j) →
      (b.attempt settings firstSlot).outcome = (b'.attempt settings firstSlot).outcome) ∧
    ((∀ v, 0 ≤ v → ∃ i ∈ is, v ∈ i) →
      ((∀ v < 0, ∃ i ∈ is, v ∈ i) ∨ ∀ v < 0, ¬ ∃ i ∈ is, v ∈ i) →
      (b.attempt settings firstSlot).outcome =
        (b.withoutLevels.attempt settings firstSlot).outcome) := by
  obtain ⟨x, hx, hlevels, houtcome⟩ := outcome_attempt_of_levels? hb firstSlot
  constructor
  · intro b' js hbody hb' hnil h
    obtain ⟨y, hy, -, houtcome'⟩ := outcome_attempt_of_levels? hb' firstSlot
    have hxy : x = y := by
      rw [hbody, hx] at hy
      exact Except.ok.inj hy
    rw [houtcome, houtcome', hbody, ← hxy]
    exact congrArg Trace.outcome
      (Expander.expandAll_withLevels (x.withLevels js) (Gate.plan_congr hnil h) _ 0 _)
  · intro h hneg
    rw [houtcome, outcome_attempt_of_ok hx, Expander.expandAll_withLevels x]
    rw [← hlevels]
    exact Gate.plan_of_covers h hneg

/-- The levels from zero to nine are declared in two ways, and all from zero on in a third. -/
theorem outcome_of_levels_ranges :
    let body (l₁ l₂ : String) : Body :=
      let entry := (Marker.ofKind .entry).withFlag "timed"
      ⟨"m", 1, [entry.withTag "level" l₁, entry.withTag "level" l₂]⟩
    let b := body "[0,4]" "[3,9]"
    let b' := body "[5,9]" "[0,7]"
    let c := body ">=5" "[0,4]"
    b'.withoutLevels = b.withoutLevels ∧ b.levels? {} = some [⟨0, 4⟩, ⟨3, 9⟩] ∧
      b'.levels? {} = some [⟨5, 9⟩, ⟨0, 7⟩] ∧ c.levels? {} = some [.atLeast 5, ⟨0, 4⟩] ∧
      (b.attempt {} 0).outcome = (b'.attempt {} 0).outcome ∧
      (b.attempt {} 0).outcome ≠ (b.withoutLevels.attempt {} 0).outcome ∧
      (c.attempt {} 0).outcome = (c.withoutLevels.attempt {} 0).outcome := by
  intro body b b' c
  have hbody : b'.withoutLevels = b.withoutLevels := by decide
  have hb : b.levels? {} = some [⟨0, 4⟩, ⟨3, 9⟩] := by decide
  have hb' : b'.levels? {} = some [⟨5, 9⟩, ⟨0, 7⟩] := by decide
  have hc : c.levels? {} = some [.atLeast 5, ⟨0, 4⟩] := by decide
  have heq (v : Int32) : (∃ i ∈ [(⟨0, 4⟩ : Interval), ⟨3, 9⟩], v ∈ i) ↔
      ∃ i ∈ [(⟨5, 9⟩ : Interval), ⟨0, 7⟩], v ∈ i := by
    simp [Interval.mem_def, Int32.le_iff_toInt_le]
    omega
  refine ⟨hbody, hb, hb', hc, (outcome_of_levels hb 0).1 b' _ hbody hb' (by simp) heq, by decide,
    (outcome_of_levels hc 0).2 (fun v hv => ?_) (.inr fun v hv => ?_)⟩
  · rw [List.exists_mem_cons_iff, Interval.mem_atLeast]
    simp [Interval.mem_def, Int32.le_iff_toInt_le] at hv ⊢
    omega
  · rw [List.exists_mem_cons_iff, Interval.mem_atLeast]
    simp [Interval.mem_def, Int32.le_iff_toInt_le, Int32.lt_iff_toInt_lt] at hv ⊢
    omega
end Body

end MethodProbes
