import MethodProbes.Tracking.Basic

/-!
# How declarations are read

The tags of an entry marker are read one by one, and the first that cannot be read is the error.  A
marker whose tags can all be read makes the declaration that they say.
-/
namespace MethodProbes

namespace Marker

/-- The text of the level; an empty one says nothing. -/
def levelText? (m : Marker) : Option String := (m.tag? .level).filter (· ≠ "")

def level? (m : Marker) : Option Interval :=
  m.levelText?.bind fun s => (Interval.parse s).toOption

def sampler? (m : Marker) : Option Sampler :=
  (m.tag? .sampler).bind fun s =>
    [Sampler.const, .adaptive].find? fun p => p.name = String.ofList (Text.trim s.toList)

def mean? (m : Marker) : Option Nat :=
  (m.tag? .mean).bind fun s =>
    (Text.numeralIn? 1 maxMean (Text.trim s.toList)).map Int.toNat

def levelFault? (m : Marker) : Option MarkerError :=
  m.levelText?.bind fun s =>
    if (Interval.parse s).toOption = none then some (.invalidLevel s) else none

def samplerFault? (m : Marker) : Option MarkerError :=
  (m.tag? .sampler).bind fun s =>
    let name := String.ofList (Text.trim s.toList)
    if name ∈ [none, some Sampler.const, some .adaptive].map Sampler.choiceName then none
    else some (.unknownSampler name)

def meanFault? (m : Marker) : Option MarkerError :=
  (m.tag? .mean).bind fun s =>
    match Text.int64? (Text.trim s.toList) with
    | none => some (.invalidInteger TagName.mean.key s)
    | some n => if 1 ≤ n ∧ n ≤ maxMean then none else some (.invalidMean n)

/-- The faults of the tags, in the order in which the tags are read. -/
def faults (m : Marker) : List MarkerError :=
  m.levelFault?.toList ++ m.samplerFault?.toList ++ m.meanFault?.toList

/-- What the tags that can be read say. -/
def declaration (m : Marker) : Declaration :=
  ⟨m.hasTag .timed, m.level?, m.sampler?, m.mean?⟩

def declares (m : Marker) : Bool := m.kind = .entry && m.faults.isEmpty

variable (m : Marker)

theorem read_level : parseOptional Interval.parse m.levelText? =
    match m.levelFault? with
    | some e => .error e
    | none => .ok m.level? := by
  rw [levelFault?, level?]
  cases m.levelText? with
  | none => rfl
  | some s =>
    cases h : Interval.parse s with
    | ok i => simp [parseOptional, h, Except.map, Except.toOption]
    | error e =>
      obtain ⟨-, rfl⟩ := Interval.parse_eq_error_iff.1 h
      simp [parseOptional, h, Except.map, Except.toOption]

theorem read_sampler : (parseOptional Sampler.parseChoice (m.tag? .sampler)).map Option.join =
    match m.samplerFault? with
    | some e => .error e
    | none => .ok m.sampler? := by
  rw [samplerFault?, sampler?]
  cases m.tag? .sampler with
  | none => rfl
  | some s =>
    simp only [parseOptional, Sampler.parseChoice, Option.bind_some]
    generalize String.ofList (Text.trim s.toList) = name
    by_cases hnone : name = "None"
    · subst hnone
      rfl
    by_cases hconst : name = "Const"
    · subst hconst
      rfl
    by_cases hadaptive : name = "Adaptive"
    · subst hadaptive
      rfl
    · simp [hnone, hconst, hadaptive, Sampler.choiceName, Sampler.name, Except.map]

theorem read_mean : parseOptional parseMean (m.tag? .mean) =
    match m.meanFault? with
    | some e => .error e
    | none => .ok m.mean? := by
  rw [meanFault?, mean?]
  cases m.tag? .mean with
  | none => rfl
  | some s =>
    simp only [parseOptional, parseMean, Option.bind_some]
    cases h : Text.int64? (Text.trim s.toList) with
    | none => rfl
    | some n =>
      by_cases hn : 1 ≤ n ∧ n ≤ maxMean
      · obtain ⟨hnum, -⟩ := Text.numeralIn?_eq_some_iff.1 h
        have hmean : Text.numeralIn? 1 maxMean (Text.trim s.toList) = some n :=
          Text.numeralIn?_eq_some_iff.2 ⟨hnum, hn⟩
        simp [hn, hmean, Except.map]
      · simp [hn, Except.map]

/-- A marker declares what its tags say, unless one of them is at fault. -/
theorem ofMarker_eq : Declaration.ofMarker m =
    match m.faults.head? with
    | some e => .error e
    | none => .ok m.declaration := by
  have hlevel := m.read_level
  have hsampler := m.read_sampler
  have hmean := m.read_mean
  rw [levelText?] at hlevel
  simp only [Declaration.ofMarker, hlevel, hmean, bind, faults]
  cases m.levelFault? with
  | some e => rfl
  | none =>
    cases hs : parseOptional Sampler.parseChoice (m.tag? .sampler) with
    | error e =>
      rw [hs] at hsampler
      cases hf : m.samplerFault? with
      | none =>
        rw [hf] at hsampler
        cases hsampler
      | some f =>
        rw [hf] at hsampler
        cases hsampler
        rfl
    | ok choice =>
      rw [hs] at hsampler
      cases hf : m.samplerFault? with
      | some f =>
        rw [hf] at hsampler
        cases hsampler
      | none =>
        rw [hf] at hsampler
        have hjoin : choice.join = m.sampler? := Except.ok.inj hsampler
        cases m.meanFault? with
        | some e => rfl
        | none => simp [Except.bind, declaration, hjoin, pure, Except.pure]

end Marker

end MethodProbes
