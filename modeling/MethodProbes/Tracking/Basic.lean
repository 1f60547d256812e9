import MethodProbes.Level.Gate
import MethodProbes.Tracking.Declaration

/-!
# How a method is tracked

Tracking is what the entry declarations of a method add up to.  One declaration without a sampler
turns sampling off for the whole method.
-/
namespace MethodProbes

structure Tracking where
  timed : Bool
  sampler : Option Sampler
  mean : SamplingMean
  /-- The declared level intervals in order. -/
  levels : List Interval
  deriving DecidableEq

namespace Tracking

def initial : Tracking := ⟨false, none, .unset, []⟩

def isSampled (t : Tracking) : Bool := t.mean.get?.isSome

/-- The mean and the deciding call of a sampled method. -/
def sampling? (t : Tracking) : Option (Nat × ProbeCall) := do
  let mean ← t.mean.get?
  let sampler ← t.sampler
  return (mean, sampler.hitCall t.timed)

def gate (t : Tracking) : Gate := .plan t.levels

/-- Takes the sampler of a declaration into account.  A constant rate, once chosen, stays. -/
def addSampler (t : Tracking) (s : Sampler) (mean : Nat) : Tracking :=
  if t.mean = .disabled then t
  else { t with
    sampler := if t.sampler = some .const then t.sampler else some s
    mean := t.mean.fold mean }

/-- Takes a declaration into account.  The last one decides whether the method is timed. -/
def declare (t : Tracking) (d : Declaration) (defaultMean : Nat) : Tracking :=
  let t := { t with timed := d.timed, levels := t.levels ++ d.level.toList }
  match d.sampler with
  | some s => t.addSampler s (d.mean.getD defaultMean)
  | none => { t with mean := .disabled }

/-- Takes a marker into account; only entry markers declare anything. -/
def record (t : Tracking) (m : Marker) (defaultMean : Nat) : Except MarkerError Tracking :=
  if m.kind = .entry then (Declaration.ofMarker m).map (t.declare · defaultMean)
  else .ok t

theorem record_of_ne_entry {t : Tracking} {m : Marker} (h : m.kind ≠ .entry) (n : Nat) :
    t.record m n = .ok t := by
  simp [record, h]

end Tracking

end MethodProbes
