import MethodProbes.Level.Expr
import MethodProbes.Marker.Basic

/-!
# Entry declarations

The entry markers of a method declare how it is tracked.  Their tags are read before any of them
counts, so a marker with one bad tag declares nothing.
-/
namespace MethodProbes

structure Declaration where
  timed : Bool
  level : Option Interval
  sampler : Option Sampler
  mean : Option Nat
  deriving DecidableEq

/-- Means are positive numbers of 32 bits. -/
def maxMean : Nat := 4294967295

def parseMean (s : String) : Except MarkerError Nat :=
  match Text.int64? (Text.trim s.toList) with
  | none => .error (.invalidInteger TagName.mean.key s)
  | some n => if 1 ≤ n ∧ n ≤ maxMean then .ok n.toNat else .error (.invalidMean n)

def parseOptional {α : Type} (parse : String → Except MarkerError α) :
    Option String → Except MarkerError (Option α)
  | none => .ok none
  | some s => (parse s).map some

/-- Reads level, sampler and mean in this order; the first bad one is the error.  An empty level
is none at all, and a mean without a sampler is read although it does not count. -/
def Declaration.ofMarker (m : Marker) : Except MarkerError Declaration := do
  let level ← parseOptional Interval.parse ((m.tag? .level).filter (· ≠ ""))
  let sampler ← parseOptional Sampler.parseChoice (m.tag? .sampler)
  let mean ← parseOptional parseMean (m.tag? .mean)
  return { timed := m.hasTag .timed, level, sampler := sampler.join, mean }

end MethodProbes
