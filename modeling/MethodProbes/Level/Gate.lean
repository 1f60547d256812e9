import MethodProbes.Level.Complement

/-!
# Level gates

A gate skips the code behind it at the levels that no declared interval contains.  It is planned as
a list of ranges to skip, each tested by at most two comparisons.
-/
namespace MethodProbes

/-- Levels to skip; a missing bound leaves that side open. -/
structure SkipRange where
  lower : Option Int32
  upper : Option Int32
  deriving DecidableEq

/-- One test of a gate. -/
inductive Check where
  /-- A level below the bound is not in this range: go on with the next one. -/
  | nextIfBelow (bound : Int32)
  /-- A level up to the bound is in this range: skip. -/
  | skipIfAtMost (bound : Int32)
  /-- Every level that comes here is in this range. -/
  | skip
  deriving DecidableEq

def Check.text : Check → String
  | nextIfBelow bound => s!"level < {bound.toInt} -> next"
  | skipIfAtMost bound => s!"level <= {bound.toInt} -> skip"
  | skip => "-> skip"

namespace SkipRange

def ofInterval (i : Interval) : SkipRange where
  lower := if i.lo = Int32.minValue then none else some i.lo
  upper := if i.hi = Int32.maxValue then none else some i.hi

/-- The tests of a range, in the order in which they are made. -/
def checks (r : SkipRange) : List Check :=
  (r.lower.map Check.nextIfBelow).toList ++ [r.upper.elim .skip .skipIfAtMost]

def comparesLevel (r : SkipRange) : Bool := r.lower.isSome || r.upper.isSome

end SkipRange

inductive Gate where
  /-- The code behind the gate always runs. -/
  | openGate
  /-- The code is skipped at the levels of these ranges. -/
  | skipping (ranges : List SkipRange)
  deriving DecidableEq

namespace Gate

/-- The gate for the declared intervals.  Levels are never negative, so a gate that would skip the
negative ones alone is open, as is a gate with no declaration. -/
def plan (is : List Interval) : Gate :=
  if is.isEmpty then openGate
  else match Interval.complement is with
    | [] => openGate
    | [g] => if g = .atMost (-1) then openGate else skipping [.ofInterval g]
    | gs => skipping (gs.map .ofInterval)

def isOpen (g : Gate) : Bool := g == openGate

def ranges : Gate → List SkipRange
  | openGate => []
  | skipping rs => rs

@[simp] theorem plan_nil : plan [] = openGate := rfl

end Gate

end MethodProbes
