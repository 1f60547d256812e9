import MethodProbes.Expansion.Step
import MethodProbes.Level.Gate

/-!
# Gate code

A gate reads the global level at its first comparison in a cycle and keeps it in a variable, so all
gates of a cycle decide alike.  Each range has a label behind its tests, where the next range starts.
-/
namespace MethodProbes.Gate

def pushLevel (field : String) (bound : Bool) : List Step :=
  if bound then [.load .level]
  else [.emit (.readLevel field), .emit (.dup .int), .store .level]

/-- Jumps if the level on the stack compares with the bound; zero needs no operand of its own. -/
def compare (bound : Int32) (withZero withOther : Cond) (target : Label) : List Step :=
  if bound = 0 then [.emit (.jump withZero target)]
  else [.emit (.push (.int bound)), .emit (.jump withOther target)]

/-- The tests of one range, in a state where the level is bound or not. -/
def checkSteps (field : String) (skip next : Label) : Bool → List Check → List Step
  | _, [] => []
  | bound, .nextIfBelow n :: cs =>
    pushLevel field bound ++ compare n .ifNegative .ifLess next ++
      checkSteps field skip next true cs
  | bound, .skipIfAtMost n :: cs =>
    pushLevel field bound ++ compare n .ifNonPositive .ifLessOrEqual skip ++
      checkSteps field skip next true cs
  | bound, .skip :: cs =>
    .emit (.jump .always skip) :: checkSteps field skip next bound cs

/-- The ranges in order; the label behind the first one is number `n`. -/
def rangeSteps (field : String) (skip : Label) : Bool → Nat → List SkipRange → List Step
  | _, _, [] => []
  | bound, n, r :: rs =>
    .newLabel :: checkSteps field skip ⟨n⟩ bound r.checks ++ Step.merge ⟨n⟩ ++
      rangeSteps field skip (bound || r.comparesLevel) (n + 1) rs

end MethodProbes.Gate
