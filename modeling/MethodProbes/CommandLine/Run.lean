import MethodProbes.CommandLine.Arguments
import MethodProbes.Level.Expr
import MethodProbes.Script

/-!
# Running a command

A command answers with an exit code and the text for standard output.  One that fails prints
nothing there.
-/
namespace MethodProbes.CommandLine

structure Answer where
  exit : UInt32
  output : String
  deriving DecidableEq

def success (output : String) : Answer := ⟨0, output⟩

def failure : Answer := ⟨1, ""⟩

def usageText : String :=
  "Usage: mtrack [-v | -s] expand [--default-mean N] [--first-slot N] " ++
  "[--level-field NAME] [--sequential] FILE\n" ++
  "       mtrack [-v | -s] levels EXPR...\n"

def Stop.answer : Stop → Answer
  | version => success "mtrack 0.1.0\n"
  | help => success usageText
  | usage => ⟨2, ""⟩

def joinIntervals (is : List Interval) : String :=
  if is.isEmpty then "none" else ", ".intercalate (is.map Interval.text)

/-- The ranges of a gate, counted from one, with their tests. -/
def gateReport : Gate → String
  | .openGate => "gate:   open\n"
  | .skipping rs => String.join (rs.mapIdx fun i r =>
      s!"range {i + 1}: " ++ "; ".intercalate (r.checks.map Check.text) ++ "\n")

def levelsReport (is : List Interval) : String :=
  "levels: " ++ joinIntervals is ++ "\n" ++
  "skip:   " ++ joinIntervals (Interval.complement is) ++ "\n" ++
  gateReport (.plan is)

/-- The listing of each method with an empty line behind it, then the counters by id. -/
def expandReport (c : Counters) (ps : List ProbedMethod) : String :=
  String.join (ps.map fun p => p.listing ++ "\n") ++
  String.join (c.entries.map fun e => s!"counter {e.1} mean={e.2}\n")

namespace Command

def file? : Command → Option String
  | expand file _ => some file
  | levels _ => none

def run (content : Option ByteArray) : Command → Answer
  | expand _ settings =>
    match Script.load content with
    | .error _ => failure
    | .ok bodies =>
      match probeAll settings .empty bodies with
      | (c, .ok ps) => success (expandReport c ps)
      | (_, .error _) => failure
  | levels exprs =>
    match exprs.mapM Interval.parse with
    | .ok is => success (levelsReport is)
    | .error _ => failure

end Command

end MethodProbes.CommandLine
