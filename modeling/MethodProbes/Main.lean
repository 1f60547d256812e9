import MethodProbes.CommandLine.Run

/-!
# The command-line program
-/
namespace MethodProbes.CommandLine

def readContent? (file : String) : IO (Option ByteArray) :=
  try
    return some (← IO.FS.readBinFile file)
  catch _ => return none

end MethodProbes.CommandLine

open MethodProbes.CommandLine in
def main (args : List String) : IO UInt32 := do
  let answer ← match parse args with
    | .error stop => pure stop.answer
    | .ok command =>
      let content ← match command.file? with
        | some file => readContent? file
        | none => pure none
      pure (command.run content)
  IO.print answer.output
  return answer.exit
