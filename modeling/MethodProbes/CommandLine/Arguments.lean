import MethodProbes.Method.Batch
import MethodProbes.Text.Numeral

/-!
# Command-line arguments

Arguments are read from left to right, and the first one that cannot be read ends the reading, as
does a request for help or for the version.  Only then it is checked that nothing is missing and
that `-v` and `-s` do not stand together on one side of the subcommand.
-/
namespace MethodProbes.CommandLine

/-- Why no command is run. -/
inductive Stop where
  | version
  | help
  /-- The arguments describe no command. -/
  | usage
  deriving DecidableEq, Repr

/-- The shape of one argument. -/
inductive Token where
  /-- `--`: the arguments behind it are no options. -/
  | separator
  | long (name : String) (value : Option String)
  /-- Short flags behind one dash. -/
  | short (flags : List Char)
  | word (s : String)
  deriving DecidableEq, Repr

/-- A dash alone is a word. -/
def Token.ofArgument (s : String) : Token :=
  match s.toList with
  | ['-', '-'] => separator
  | '-' :: '-' :: cs =>
    let (name, value) := Text.splitFirst '=' cs
    long (.ofList name) (value.map .ofList)
  | '-' :: c :: cs => short (c :: cs)
  | _ => word s

/-- The verbosity asked for on one side of the subcommand. -/
structure Flags where
  verbose : Bool := false
  silent : Bool := false
  deriving DecidableEq, Repr

namespace Flags

/-- Takes a short flag into account; none may be repeated.  The version is told at top level only. -/
def take (top : Bool) (f : Flags) : Char → Except Stop Flags
  | 'v' => if f.verbose then .error .usage else .ok { f with verbose := true }
  | 's' => if f.silent then .error .usage else .ok { f with silent := true }
  | 'h' => .error .help
  | 'V' => .error (if top then .version else .usage)
  | _ => .error .usage

def takeCluster (top : Bool) (f : Flags) (cs : List Char) : Except Stop Flags :=
  cs.foldlM (take top) f

def takeLong (top : Bool) (f : Flags) (name : String) (value : Option String) :
    Except Stop Flags :=
  if value.isSome then .error .usage
  else match name with
    | "verbose" => f.take top 'v'
    | "silent" => f.take top 's'
    | "help" => f.take top 'h'
    | "version" => f.take top 'V'
    | _ => .error .usage

def check (f : Flags) : Except Stop Unit :=
  if f.verbose && f.silent then .error .usage else .ok ()

end Flags

/-- The arguments of `expand`; what is missing has its default. -/
structure ExpandArguments where
  flags : Flags := {}
  file : Option String := none
  defaultMean : Option Nat := none
  firstSlot : Option UInt16 := none
  levelField : Option String := none
  sequential : Bool := false
  deriving DecidableEq, Repr

namespace ExpandArguments

inductive Key where
  | defaultMean | firstSlot | levelField
  deriving DecidableEq, Repr

def Key.ofName? : String → Option Key
  | "default-mean" => some .defaultMean
  | "first-slot" => some .firstSlot
  | "level-field" => some .levelField
  | _ => none

def once {α : Type} (old new : Option α) : Except Stop (Option α) :=
  match old, new with
  | none, some v => .ok (some v)
  | _, _ => .error .usage

/-- Sets an option.  Means are `1 ..= 4294967295` and slots `0 ..= 65535`. -/
def set (a : ExpandArguments) (key : Key) (value : String) : Except Stop ExpandArguments :=
  match key with
  | .defaultMean => do
    let n := (Text.numeralIn? 1 maxMean value.toList).map Int.toNat
    return { a with defaultMean := ← once a.defaultMean n }
  | .firstSlot => do
    let n := (Text.numeralIn? 0 (slotSpace - 1) value.toList).map fun n => n.toNat.toUInt16
    return { a with firstSlot := ← once a.firstSlot n }
  | .levelField => do
    return { a with levelField := ← once a.levelField (some value) }

def addFile (a : ExpandArguments) (s : String) : Except Stop ExpandArguments :=
  if s.isEmpty then .error .usage
  else do return { a with file := ← once a.file (some s) }

def addSequential (a : ExpandArguments) (value : Option String) : Except Stop ExpandArguments :=
  if value.isSome || a.sequential then .error .usage else .ok { a with sequential := true }

/-- A value behind an option must not look like an option itself. -/
def parse (a : ExpandArguments) : List String → Except Stop ExpandArguments
  | [] => .ok a
  | arg :: args =>
    match Token.ofArgument arg with
    | .separator => args.foldlM addFile a
    | .word s => do parse (← a.addFile s) args
    | .short cs => do parse { a with flags := ← a.flags.takeCluster false cs } args
    | .long name value =>
      match Key.ofName? name, value with
      | some key, some v => do parse (← a.set key v) args
      | some key, none =>
        match args with
        | [] => .error .usage
        | next :: rest =>
          match Token.ofArgument next with
          | .word v => do parse (← a.set key v) rest
          | _ => .error .usage
      | none, _ =>
        if name = "sequential" then do parse (← a.addSequential value) args
        else do parse { a with flags := ← a.flags.takeLong false name value } args

end ExpandArguments

def parseLevels (f : Flags) : List String → Except Stop (Flags × List String)
  | [] => .ok (f, [])
  | arg :: args =>
    match Token.ofArgument arg with
    | .separator => .ok (f, args)
    | .word s => do
      let (f, exprs) ← parseLevels f args
      return (f, s :: exprs)
    | .short cs => do parseLevels (← f.takeCluster false cs) args
    | .long name value => do parseLevels (← f.takeLong false name value) args

inductive Command where
  /-- Expand the markers of a script file. -/
  | expand (file : String) (settings : BatchSettings)
  /-- Show the gate for level expressions. -/
  | levels (exprs : List String)
  deriving DecidableEq

def Command.ofExpandArguments (a : ExpandArguments) : Except Stop Command := do
  a.flags.check
  let some file := a.file | .error .usage
  let s : Settings := { levelField := a.levelField.getD ({} : Settings).levelField }
  return .expand file
    { s.withDefaultMean (a.defaultMean.getD s.defaultMean) with
      firstSlot := a.firstSlot.getD 0
      parallel := !a.sequential }

def Command.ofLevelsArguments (f : Flags) (exprs : List String) : Except Stop Command := do
  f.check
  if exprs.isEmpty then .error .usage else return .levels exprs

/-- Help is given on the program and on its subcommands. -/
def helpOn : List String → Stop
  | [] | ["expand"] | ["levels"] | ["help"] => .help
  | _ => .usage

/-- Reads the arguments up to the subcommand, and then those behind it. -/
def parseFrom (f : Flags) : List String → Except Stop Command
  | [] => .error .usage
  | arg :: args =>
    match Token.ofArgument arg with
    | .separator => .error .usage
    | .word "expand" => do
      let c ← Command.ofExpandArguments (← ExpandArguments.parse {} args)
      f.check
      return c
    | .word "levels" => do
      let (g, exprs) ← parseLevels {} args
      let c ← Command.ofLevelsArguments g exprs
      f.check
      return c
    | .word "help" => .error (helpOn args)
    | .word _ => .error .usage
    | .short cs => do parseFrom (← f.takeCluster true cs) args
    | .long name value => do parseFrom (← f.takeLong true name value) args

def parse (args : List String) : Except Stop Command := parseFrom {} args

end MethodProbes.CommandLine
