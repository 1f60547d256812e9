import MethodProbes.Method.Basic

/-!
# Marker scripts

A script lists methods line by line: a `method` line with name and id, then a line for each marker
with its tags, `key=value` or a mere flag.  A `#` starts a comment.
-/
namespace MethodProbes.Script

inductive Defect where
  /-- A `method` line is not the keyword, a name and an id. -/
  | headerShape
  | invalidId (id : String)
  | unknownMarker (word : String)
  | markerBeforeMethod (word : String)
  deriving DecidableEq, Repr

def Defect.message : Defect → String
  | headerShape => "expected `method <name> <id>`"
  | invalidId id => "invalid method id " ++ Text.quoted id
  | unknownMarker word => "unknown marker: " ++ word
  | markerBeforeMethod word => s!"marker `{word}` before any method"

structure Error where
  /-- The number of the line, counted from one. -/
  line : Nat
  defect : Defect
  deriving DecidableEq, Repr

def Error.message (e : Error) : String := s!"line {e.line}: " ++ e.defect.message

inductive Line where
  | blank
  | header (name : String) (methodId : Nat)
  | marker (m : Marker)
  deriving DecidableEq

/-- Adds a tag word to a marker; the first `=` separates key and value. -/
def addTag (m : Marker) (word : List Char) : Marker :=
  let (key, value) := Text.splitFirst '=' word
  m.withTag (.ofList key) (.ofList (value.getD []))

/-- Reads the words of a line.  A marker line must come after some `method` line. -/
def Line.ofWords (inMethod : Bool) : List (List Char) → Except Defect Line
  | [] => .ok .blank
  | head :: rest =>
    let head := String.ofList head
    if head = "method" then
      match rest with
      | [name, id] =>
        match parseMethodId (.ofList id) with
        | .ok n => .ok (.header (.ofList name) n)
        | .error _ => .error (.invalidId (.ofList id))
      | _ => .error .headerShape
    else
      match MarkerKind.ofName? head with
      | none => .error (.unknownMarker head)
      | some kind =>
        if inMethod then .ok (.marker (rest.foldl addTag (.ofKind kind)))
        else .error (.markerBeforeMethod head)

/-- The words of a line in front of its comment. -/
def lineWords (line : List Char) : List (List Char) :=
  Text.words (line.takeWhile (· != '#'))

/-- Reads lines, of which the first has number `n`; the first bad one is the error. -/
def readLines (n : Nat) (inMethod : Bool) : List (List Char) → Except Error (List Line)
  | [] => .ok []
  | l :: ls =>
    match Line.ofWords inMethod (lineWords l) with
    | .error d => .error ⟨n, d⟩
    | .ok line =>
      (readLines (n + 1) (inMethod || line matches .header ..) ls).map (line :: ·)

/-- The markers before the first `method` line, and the methods from there on. -/
def group : List Line → List Marker × List Body
  | [] => ([], [])
  | .blank :: ls => group ls
  | .header name id :: ls =>
    let (ms, bs) := group ls
    ([], ⟨name, id, ms⟩ :: bs)
  | .marker m :: ls =>
    let (ms, bs) := group ls
    (m :: ms, bs)

def parse (s : String) : Except Error (List Body) :=
  (readLines 1 false (s.toList.splitOn '\n')).map fun ls => (group ls).2

inductive LoadError where
  /-- There is no such file, or it is not text in UTF-8. -/
  | unreadable
  | script (e : Error)
  deriving DecidableEq

def load (content : Option ByteArray) : Except LoadError (List Body) :=
  match content.bind String.fromUTF8? with
  | none => .error .unreadable
  | some s => (parse s).mapError .script

end MethodProbes.Script
