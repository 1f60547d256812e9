import MethodProbes.Marker.Error
import MethodProbes.SortedMap
import MethodProbes.Text.Blank
import MethodProbes.Text.Numeral
import MethodProbes.Tracking.Sampler

/-!
# Markers

A marker stands in a method body where probe code goes.  Its tags are words with a value, which is
empty for a mere flag.
-/
namespace MethodProbes

inductive MarkerKind where
  /-- Takes the entry time, decides the sample, or both. -/
  | entry
  /-- Branches on the sample and computes the duration. -/
  | test
  /-- Where a test goes if the invocation is not sampled. -/
  | elseBranch
  /-- Pushes the duration. -/
  | duration
  /-- Tells the adaptive sampler about the exit. -/
  | exit
  /-- Starts a new cycle of entry, test and exit. -/
  | reset
  deriving DecidableEq, Repr

namespace MarkerKind

def all : List MarkerKind := [entry, test, elseBranch, duration, exit, reset]

def name : MarkerKind → String
  | entry => "entry"
  | test => "test"
  | elseBranch => "else"
  | duration => "duration"
  | exit => "exit"
  | reset => "reset"

/-- The name of the template that the marker is spliced in as. -/
def templateName : MarkerKind → String
  | entry => "mc$entry"
  | test => "mc$test"
  | elseBranch => "mc$else"
  | duration => "mc$dur"
  | exit => "mc$exit"
  | reset => "mc$reset"

/-- The signature of the spliced code: only `duration` leaves a value. -/
def descriptor : MarkerKind → String
  | duration => "()J"
  | _ => "()V"

def ofName? (s : String) : Option MarkerKind :=
  all.find? fun k => k.name == s || k.templateName == s

@[simp] theorem ofName?_name (k : MarkerKind) : ofName? k.name = some k := by
  cases k <;> decide

@[simp] theorem ofName?_templateName (k : MarkerKind) : ofName? k.templateName = some k := by
  cases k <;> decide

end MarkerKind

abbrev Tags := SortedMap String String

/-- The tags that probe code depends on; others are kept but say nothing. -/
inductive TagName where
  | timed | sampler | mean | methodId | level
  deriving DecidableEq, Repr

def TagName.key : TagName → String
  | timed => "timed"
  | sampler => "sampler"
  | mean => "mean"
  | methodId => "methodid"
  | level => "level"

structure Marker where
  kind : MarkerKind
  tags : Tags
  deriving DecidableEq

/-- Ids are pushed as integers of 32 bits. -/
def maxMethodId : Nat := 2147483647

def parseMethodId (s : String) : Except MarkerError Nat :=
  match Text.numeralIn? 0 maxMethodId (Text.trim s.toList) with
  | some n => .ok n.toNat
  | none => .error (.invalidInteger TagName.methodId.key s)

namespace Marker

def ofKind (kind : MarkerKind) : Marker := ⟨kind, .empty⟩

/-- Sets a tag; an earlier value is lost. -/
def withTag (m : Marker) (key value : String) : Marker :=
  { m with tags := m.tags.insert key value }

def withFlag (m : Marker) (key : String) : Marker := m.withTag key ""

def withSampler (m : Marker) (s : Option Sampler) : Marker :=
  m.withTag TagName.sampler.key (Sampler.choiceName s)

def withMean (m : Marker) (n : Nat) : Marker :=
  m.withTag TagName.mean.key (toString n)

def withMethodId (m : Marker) (n : Nat) : Marker :=
  m.withTag TagName.methodId.key (toString n)

def tag? (m : Marker) (t : TagName) : Option String := m.tags.get? t.key

def hasTag (m : Marker) (t : TagName) : Bool := m.tags.contains t.key

/-- The method id that the marker itself names. -/
def methodId? (m : Marker) : Except MarkerError (Option Nat) :=
  match m.tag? .methodId with
  | some s => (parseMethodId s).map some
  | none => .ok none

end Marker

end MethodProbes
