import MethodProbes.Level.Interval
import MethodProbes.Marker.Error
import MethodProbes.Text.Blank
import MethodProbes.Text.Numeral

/-!
# Level expressions

An interval is written `[a,b]` with either bound left out at will, or as a numeral after one of the
signs `>=`, `<=`, `>`, `<` and `=`.  A numeral alone means that level and above.
-/
namespace MethodProbes.Interval
open Text

/-- A bound in brackets; a missing one leaves the side open. -/
def bound? (openEnd : Int32) (cs : List Char) : Option Int32 :=
  if cs.isEmpty then some openEnd else int32? cs

def bracketed? : List Char → Option (List Char)
  | '[' :: cs => if cs.getLast? = some ']' then some cs.dropLast else none
  | _ => none

def ofBounds? (body : List Char) : Option Interval := do
  let (a, rest) := splitFirst ',' body
  let lo ← bound? Int32.minValue a
  let hi ← bound? Int32.maxValue (← rest)
  if lo ≤ hi then some ⟨lo, hi⟩ else none

def ofComparison? : List Char → Option Interval
  | '>' :: '=' :: n => (int32? n).map atLeast
  | '<' :: '=' :: n => (int32? n).map atMost
  | '>' :: n => (int32? n).map above
  | '<' :: n => (int32? n).map below
  | '=' :: n => (int32? n).map exact
  | n => (int32? n).map atLeast

/-- Reads an expression without blanks. -/
def ofCompact? (cs : List Char) : Option Interval :=
  match bracketed? cs with
  | some body => ofBounds? body
  | none => ofComparison? cs

/-- Reads an expression; blanks may stand anywhere, even within a numeral. -/
def parse (s : String) : Except MarkerError Interval :=
  match ofCompact? (compact s.toList) with
  | some i => .ok i
  | none => .error (.invalidLevel s)

theorem parse_eq_ok_iff {s : String} {i : Interval} :
    parse s = .ok i ↔ ofCompact? (compact s.toList) = some i := by
  cases h : ofCompact? (compact s.toList) <;> simp [parse, h]

theorem parse_eq_error_iff {s : String} {e : MarkerError} :
    parse s = .error e ↔ ofCompact? (compact s.toList) = none ∧ e = .invalidLevel s := by
  cases h : ofCompact? (compact s.toList) <;> simp [parse, h, eq_comm]

end MethodProbes.Interval
