/-!
# Decimal numerals

Every number a script or a command line gives is one optional sign followed by ASCII digits.
Nothing else is read: no separators, no blanks, no digits of other scripts.
-/
namespace MethodProbes.Text

def digits? (cs : List Char) : Option Nat :=
  if !cs.isEmpty && cs.all Char.isDigit then
    some (cs.foldl (fun n c => 10 * n + (c.toNat - 48)) 0)
  else none

def numeral? : List Char → Option Int
  | '+' :: cs => (digits? cs).map Int.ofNat
  | '-' :: cs => (digits? cs).map fun n => -Int.ofNat n
  | cs => (digits? cs).map Int.ofNat

/-- The value of a numeral if it lies in `lo ..= hi`. -/
def numeralIn? (lo hi : Int) (cs : List Char) : Option Int :=
  (numeral? cs).filter fun n => lo ≤ n && n ≤ hi

def int32? (cs : List Char) : Option Int32 :=
  (numeralIn? Int32.minValue.toInt Int32.maxValue.toInt cs).map Int32.ofInt

def int64? (cs : List Char) : Option Int :=
  numeralIn? Int64.minValue.toInt Int64.maxValue.toInt cs

@[simp] theorem digits?_nil : digits? [] = none := rfl

theorem numeralIn?_eq_some_iff {lo hi n : Int} {cs : List Char} :
    numeralIn? lo hi cs = some n ↔ numeral? cs = some n ∧ lo ≤ n ∧ n ≤ hi := by
  simp [numeralIn?, Option.filter_eq_some_iff]

end MethodProbes.Text
