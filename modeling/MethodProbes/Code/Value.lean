/-!
# Values, slots and labels

The operand stack holds integers of 32 and of 64 bits; a flag travels as an integer.  Locals live in
numbered slots, and a 64-bit value fills two of them.  Labels are numbered as they are taken, but a
label is known by 32 bits of its number only.
-/
namespace MethodProbes

inductive ValueType where
  | int | long | bool
  deriving DecidableEq, Repr

namespace ValueType

def all : List ValueType := [int, long, bool]

def name : ValueType → String
  | int => "int"
  | long => "long"
  | bool => "bool"

def descriptor : ValueType → Char
  | int => 'I'
  | long => 'J'
  | bool => 'Z'

/-- Number of consecutive slots a value fills. -/
def width : ValueType → Nat
  | long => 2
  | int | bool => 1

def isWide (ty : ValueType) : Bool := ty.width == 2

theorem width_pos (ty : ValueType) : 0 < ty.width := by cases ty <;> decide

theorem width_le_two (ty : ValueType) : ty.width ≤ 2 := by cases ty <;> decide

end ValueType

/-- A local, named by the first index it fills. -/
structure Slot where
  index : Nat
  deriving DecidableEq, Repr

def Slot.text (s : Slot) : String := s!"${s.index}"

/-- A jump target, numbered in the order in which labels are taken. -/
structure Label where
  id : Nat
  deriving DecidableEq, Repr

/-- Number of labels that can be told apart. -/
def labelSpace : Nat := 4294967296

/-- The part of its number that a label is known by. -/
def Label.word (l : Label) : UInt32 := .ofNat l.id

def Label.text (l : Label) : String := s!"L{l.word.toNat}"

inductive Const where
  | int (v : Int32)
  | long (v : Int64)
  deriving DecidableEq

namespace Const

def type : Const → ValueType
  | int _ => .int
  | long _ => .long

def isZero : Const → Bool
  | int v => v == 0
  | long v => v == 0

/-- The zero that a slot of the type is cleared with; a flag is cleared as an integer. -/
def zero : ValueType → Const
  | .long => long 0
  | .int | .bool => int 0

def text : Const → String
  | int v => s!"{v.toInt}"
  | long v => s!"{v.toInt}L"

@[simp] theorem isZero_zero (ty : ValueType) : (zero ty).isZero = true := by cases ty <;> rfl

end Const

end MethodProbes
