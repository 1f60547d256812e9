import MethodProbes.Code.Value

/-!
# Instructions

Probe code is a list of instructions of a stack machine.  A label is an instruction of its own, and
a frame marks the point where paths that reach a label agree on the stack.
-/
namespace MethodProbes

/-- When a jump is taken.  The conditions on one operand compare the popped integer with zero; the
others pop `b`, then `a`, and compare `a` with `b`. -/
inductive Cond where
  | always | ifZero | ifNegative | ifNonPositive | ifLess | ifLessOrEqual
  deriving DecidableEq, Repr

namespace Cond

def all : List Cond := [always, ifZero, ifNegative, ifNonPositive, ifLess, ifLessOrEqual]

def operands : Cond → Nat
  | always => 0
  | ifZero | ifNegative | ifNonPositive => 1
  | ifLess | ifLessOrEqual => 2

def mnemonic : Cond → String
  | always => "goto"
  | ifZero => "ifeq"
  | ifNegative => "iflt"
  | ifNonPositive => "ifle"
  | ifLess => "if_icmplt"
  | ifLessOrEqual => "if_icmple"

end Cond

/-- A static function outside the method, called by its symbolic name and signature. -/
structure Callee where
  owner : String
  name : String
  params : List ValueType
  ret : Option ValueType
  deriving DecidableEq, Repr

namespace Callee

/-- The signature; `V` stands for no result. -/
def descriptor (f : Callee) : String :=
  String.ofList ('(' :: f.params.map ValueType.descriptor ++ [')', f.ret.elim 'V' ValueType.descriptor])

def text (f : Callee) : String := s!"{f.owner}.{f.name}{f.descriptor}"

end Callee

inductive Insn where
  /-- Pushes a constant. -/
  | push (c : Const)
  /-- Pushes the value of a slot. -/
  | load (ty : ValueType) (slot : Slot)
  /-- Pops into a slot. -/
  | store (ty : ValueType) (slot : Slot)
  /-- Pushes the top of the stack once more. -/
  | dup (ty : ValueType)
  /-- Replaces a long on top of the stack by its low 32 bits. -/
  | longToInt
  /-- Pops two values and pushes the lower one minus the upper one. -/
  | sub (ty : ValueType)
  /-- Pushes the global level. -/
  | readLevel (field : String)
  /-- Pops the arguments, calls, and pushes the result if there is one. -/
  | invoke (f : Callee)
  | jump (cond : Cond) (target : Label)
  | label (l : Label)
  | frame (l : Label)
  deriving DecidableEq

namespace Insn

def calls (i : Insn) (name : String) : Bool :=
  match i with
  | invoke f => f.name == name
  | _ => false

def target? : Insn → Option Label
  | jump _ l => some l
  | _ => none

def isConditionalJump : Insn → Bool
  | jump c _ => c != .always
  | _ => false

/-- The instruction as one line of a listing.  Labels stand at the margin. -/
def text : Insn → String
  | push c => s!"    push {c.text}"
  | load ty s => s!"    load.{ty.name} {s.text}"
  | store ty s => s!"    store.{ty.name} {s.text}"
  | dup ty => if ty.isWide then "    dup2" else "    dup"
  | longToInt => "    l2i"
  | sub ty => s!"    sub.{ty.name}"
  | readLevel field => s!"    level {field}"
  | invoke f => s!"    invoke {f.text}"
  | jump c l => s!"    {c.mnemonic} {l.text}"
  | label l => s!"{l.text}:"
  | frame l => s!"    ; frame {l.text}"

theorem target?_eq_some_iff {i : Insn} {l : Label} : i.target? = some l ↔ ∃ c, i = jump c l := by
  cases i <;> simp [target?]

end Insn

/-- New names for slots and labels. -/
structure Renaming where
  slot : Nat → Nat
  label : Nat → Nat

def Slot.rename (f : Nat → Nat) (s : Slot) : Slot := ⟨f s.index⟩

def Label.rename (f : Nat → Nat) (l : Label) : Label := ⟨f l.id⟩

namespace Renaming

/-- Slots keep their names, and a label is called by the part of its number that it is known by. -/
def words : Renaming := ⟨id, fun n => (Label.word ⟨n⟩).toNat⟩

theorem label_words (n : Nat) : words.label n = n % labelSpace := UInt32.toNat_ofNat'

/-- Reading a word again changes nothing. -/
@[simp] theorem label_words_words (n : Nat) : words.label (words.label n) = words.label n := by
  simp only [label_words, Nat.mod_mod]

theorem label_words_of_lt {n : Nat} (h : n < labelSpace) : words.label n = n := by
  rw [label_words, Nat.mod_eq_of_lt h]

end Renaming

def Insn.rename (r : Renaming) : Insn → Insn
  | load ty s => load ty (s.rename r.slot)
  | store ty s => store ty (s.rename r.slot)
  | jump c l => jump c (l.rename r.label)
  | label l => label (l.rename r.label)
  | frame l => frame (l.rename r.label)
  | i => i

def listing (is : List Insn) : String :=
  String.join (is.map fun i => i.text ++ "\n")

def countCalls (is : List Insn) (name : String) : Nat :=
  is.countP (·.calls name)

end MethodProbes
