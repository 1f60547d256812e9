import MethodProbes.Code.Insn

/-!
# The code buffer

A buffer collects instructions in order.  It hands out slots from the first free one upward and numbers
labels as they are taken, and it remembers where each label was placed last.  A label is known by 32 bits
of its number, and nobody asks whether these are free: in `inWords`, the buffer as it is known, labels
begin with zero again after `labelSpace` of them.
-/
namespace MethodProbes

/-- Slot indices lie below this bound. -/
def slotSpace : Nat := 65536

structure SlotsExhausted where
  index : Nat
  ty : ValueType
  deriving DecidableEq, Repr

structure Buffer where
  insns : Array Insn
  nextSlot : Nat
  /-- The slots handed out, in order. -/
  slots : Array (Slot × ValueType)
  /-- How many labels were taken. -/
  nextLabel : Nat
  /-- Where labels were placed, the latest placement first. -/
  placed : List (Label × Nat)
  deriving DecidableEq

namespace Buffer

/-- The empty buffer; slots below `firstSlot` belong to the method around the probes. -/
def empty (firstSlot : UInt16) : Buffer :=
  ⟨#[], firstSlot.toNat, #[], 0, []⟩

def code (b : Buffer) : List Insn := b.insns.toList

/-- Appends an instruction; a label's position is noted. -/
def emit (b : Buffer) (i : Insn) : Buffer :=
  let placed := match i with
    | .label l => (l, b.insns.size) :: b.placed
    | _ => b.placed
  { b with insns := b.insns.push i, placed }

/-- Hands out the next free slot. -/
def reserve (b : Buffer) (ty : ValueType) : Buffer :=
  { b with
    nextSlot := b.nextSlot + ty.width
    slots := b.slots.push (⟨b.nextSlot⟩, ty) }

/-- Stores into the next free slot.  When the slot space ends before the value does, the buffer
stays as it is, and a narrower value may still fit. -/
def storeNew (b : Buffer) (ty : ValueType) : Except SlotsExhausted Slot × Buffer :=
  if b.nextSlot + ty.width ≤ slotSpace then
    let s : Slot := ⟨b.nextSlot⟩
    (.ok s, (b.reserve ty).emit (.store ty s))
  else (.error ⟨b.nextSlot, ty⟩, b)

/-- Stores into a slot if one is given, and into a new one otherwise. -/
def storeInto (b : Buffer) (ty : ValueType) :
    Option Slot → Except SlotsExhausted Slot × Buffer
  | some s => (.ok s, b.emit (.store ty s))
  | none => b.storeNew ty

def newLabel (b : Buffer) : Label × Buffer :=
  (⟨b.nextLabel⟩, { b with nextLabel := b.nextLabel + 1 })

/-- Places a label where paths meet. -/
def merge (b : Buffer) (l : Label) : Buffer :=
  (b.emit (.label l)).emit (.frame l)

def slotType? (b : Buffer) (s : Slot) : Option ValueType :=
  b.slots.toList.lookup s

/-- The index of the latest placement of a label. -/
def position? (b : Buffer) (l : Label) : Option Nat :=
  b.placed.lookup l

end Buffer

def Label.insertSorted (l : Label) : List Label → List Label
  | [] => [l]
  | m :: ms =>
    if l.id < m.id then l :: m :: ms
    else if l = m then m :: ms
    else m :: insertSorted l ms

namespace Buffer

/-- The labels that some jump targets and no instruction places, in increasing order. -/
def dangling (b : Buffer) : List Label :=
  ((b.code.filterMap Insn.target?).filter fun l => (b.position? l).isNone).foldr
    Label.insertSorted []

/-- The buffer with each label under the name that it is known by, also the one that is taken next. -/
def inWords (b : Buffer) : Buffer :=
  { b with
    insns := (b.code.map (Insn.rename .words)).toArray
    nextLabel := Renaming.words.label b.nextLabel
    placed := b.placed.map fun p => (p.1.rename Renaming.words.label, p.2) }

def listing (b : Buffer) : String := MethodProbes.listing b.code

@[simp] theorem code_empty (n : UInt16) : (empty n).code = [] := rfl

@[simp] theorem code_emit (b : Buffer) (i : Insn) : (b.emit i).code = b.code ++ [i] := by
  simp [code, emit]

@[simp] theorem nextSlot_emit (b : Buffer) (i : Insn) : (b.emit i).nextSlot = b.nextSlot := rfl

@[simp] theorem slots_emit (b : Buffer) (i : Insn) : (b.emit i).slots = b.slots := rfl

@[simp] theorem nextLabel_emit (b : Buffer) (i : Insn) : (b.emit i).nextLabel = b.nextLabel := rfl

@[simp] theorem code_merge (b : Buffer) (l : Label) :
    (b.merge l).code = b.code ++ [.label l, .frame l] := by
  simp [merge]

@[simp] theorem code_reserve (b : Buffer) (ty : ValueType) : (b.reserve ty).code = b.code := rfl

theorem code_inWords (b : Buffer) : b.inWords.code = b.code.map (Insn.rename .words) := rfl

/-- The word of the next label goes up by one, and from the greatest one to zero. -/
theorem nextLabel_newLabel_inWords (b : Buffer) :
    b.newLabel.2.inWords.nextLabel = (UInt32.ofNat b.inWords.nextLabel + 1).toNat := by
  have hword (n : Nat) : UInt32.ofNat (Renaming.words.label n) = UInt32.ofNat n :=
    UInt32.ofNat_toNat
  change Renaming.words.label (b.nextLabel + 1) = _
  rw [inWords, hword, ← UInt32.ofNat_one, ← UInt32.ofNat_add]
  rfl

theorem storeNew_of_le {b : Buffer} {ty : ValueType} (h : b.nextSlot + ty.width ≤ slotSpace) :
    b.storeNew ty = (.ok ⟨b.nextSlot⟩, (b.reserve ty).emit (.store ty ⟨b.nextSlot⟩)) := by
  simp [storeNew, h]

theorem storeNew_of_lt {b : Buffer} {ty : ValueType} (h : slotSpace < b.nextSlot + ty.width) :
    b.storeNew ty = (.error ⟨b.nextSlot, ty⟩, b) := by
  simp [storeNew, Nat.not_le.2 h]

end Buffer

end MethodProbes
