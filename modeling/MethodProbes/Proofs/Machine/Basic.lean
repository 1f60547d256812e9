import Mathlib.Logic.Relation
import MethodProbes.Code.Insn
import MethodProbes.Proofs.Machine.Memory

/-!
# The stack machine

A machine runs a list of instructions from its first one on.  What the global level is and what
calls return is up to the world, which may answer differently each time it is asked.  The machine
keeps the history of executed instructions, so a property of a run is a property of its last state.
-/
namespace MethodProbes

/-- An executed instruction, with the values that it popped and pushed, the top one first. -/
structure Entry where
  index : Nat
  insn : Insn
  popped : List Const
  pushed : List Const
  deriving DecidableEq

/-- The executed instructions, the latest first. -/
abbrev History := List Entry

/-- What the world answers after a given history.  As no two moments of a run have the same
history, the answers of a run may be any sequence of values. -/
structure World where
  level : History → Int32
  int : History → Int32
  long : History → Int64

def World.answer (w : World) (h : History) : ValueType → Const
  | .long => .long (w.long h)
  | .int | .bool => .int (w.int h)

def Cond.holds : Cond → List Const → Bool
  | .always, _ => true
  | .ifZero, [.int v] => v = 0
  | .ifNegative, [.int v] => v < 0
  | .ifNonPositive, [.int v] => v ≤ 0
  | .ifLess, [.int b, .int a] => a < b
  | .ifLessOrEqual, [.int b, .int a] => a ≤ b
  | _, _ => false

namespace Insn

def operands : Insn → Nat
  | push _ | load _ _ | readLevel _ | label _ | frame _ => 0
  | store _ _ | dup _ | longToInt => 1
  | sub _ => 2
  | invoke f => f.params.length
  | jump c _ => c.operands

def results? (w : World) (h : History) (m : Memory) : Insn → List Const → Option (List Const)
  | push c, [] => some [c]
  | load ty s, [] => some [m.read ty s]
  | store ty _, [c] => if c.type = ty.carrier then some [] else none
  | dup ty, [c] => if c.type = ty.carrier then some [c, c] else none
  | longToInt, [.long v] => some [.int v.toInt32]
  | sub .long, [.long b, .long a] => some [.long (a - b)]
  | sub .int, [.int b, .int a] => some [.int (a - b)]
  | readLevel _, [] => some [.int (w.level h)]
  | invoke f, cs =>
    if cs.reverse.map Const.type = f.params.map ValueType.carrier then
      some (f.ret.map (w.answer h)).toList
    else none
  | jump c _, cs =>
    if cs.map Const.type = List.replicate c.operands .int then some [] else none
  | label _, [] | frame _, [] => some []
  | _, _ => none

def storing (m : Memory) : Insn → List Const → Memory
  | store _ s, [c] => m.write s c
  | _, _ => m

def leap? : Insn → List Const → Option Label
  | jump c l, cs => if c.holds cs then some l else none
  | _, _ => none

end Insn

structure Machine where
  /-- The index of the next instruction. -/
  pc : Nat
  stack : List Const
  memory : Memory
  history : History
  /-- The label that a jump has left for. -/
  going : Option Label

namespace Machine

def start (m : Memory) : Machine := ⟨0, [], m, [], none⟩

/-- Executes an instruction and goes on to the next one, or leaves for a label. -/
def fire (w : World) (i : Insn) (s : Machine) : Option Machine :=
  let popped := s.stack.take i.operands
  (i.results? w s.history s.memory popped).map fun pushed =>
    { pc := s.pc + 1
      stack := pushed ++ s.stack.drop i.operands
      memory := i.storing s.memory popped
      history := ⟨s.pc, i, popped, pushed⟩ :: s.history
      going := i.leap? popped }

/-- Arrives where a label is placed in the code.  If it is placed nowhere the run ends, still on
its way there. -/
def land (code : List Insn) (s : Machine) : Machine :=
  match s.going with
  | none => s
  | some l =>
    { s with
      pc := code.idxOf (.label l)
      going := if .label l ∈ code then none else some l }

def step? (code : List Insn) (w : World) (s : Machine) : Option Machine :=
  code[s.pc]?.bind fun i => (s.fire w i).map (land code)

/-- One state follows another after some number of steps. -/
def Reaches (code : List Insn) (w : World) : Machine → Machine → Prop :=
  Relation.ReflTransGen fun s t => s.step? code w = some t

/-- A run is over when no instruction is left. -/
def Over (code : List Insn) (s : Machine) : Prop := s.pc = code.length

@[simp] theorem going_start (m : Memory) : (start m).going = none := rfl

@[simp] theorem history_start (m : Memory) : (start m).history = [] := rfl

theorem fire_eq_some {w : World} {i : Insn} {s t : Machine} (h : s.fire w i = some t) :
    ∃ pushed, i.results? w s.history s.memory (s.stack.take i.operands) = some pushed ∧
      t = ⟨s.pc + 1, pushed ++ s.stack.drop i.operands,
        i.storing s.memory (s.stack.take i.operands),
        ⟨s.pc, i, s.stack.take i.operands, pushed⟩ :: s.history,
        i.leap? (s.stack.take i.operands)⟩ := by
  obtain ⟨pushed, hp, rfl⟩ := Option.map_eq_some_iff.1 h
  exact ⟨pushed, hp, rfl⟩

theorem eq_jump_of_leap? {i : Insn} {cs : List Const} {l : Label} (h : i.leap? cs = some l) :
    ∃ c, i = .jump c l ∧ c.holds cs = true := by
  cases i with
  | jump c k =>
    obtain ⟨hc, rfl⟩ : c.holds cs = true ∧ k = l := by simpa [Insn.leap?] using h
    exact ⟨c, rfl, hc⟩
  | _ => cases h

end Machine

end MethodProbes
