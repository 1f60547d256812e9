import MethodProbes.Code.Buffer
import MethodProbes.Expansion.Cycle

/-!
# Expansion steps

The code of a marker is planned as a list of steps that name variables, not slots.  Taking a step
emits its instruction and finds the slot of its variable, allocating one for the first store.
-/
namespace MethodProbes

inductive Step where
  /-- Emits an instruction that uses no variable. -/
  | emit (i : Insn)
  /-- Emits a load of a variable. -/
  | load (v : Var)
  /-- Emits a store of a variable. -/
  | store (v : Var)
  /-- Takes the next label. -/
  | newLabel
  /-- Leaves an else target to be placed. -/
  | await (l : Label)
  /-- Notes that the else target is placed. -/
  | settle
  /-- Notes that the duration is stored. -/
  | measured
  /-- Starts a new cycle. -/
  | reset
  deriving DecidableEq

/-- Code written so far, and what it leaves for later markers. -/
structure Progress where
  buffer : Buffer
  cycle : Cycle
  deriving DecidableEq

namespace Step

/-- Takes one step.  Nothing changes if it needs a slot and there is none; a variable without a
slot has no value to load. -/
def take : Progress → Step → Option SlotsExhausted × Progress
  | ⟨b, c⟩, emit i => (none, ⟨b.emit i, c⟩)
  | ⟨b, c⟩, load v =>
    match c.slot? v with
    | some s => (none, ⟨b.emit (.load v.type s), c⟩)
    | none => (none, ⟨b, c⟩)
  | ⟨b, c⟩, store v =>
    match b.storeInto v.type (c.slot? v) with
    | (.ok s, b) => (none, ⟨b, c.bind v s⟩)
    | (.error e, b) => (some e, ⟨b, c⟩)
  | ⟨b, c⟩, newLabel => (none, ⟨b.newLabel.2, c⟩)
  | ⟨b, c⟩, await l => (none, ⟨b, { c with pendingElse := some l }⟩)
  | ⟨b, c⟩, settle => (none, ⟨b, { c with pendingElse := none }⟩)
  | ⟨b, c⟩, measured => (none, ⟨b, { c with measured := true }⟩)
  | ⟨b, c⟩, reset => (none, ⟨b, c.reset⟩)

/-- Takes steps in order up to the first that fails, whose failure is returned.  What the steps
before it did stays done. -/
def takeAll (p : Progress) : List Step → Option SlotsExhausted × Progress
  | [] => (none, p)
  | s :: ss =>
    match take p s with
    | (none, q) => takeAll q ss
    | (some e, q) => (some e, q)

def merge (l : Label) : List Step := [emit (.label l), emit (.frame l)]

@[simp] theorem takeAll_nil (p : Progress) : takeAll p [] = (none, p) := rfl

theorem takeAll_cons_none {p q : Progress} {s : Step} (h : take p s = (none, q))
    (ss : List Step) : takeAll p (s :: ss) = takeAll q ss := by
  simp [takeAll, h]

theorem takeAll_cons_some {p q : Progress} {s : Step} {e : SlotsExhausted}
    (h : take p s = (some e, q)) (ss : List Step) : takeAll p (s :: ss) = (some e, q) := by
  simp [takeAll, h]

end Step

end MethodProbes
