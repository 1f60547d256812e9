import MethodProbes.Code.Insn

/-!
# The variables of a cycle

The markers of a method run through cycles of entry, test and exit.  The probe code of a cycle
shares four variables, each of which gets a slot when the first code that stores it is emitted.
-/
namespace MethodProbes

inductive Var where
  /-- The time of entry. -/
  | entryTs
  /-- Whether this invocation is sampled, as an integer that is not zero. -/
  | sampleHit
  /-- The measured duration. -/
  | duration
  /-- The global level as this cycle first read it. -/
  | level
  deriving DecidableEq, Repr

def Var.type : Var → ValueType
  | entryTs | duration => .long
  | sampleHit | level => .int

/-- What earlier markers left for later ones. -/
structure Cycle where
  entryTs : Option Slot
  sampleHit : Option Slot
  duration : Option Slot
  level : Option Slot
  /-- Whether a test of this cycle has stored the duration. -/
  measured : Bool
  /-- Where the latest test goes if the invocation is not sampled, until an else marker places it. -/
  pendingElse : Option Label
  deriving DecidableEq

namespace Cycle

def initial : Cycle := ⟨none, none, none, none, false, none⟩

def slot? (c : Cycle) : Var → Option Slot
  | .entryTs => c.entryTs
  | .sampleHit => c.sampleHit
  | .duration => c.duration
  | .level => c.level

def isBound (c : Cycle) (v : Var) : Bool := (c.slot? v).isSome

def bind (c : Cycle) (v : Var) (s : Slot) : Cycle :=
  match v with
  | .entryTs => { c with entryTs := some s }
  | .sampleHit => { c with sampleHit := some s }
  | .duration => { c with duration := some s }
  | .level => { c with level := some s }

/-- Starts a new cycle.  The slot of the duration is kept, and so is a pending else target. -/
def reset (c : Cycle) : Cycle :=
  { c with entryTs := none, sampleHit := none, level := none, measured := false }

def rename (r : Renaming) (c : Cycle) : Cycle where
  entryTs := c.entryTs.map (Slot.rename r.slot)
  sampleHit := c.sampleHit.map (Slot.rename r.slot)
  duration := c.duration.map (Slot.rename r.slot)
  level := c.level.map (Slot.rename r.slot)
  measured := c.measured
  pendingElse := c.pendingElse.map (Label.rename r.label)

@[simp] theorem slot?_initial (v : Var) : initial.slot? v = none := by cases v <;> rfl

@[simp] theorem slot?_bind (c : Cycle) (v w : Var) (s : Slot) :
    (c.bind v s).slot? w = if w = v then some s else c.slot? w := by
  cases v <;> cases w <;> rfl

@[simp] theorem slot?_reset (c : Cycle) (v : Var) :
    c.reset.slot? v = if v = .duration then c.duration else none := by
  cases v <;> rfl

@[simp] theorem measured_bind (c : Cycle) (v : Var) (s : Slot) :
    (c.bind v s).measured = c.measured := by
  cases v <;> rfl

@[simp] theorem pendingElse_bind (c : Cycle) (v : Var) (s : Slot) :
    (c.bind v s).pendingElse = c.pendingElse := by
  cases v <;> rfl

end Cycle

end MethodProbes
