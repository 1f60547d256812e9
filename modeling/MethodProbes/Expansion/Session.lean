import MethodProbes.Expansion.Expander

/-!
# Sessions

In a session several expanders write to one buffer and register their counters in one table.  They
may be asked in any order, and the session goes on after a failure.  Labels that were taken long ago
may be known by the names of new ones: a run with all labels as they are known is `actAllInWords`.
-/
namespace MethodProbes

/-- What an expander is asked to do. -/
inductive Action where
  | record (m : Marker)
  | expand (m : Marker)
  | forgetMeasurement
  deriving DecidableEq

structure Session where
  expanders : List Expander
  buffer : Buffer
  counters : Counters

namespace Session

def new (expanders : List Expander) (firstSlot : UInt16) : Session :=
  ⟨expanders, .empty firstSlot, .empty⟩

/-- Asks the expander at index `i`.  Without such an expander nothing happens. -/
def act : Session → Nat → Action → Option MarkerError × Session
  | ⟨xs, b, c⟩, i, a =>
    match xs[i]?, a with
    | none, _ => (none, ⟨xs, b, c⟩)
    | some x, .record m =>
      match x.record m with
      | .ok y => (none, ⟨xs.set i y, b, c⟩)
      | .error e => (some e, ⟨xs, b, c⟩)
    | some x, .expand m =>
      match x.expand m b with
      | ⟨y, b, r, e⟩ => (e, ⟨xs.set i y, b, c.registerAll r.toList⟩)
    | some x, .forgetMeasurement => (none, ⟨xs.set i x.forgetMeasurement, b, c⟩)

/-- Asks for actions in order, whether they fail or not. -/
def actAll (s : Session) (as : List (Nat × Action)) : Session :=
  as.foldl (fun s a => (s.act a.1 a.2).2) s

/-- The session with each label under the name that it is known by. -/
def inWords (s : Session) : Session :=
  { s with expanders := s.expanders.map (Expander.rename .words), buffer := s.buffer.inWords }

def actInWords (s : Session) (i : Nat) (a : Action) : Option MarkerError × Session :=
  ((s.act i a).1, (s.act i a).2.inWords)

def actAllInWords (s : Session) (as : List (Nat × Action)) : Session :=
  as.foldl (fun s a => (s.actInWords a.1 a.2).2) s

@[simp] theorem actAll_nil (s : Session) : s.actAll [] = s := rfl

theorem actAll_append (s : Session) (as bs : List (Nat × Action)) :
    s.actAll (as ++ bs) = (s.actAll as).actAll bs :=
  List.foldl_append

end Session

end MethodProbes
