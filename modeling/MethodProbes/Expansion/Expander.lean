import MethodProbes.Expansion.MarkerSteps
import MethodProbes.Tracking.Counters

/-!
# Expanders

The expander of a method first records its markers and then expands them in order.  Several
expanders may write to one buffer.
-/
namespace MethodProbes

structure Settings where
  /-- The mean of a sampled declaration that gives none. -/
  defaultMean : Nat := 10
  /-- The name of the global level. -/
  levelField : String := "level"
  deriving DecidableEq, Repr

/-- Sets the default mean; zero is no mean and counts as one. -/
def Settings.withDefaultMean (s : Settings) (n : Nat) : Settings :=
  { s with defaultMean := max 1 n }

structure Expander where
  /-- The id of the method, unless a marker names another. -/
  methodId : Nat
  settings : Settings
  tracking : Tracking
  cycle : Cycle

structure Expansion where
  expander : Expander
  buffer : Buffer
  registration : Option Registration
  error : Option MarkerError

namespace Expander

def new (methodId : Nat) (settings : Settings) : Expander :=
  ⟨methodId, settings, .initial, .initial⟩

def record (x : Expander) (m : Marker) : Except MarkerError Expander :=
  (x.tracking.record m x.settings.defaultMean).map fun t => { x with tracking := t }

/-- Takes the declarations of markers into account, up to the first bad one. -/
def recordAll (x : Expander) (ms : List Marker) : Except MarkerError Expander :=
  ms.foldlM record x

/-- Forgets that the duration is stored, and keeps every slot. -/
def forgetMeasurement (x : Expander) : Expander :=
  { x with cycle := { x.cycle with measured := false } }

def rename (r : Renaming) (x : Expander) : Expander := { x with cycle := x.cycle.rename r }

/-- The id that a marker's calls get. -/
def effectiveId (x : Expander) (m : Marker) : Except MarkerError Nat := do
  let id := (← m.methodId?).getD x.methodId
  if id ≤ maxMethodId then return id
  else throw (.invalidInteger TagName.methodId.key (toString id))

def context (x : Expander) (id nextLabel : Nat) : Context :=
  ⟨x.tracking, x.settings.levelField, .ofNat id, x.cycle, nextLabel⟩

/-- The counter that a marker's code needs. -/
def registration? (x : Expander) (m : Marker) (id : Nat) : Option Registration :=
  if m.kind = .entry then x.tracking.sampling?.map fun s => ⟨id, s.1⟩ else none

/-- Writes a marker's code at the end of the buffer.  A bad id changes nothing.  When slots run out,
what is written so far stays, and so does the registration. -/
def expand (x : Expander) (m : Marker) (b : Buffer) : Expansion :=
  match x.effectiveId m with
  | .error e => ⟨x, b, none, some e⟩
  | .ok id =>
    let (e, p) := Step.takeAll ⟨b, x.cycle⟩ ((x.context id b.nextLabel).steps m)
    ⟨{ x with cycle := p.cycle }, p.buffer, x.registration? m id, e.map .slotsExhausted⟩

end Expander

end MethodProbes
