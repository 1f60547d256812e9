import MethodProbes.Expansion.GateSteps
import MethodProbes.Tracking.Basic

/-!
# The steps of each marker

Which code a marker becomes depends on the tracking of its method and on what earlier markers of
the cycle left.  The gate of an entry first gives zero to the variables that the code behind it
stores, so later code may load them whether or not the gate was passed.
-/
namespace MethodProbes

/-- What the code of a marker depends on. -/
structure Context where
  tracking : Tracking
  /-- The name of the global level. -/
  levelField : String
  methodId : Int32
  cycle : Cycle
  /-- The number of the next label. -/
  nextLabel : Nat

namespace Context

/-- Gives a variable zero if it has no slot yet. -/
def define (x : Context) (v : Var) : List Step :=
  if x.cycle.isBound v then []
  else [.emit (.push (.zero v.type)), .store v]

/-- The code in front of gated code, whose labels have numbers from `n` on, and the label that it
skips to: a given one or else a new one, which has to be placed behind the gated code.  The variables
`vs` have a value on either way.  An open gate has no code and skips nothing. -/
def guard (x : Context) (vs : List Var) (given : Option Label) (n : Nat) :
    List Step × Option Label :=
  let tests := fun skip => Gate.rangeSteps x.levelField skip (x.cycle.isBound .level)
  match x.tracking.gate, given with
  | .openGate, _ => ([], none)
  | .skipping rs, some skip => (vs.flatMap x.define ++ tests skip n rs, some skip)
  | .skipping rs, none =>
    let skip : Label := ⟨n⟩
    (vs.flatMap x.define ++ .newLabel :: tests skip (n + 1) rs, some skip)

def gated (x : Context) (vs : List Var) (code : List Step) : List Step :=
  let (tests, skip) := x.guard vs none x.nextLabel
  tests ++ code ++ skip.elim [] Step.merge

/-- The tests of a gate that skips to `skip`. -/
def testsTo (x : Context) (skip : Label) (n : Nat) : List Step :=
  (x.guard [] (some skip) n).1

def callWithId (x : Context) (c : ProbeCall) : List Step :=
  [.emit (.push (.int x.methodId)), .emit (.invoke c.callee)]

/-- The code of an entry marker.  Only the first one of a cycle makes the call that decides the
sample or takes the time. -/
def entrySteps (x : Context) : List Step :=
  match x.tracking.sampling?, x.tracking.timed with
  | some (_, call), true =>
    x.define .duration ++
      if x.cycle.isBound .sampleHit || x.cycle.isBound .entryTs then []
      else x.gated [.entryTs, .sampleHit] (x.callWithId call ++
        [.emit (.dup .long), .store .entryTs, .emit .longToInt, .store .sampleHit])
  | some (_, call), false =>
    if x.cycle.isBound .sampleHit then []
    else x.gated [.sampleHit] (x.callWithId call ++ [.store .sampleHit])
  | none, true =>
    if x.cycle.isBound .entryTs then []
    else x.define .duration ++
      x.gated [.entryTs] [.emit (.invoke ProbeCall.nanoTime.callee), .store .entryTs]
  | none, false => []

/-- Stores the duration: the time that `now` pushes minus the time of entry, or zero if the cycle
has no time of entry. -/
def measure (x : Context) (now : List Step) : List Step :=
  (if x.cycle.isBound .entryTs then now ++ [.load .entryTs, .emit (.sub .long)]
    else [.emit (.push (.long 0))]) ++ [.store .duration, .measured]

/-- Goes to a new else target if the invocation is not sampled, and to `done` if the gate skips.
Without an entry in this cycle there is nothing to branch on. -/
def branch (x : Context) (done : Label) : List Step :=
  if x.cycle.isBound .sampleHit then
    let orElse : Label := ⟨x.nextLabel + 1⟩
    [.newLabel, .await orElse] ++ x.testsTo done (x.nextLabel + 2) ++
      [.load .sampleHit, .emit (.jump .ifZero orElse)]
  else []

def clockMeasure (x : Context) (done : Label) : List Step :=
  x.define .duration ++ x.testsTo done (x.nextLabel + 1) ++
    x.measure [.emit (.invoke ProbeCall.nanoTime.callee)]

/-- The code of a test marker.  Its first label stands at the end.  A sampled method branches, and
the first test of a cycle with the timed tag measures the duration. -/
def testSteps (x : Context) (timedTag : Bool) : List Step :=
  let done : Label := ⟨x.nextLabel⟩
  let timed := x.tracking.timed && timedTag
  let once := fun code : List Step => if x.cycle.measured then [] else code
  if x.tracking.isSampled then
    .newLabel :: x.branch done ++
      (if timed then once (x.measure (x.callWithId .getEndTs)) else []) ++ Step.merge done
  else if timed then
    .newLabel :: once (x.clockMeasure done) ++ Step.merge done
  else [.newLabel]

/-- Places the else target of the latest test. -/
def elseSteps (x : Context) : List Step :=
  match x.cycle.pendingElse with
  | some l => Step.merge l ++ [.settle]
  | none => []

/-- Pushes the duration, or zero if this cycle has not measured it. -/
def durationSteps (x : Context) : List Step :=
  if x.cycle.measured && x.cycle.isBound .duration then [.load .duration]
  else [.emit (.push (.long 0))]

/-- Tells the adaptive sampler about the exit of a sampled invocation. -/
def exitSteps (x : Context) : List Step :=
  if x.tracking.sampler = some .adaptive ∧ x.cycle.isBound .sampleHit then
    let done : Label := ⟨x.nextLabel⟩
    [.newLabel, .load .sampleHit, .emit (.jump .ifZero done)] ++ x.callWithId .updateEndTs ++
      Step.merge done
  else []

def steps (x : Context) (m : Marker) : List Step :=
  match m.kind with
  | .entry => x.entrySteps
  | .test => x.testSteps (m.hasTag .timed)
  | .elseBranch => x.elseSteps
  | .duration => x.durationSteps
  | .exit => x.exitSteps
  | .reset => [.reset]

end Context

end MethodProbes
