import MethodProbes.Method.Batch

/-!
# Methods side by side

The methods of a batch may be worked on side by side.  Each of them is a job with an expander and a
buffer of its own, and what the jobs share is the counter table.  A schedule says whose turn it is,
and in a turn a job deals with one marker.
-/
namespace MethodProbes

/-- A method that is worked on. -/
inductive Job where
  /-- The markers `ms` are still to be recorded. -/
  | recording (body : Body) (firstSlot : UInt16) (x : Expander) (ms : List Marker)
  /-- The markers `ms` are still to be expanded; the others have the spans. -/
  | expanding (body : Body) (x : Expander) (b : Buffer) (spans : List Span) (ms : List Marker)
  | finished (result : Except MarkerError ProbedMethod)

namespace Job

def start (settings : Settings) (firstSlot : UInt16) (body : Body) : Job :=
  .recording body firstSlot (.new body.methodId settings) body.markers

/-- What a job does in a turn, and the counter that it registers. -/
def step : Job → Job × Option Registration
  | .recording body firstSlot x [] => (.expanding body x (.empty firstSlot) [] body.markers, none)
  | .recording body firstSlot x (m :: ms) =>
    match x.record m with
    | .ok y => (.recording body firstSlot y ms, none)
    | .error e => (.finished (.error e), none)
  | .expanding body x b spans [] =>
    (.finished (.ok ⟨body.name, body.methodId, x.tracking, b.insns, spans, b.slots.size⟩), none)
  | .expanding body x b spans (m :: ms) =>
    match x.expand m b with
    | ⟨y, c, r, none⟩ =>
      (.expanding body y c (spans ++ [⟨m.kind, b.insns.size, c.insns.size⟩]) ms, r)
    | ⟨_, _, r, some e⟩ => (.finished (.error e), r)
  | .finished result => (.finished result, none)

def result? : Job → Option (Except MarkerError ProbedMethod)
  | .finished result => some result
  | _ => none

end Job

/-- A batch that is worked on. -/
structure Workshop where
  jobs : List Job
  counters : Counters

namespace Workshop

def opened (s : BatchSettings) (c : Counters) (bs : List Body) : Workshop :=
  ⟨bs.map (Job.start s.toSettings s.firstSlot), c⟩

/-- The turn of the job at index `i`.  Without such a job nothing happens. -/
def turn (w : Workshop) (i : Nat) : Workshop :=
  match w.jobs[i]? with
  | none => w
  | some j => ⟨w.jobs.set i j.step.1, w.counters.registerAll j.step.2.toList⟩

/-- The jobs take turns as the schedule says. -/
def run (w : Workshop) (schedule : List Nat) : Workshop := schedule.foldl turn w

def results (w : Workshop) : List (Option (Except MarkerError ProbedMethod)) :=
  w.jobs.map Job.result?

def Finished (w : Workshop) : Prop := ∀ r ∈ w.results, r.isSome = true

instance (w : Workshop) : Decidable w.Finished :=
  inferInstanceAs (Decidable (∀ r ∈ w.results, r.isSome = true))

end Workshop

end MethodProbes
