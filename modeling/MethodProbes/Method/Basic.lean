import MethodProbes.Expansion.Expander

/-!
# Methods with probes

A method body is reduced to its markers.  All entry markers are recorded before the first marker is
expanded, so the order of declarations and tests in the body is of no account.
-/
namespace MethodProbes

structure Body where
  name : String
  methodId : Nat
  markers : List Marker
  deriving DecidableEq

/-- The code of one marker, from index `start` up to, but not including, `stop`. -/
structure Span where
  kind : MarkerKind
  start : Nat
  stop : Nat
  deriving DecidableEq, Repr

structure ProbedMethod where
  name : String
  methodId : Nat
  tracking : Tracking
  code : Array Insn
  /-- One span for each marker, in order. -/
  spans : List Span
  /-- Number of slots the code uses. -/
  slots : Nat
  deriving DecidableEq

namespace ProbedMethod

def segment (p : ProbedMethod) (s : Span) : List Insn := (p.code.extract s.start s.stop).toList

def segment? (p : ProbedMethod) (i : Nat) : Option (List Insn) := p.spans[i]?.map p.segment

/-- Name, id and tracking on one line. -/
def header (p : ProbedMethod) : String :=
  s!"method {p.name} (id {p.methodId})" ++
    (if p.tracking.timed then " timed" else "") ++
    (if p.tracking.isSampled then
      " sampler=" ++ Sampler.choiceName p.tracking.sampler ++ s!" mean={p.tracking.mean.toInt}"
    else "") ++
    String.join (p.tracking.levels.map fun i => " level=" ++ i.text)

/-- The header line, then for each marker its template line and its instructions. -/
def listing (p : ProbedMethod) : String :=
  p.header ++ "\n" ++ String.join (p.spans.map fun s =>
    s!"  ; {s.kind.templateName} {s.kind.descriptor}" ++ "\n" ++ MethodProbes.listing (p.segment s))

end ProbedMethod

/-- What expanding a list of markers results in, up to the first failure. -/
structure Trace where
  buffer : Buffer
  spans : List Span
  registrations : List Registration
  error : Option MarkerError

namespace Expander

/-- Expands markers in order, up to the first that fails.  The buffer holds `start` instructions,
where the first span starts. -/
def expandAll (x : Expander) (b : Buffer) (start : Nat) : List Marker → Trace
  | [] => ⟨b, [], [], none⟩
  | m :: ms =>
    match x.expand m b with
    | ⟨_, c, r, some e⟩ => ⟨c, [], r.toList, some e⟩
    | ⟨y, c, r, none⟩ =>
      let stop := c.insns.size
      let t := y.expandAll c stop ms
      { t with
        spans := ⟨m.kind, start, stop⟩ :: t.spans
        registrations := r.toList ++ t.registrations }

end Expander

/-- An attempt at a method: the counters it asks for, even if it fails, and what comes of it. -/
structure Attempt where
  registrations : List Registration
  result : Except MarkerError ProbedMethod

/-- Records and expands the markers of a body.  The counter table plays no part in the code. -/
def Body.attempt (b : Body) (settings : Settings) (firstSlot : UInt16) : Attempt :=
  match (Expander.new b.methodId settings).recordAll b.markers with
  | .error e => ⟨[], .error e⟩
  | .ok x =>
    let t := x.expandAll (.empty firstSlot) 0 b.markers
    ⟨t.registrations,
      match t.error with
      | some e => .error e
      | none => .ok ⟨b.name, b.methodId, x.tracking, t.buffer.insns, t.spans, t.buffer.slots.size⟩⟩

end MethodProbes
