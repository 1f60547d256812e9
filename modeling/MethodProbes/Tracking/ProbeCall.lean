import MethodProbes.Code.Insn

/-!
# Calls that probe code makes

Counters and clock live outside the method.  Every call but the one of the clock takes the method's
id as its argument.
-/
namespace MethodProbes

inductive ProbeCall where
  /-- Decides at a constant rate whether this invocation is sampled. -/
  | hit
  /-- Decides at an adaptive rate whether this invocation is sampled. -/
  | hitAdaptive
  /-- Decides as `hit` does and answers the entry time, or zero if not sampled. -/
  | hitTimed
  /-- Decides as `hitAdaptive` does and answers the entry time, or zero if not sampled. -/
  | hitTimedAdaptive
  /-- Answers the end time of a sampled invocation. -/
  | getEndTs
  /-- Tells the adaptive sampler that a sampled invocation ends. -/
  | updateEndTs
  /-- Answers the clock. -/
  | nanoTime
  deriving DecidableEq, Repr

namespace ProbeCall

def all : List ProbeCall :=
  [hit, hitAdaptive, hitTimed, hitTimedAdaptive, getEndTs, updateEndTs, nanoTime]

def name : ProbeCall → String
  | hit => "hit"
  | hitAdaptive => "hitAdaptive"
  | hitTimed => "hitTimed"
  | hitTimedAdaptive => "hitTimedAdaptive"
  | getEndTs => "getEndTs"
  | updateEndTs => "updateEndTs"
  | nanoTime => "nanoTime"

def owner : ProbeCall → String
  | nanoTime => "java/lang/System"
  | _ => "mtrack/rt/MethodTracker"

def params : ProbeCall → List ValueType
  | nanoTime => []
  | _ => [.int]

def ret : ProbeCall → Option ValueType
  | hit | hitAdaptive => some .bool
  | hitTimed | hitTimedAdaptive | getEndTs | nanoTime => some .long
  | updateEndTs => none

def callee (c : ProbeCall) : Callee := ⟨c.owner, c.name, c.params, c.ret⟩

theorem name_inj {c d : ProbeCall} : c.name = d.name ↔ c = d := by
  cases c <;> cases d <;> decide

end ProbeCall

end MethodProbes
