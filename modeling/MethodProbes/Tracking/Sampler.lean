import MethodProbes.Marker.Error
import MethodProbes.Text.Blank
import MethodProbes.Tracking.ProbeCall

/-!
# Samplers

A sampler picks the invocations that are measured.  Its mean is the number of invocations from one
pick to the next.
-/
namespace MethodProbes

inductive Sampler where
  /-- Picks at a fixed rate. -/
  | const
  /-- Picks at a rate that the counters adjust. -/
  | adaptive
  deriving DecidableEq, Repr

namespace Sampler

def name : Sampler → String
  | const => "Const"
  | adaptive => "Adaptive"

def hitCall : Sampler → Bool → ProbeCall
  | const, false => .hit
  | const, true => .hitTimed
  | adaptive, false => .hitAdaptive
  | adaptive, true => .hitTimedAdaptive

/-- The name of a choice of sampler; the choice of none has a name too. -/
def choiceName (s : Option Sampler) : String := s.elim "None" name

def parseChoice (s : String) : Except MarkerError (Option Sampler) :=
  let name := String.ofList (Text.trim s.toList)
  if name = "None" then .ok none
  else if name = "Const" then .ok (some const)
  else if name = "Adaptive" then .ok (some adaptive)
  else .error (.unknownSampler name)

end Sampler

/-- What the declarations of a method say about its mean. -/
inductive SamplingMean where
  /-- There is no declaration yet. -/
  | unset
  /-- Some declaration has no sampler, and the method is not sampled. -/
  | disabled
  | every (n : Nat)
  deriving DecidableEq, Repr

namespace SamplingMean

def get? : SamplingMean → Option Nat
  | every n => some n
  | unset | disabled => none

/-- The mean as a number: `-1` for none yet and `0` for no sampling. -/
def toInt : SamplingMean → Int
  | unset => -1
  | disabled => 0
  | every n => n

/-- Takes a requested mean into account: the least one counts. -/
def fold (m : SamplingMean) (requested : Nat) : SamplingMean :=
  match m with
  | unset => every requested
  | every n => every (min n requested)
  | disabled => disabled

@[simp] theorem fold_disabled (n : Nat) : disabled.fold n = disabled := rfl

end SamplingMean

end MethodProbes
