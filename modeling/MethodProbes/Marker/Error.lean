import MethodProbes.Code.Buffer
import MethodProbes.Text.Quoted

/-!
# Why a marker is rejected
-/
namespace MethodProbes

inductive MarkerError where
  /-- The value of an integer tag is not a numeral in range. -/
  | invalidInteger (tag value : String)
  /-- A sampling mean is a numeral, but not one of `1 ..= 4294967295`. -/
  | invalidMean (mean : Int)
  /-- No sampler has this name. -/
  | unknownSampler (name : String)
  /-- The text describes no level interval. -/
  | invalidLevel (text : String)
  /-- The code needs more slots than there are. -/
  | slotsExhausted (e : SlotsExhausted)
  deriving DecidableEq

def MarkerError.message : MarkerError → String
  | invalidInteger tag value => s!"invalid integer for tag `{tag}`: " ++ Text.quoted value
  | invalidMean mean => s!"sampling mean must be positive, got {mean}"
  | unknownSampler name => "unknown sampler: " ++ Text.quoted name
  | invalidLevel text => "invalid level expression: " ++ Text.quoted text
  | slotsExhausted e =>
    s!"local slots exhausted: no room for a {e.ty.name} slot at index {e.index}"

end MethodProbes
