import MethodProbes.Method.Basic

/-!
# Batches of methods

The methods of a batch share nothing but the counter table, so it does not matter to their code
whether they are worked on side by side.
-/
namespace MethodProbes

structure BatchSettings extends Settings where
  /-- The first slot of every method that its probe code may use. -/
  firstSlot : UInt16 := 0
  /-- Whether the methods may be worked on side by side; the answer is that of one by one. -/
  parallel : Bool := true
  deriving DecidableEq, Repr

structure Refusal where
  method : String
  cause : MarkerError
  deriving DecidableEq

def Refusal.message (r : Refusal) : String := s!"method `{r.method}`: " ++ r.cause.message

/-- Works on the methods in order.  The first that fails fails the batch, and counters that were
registered by then stay in the table. -/
def probeAll (s : BatchSettings) (c : Counters) :
    List Body → Counters × Except Refusal (List ProbedMethod)
  | [] => (c, .ok [])
  | b :: bs =>
    let a := b.attempt s.toSettings s.firstSlot
    let c := c.registerAll a.registrations
    match a.result with
    | .error e => (c, .error ⟨b.name, e⟩)
    | .ok p =>
      let (c, ps) := probeAll s c bs
      (c, ps.map (p :: ·))

end MethodProbes
