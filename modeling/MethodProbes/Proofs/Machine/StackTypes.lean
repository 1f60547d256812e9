import MethodProbes.Proofs.Machine.Paths

/-!
# Stack types

A verifier of stack code gives each point of the code the types of the operands there, the top one
first.  The types have to agree along all edges of the control flow graph, and no operand may lie on
the stack where paths part or meet.
-/
namespace MethodProbes

namespace Insn

/-- The types of the operands that an instruction pops, the top one first. -/
def pops : Insn → List ValueType
  | push _ | load _ _ | readLevel _ | label _ | frame _ => []
  | store ty _ | dup ty => [ty.carrier]
  | longToInt => [.long]
  | sub ty => [ty.carrier, ty.carrier]
  | invoke f => (f.params.map ValueType.carrier).reverse
  | jump c _ => List.replicate c.operands .int

def pushes : Insn → List ValueType
  | push c => [c.type]
  | load ty _ | sub ty => [ty.carrier]
  | dup ty => [ty.carrier, ty.carrier]
  | longToInt | readLevel _ => [.int]
  | invoke f => (f.ret.map ValueType.carrier).toList
  | store _ _ | jump _ _ | label _ | frame _ => []

/-- Paths part at a jump and meet at a label. -/
def parts : Insn → Bool
  | jump _ _ | label _ => true
  | _ => false

end Insn

/-- Stack types for the points of a piece of code that is entered with an empty stack and leaves
`results` there. -/
structure StackMap (code : List Insn) (τ : Nat → List ValueType) (results : List ValueType) :
    Prop where
  start : τ 0 = []
  /-- Every instruction finds its operands, and leaves what is expected wherever control passes. -/
  flow : ∀ i insn, code[i]? = some insn →
    ∃ below, τ i = insn.pops ++ below ∧ ∀ j, Flows code i j → τ j = insn.pushes ++ below
  /-- A jump has no more operands than it pops, so it leaves the stack empty. -/
  jump : ∀ i c l, code[i]? = some (.jump c l) → τ i = List.replicate c.operands .int
  label : ∀ i l, code[i]? = some (.label l) → τ i = []
  stop : τ code.length = results

/-- Code typed in one pass from its first instruction on.  What lies on the stack below the operands
of an instruction is `below`, which is empty where paths part or meet. -/
inductive Types : List ValueType → List Insn → List ValueType → Prop
  | nil (st : List ValueType) : Types st [] st
  | cons {i : Insn} {st out : List ValueType} {code : List Insn} (below : List ValueType)
    (operands : st = i.pops ++ below) (parts : i.parts = true → below = [])
    (rest : Types (i.pushes ++ below) code out) : Types st (i :: code) out

namespace Types

variable {st mid out : List ValueType} {a b code : List Insn}

theorem append (ha : Types st a mid) (hb : Types mid b out) : Types st (a ++ b) out := by
  induction ha with
  | nil => exact hb
  | cons below operands parts _ ih => exact .cons below operands parts (ih hb)

/-- The pass finds types for all points: an instruction takes its operands from those before it and
leaves those behind it. -/
theorem exists_types (h : Types st code out) : ∃ τ : Nat → List ValueType,
    τ 0 = st ∧ τ code.length = out ∧ ∀ i insn, code[i]? = some insn → ∃ below,
      τ i = insn.pops ++ below ∧ τ (i + 1) = insn.pushes ++ below ∧
        (insn.parts = true → below = []) := by
  induction h with
  | nil st => exact ⟨fun _ => st, rfl, rfl, nofun⟩
  | @cons i st out code below operands parts _ ih =>
    obtain ⟨τ, hstart, hstop, hτ⟩ := ih
    refine ⟨fun | 0 => st | k + 1 => τ k, rfl, hstop, fun k insn hk => ?_⟩
    cases k with
    | zero =>
      cases hk
      exact ⟨below, operands, hstart, parts⟩
    | succ k => exact hτ k insn hk

/-- The stack is empty behind a jump and before a label, so the types agree along jumps too. -/
theorem exists_stackMap (h : Types [] code out) : ∃ τ, StackMap code τ out := by
  obtain ⟨τ, hstart, hstop, hτ⟩ := h.exists_types
  have hlabel {i : Nat} {l : Label} (hi : code[i]? = some (.label l)) : τ i = [] := by
    obtain ⟨below, hbefore, -, hparts⟩ := hτ i _ hi
    rw [hbefore, hparts rfl]
    rfl
  refine ⟨τ, hstart, fun i insn hi => ?_, fun i c l hi => ?_, fun i l => hlabel, hstop⟩
  · obtain ⟨below, hbefore, hbehind, hparts⟩ := hτ i insn hi
    refine ⟨below, hbefore, fun j hj => ?_⟩
    cases hj with
    | next => exact hbehind
    | leap here there =>
      obtain rfl := Option.some.inj (here.symm.trans hi)
      rw [hlabel there, hparts rfl]
      rfl
  · obtain ⟨below, hbefore, -, hparts⟩ := hτ i _ hi
    rw [hbefore, hparts rfl, List.append_nil]
    rfl

end Types

end MethodProbes
