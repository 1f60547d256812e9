import MethodProbes.Proofs.Expansion.Buffers

/-!
# Operations on a buffer

Whoever writes code asks the buffer for one operation after the other, and goes on whether or not there was a
slot.
-/
namespace MethodProbes

namespace Buffer

inductive Operation where
  /-- An instruction at the end, be it a placed label, a jump to some label, or a load or a store of some slot. -/
  | emit (i : Insn)
  /-- A store into a new slot. -/
  | storeNew (ty : ValueType)
  | newLabel
  deriving DecidableEq

def perform (b : Buffer) : Operation → Buffer
  | .emit i => b.emit i
  | .storeNew ty => (b.storeNew ty).2
  | .newLabel => b.newLabel.2

/-- The slot that an operation hands out, and its type. -/
def granted? (b : Buffer) : Operation → Option (Slot × ValueType)
  | .storeNew ty => (b.storeNew ty).1.toOption.map (·, ty)
  | _ => none

def performAll (b : Buffer) (ops : List Operation) : Buffer := ops.foldl perform b

def grants (b : Buffer) : List Operation → List (Slot × ValueType)
  | [] => []
  | op :: ops => (b.granted? op).toList ++ (b.perform op).grants ops

/-- The instruction that an operation writes; a slot that is handed out is stored. -/
def written? (b : Buffer) : Operation → Option Insn
  | .emit i => some i
  | .storeNew ty => (b.granted? (.storeNew ty)).map fun e => .store e.2 e.1
  | .newLabel => none

def writes (b : Buffer) : List Operation → List Insn
  | [] => []
  | op :: ops => (b.written? op).toList ++ (b.perform op).writes ops

theorem performAll_cons (b : Buffer) (op : Operation) (ops : List Operation) :
    b.performAll (op :: ops) = (b.perform op).performAll ops := rfl

theorem performAll_append (b : Buffer) (ops ops' : List Operation) :
    b.performAll (ops ++ ops') = (b.performAll ops).performAll ops' := List.foldl_append

theorem perform_storeNew_cases (b : Buffer) (ty : ValueType) :
    b.nextSlot + ty.width ≤ slotSpace ∧ b.granted? (.storeNew ty) = some (⟨b.nextSlot⟩, ty) ∧
        b.perform (.storeNew ty) = (b.reserve ty).emit (.store ty ⟨b.nextSlot⟩) ∨
      slotSpace < b.nextSlot + ty.width ∧ b.granted? (.storeNew ty) = none ∧
        b.perform (.storeNew ty) = b := by
  rw [granted?, perform]
  rcases Nat.lt_or_ge slotSpace (b.nextSlot + ty.width) with hlt | hle
  · rw [storeNew_of_lt hlt]
    exact .inr ⟨hlt, rfl, rfl⟩
  · rw [storeNew_of_le hle]
    exact .inl ⟨hle, rfl, rfl⟩

namespace Keeps

variable {P : Buffer → Prop} {b : Buffer}

theorem perform (hP : Keeps P) (h : P b) (op : Operation) : P (b.perform op) := by
  cases op with
  | emit i => exact hP.emit i h
  | newLabel => exact hP.newLabel h
  | storeNew ty =>
    rcases b.perform_storeNew_cases ty with ⟨-, -, hb⟩ | ⟨-, -, hb⟩ <;> rw [hb]
    · exact hP.emit _ (hP.reserve ty h)
    · exact h

/-- Whatever is asked for, a buffer keeps what an instruction, a slot and a label keep. -/
theorem performAll (hP : Keeps P) (h : P b) (ops : List Operation) : P (b.performAll ops) := by
  induction ops generalizing b with
  | nil => exact h
  | cons op ops ih => exact ih (hP.perform h op)

end Keeps

theorem slots_performAll (b : Buffer) (ops : List Operation) :
    (b.performAll ops).slots.toList = b.slots.toList ++ b.grants ops := by
  induction ops generalizing b with
  | nil => exact (List.append_nil _).symm
  | cons op ops ih =>
    have hfirst : (b.perform op).slots.toList = b.slots.toList ++ (b.granted? op).toList := by
      cases op with
      | emit i | newLabel => exact (List.append_nil _).symm
      | storeNew ty =>
        rcases b.perform_storeNew_cases ty with ⟨-, hgranted, hb⟩ | ⟨-, hgranted, hb⟩ <;>
          rw [hgranted, hb]
        · simp [reserve]
        · simp
    rw [performAll_cons, ih, hfirst, grants, List.append_assoc]

theorem code_performAll (b : Buffer) (ops : List Operation) :
    (b.performAll ops).code = b.code ++ b.writes ops := by
  induction ops generalizing b with
  | nil => exact (List.append_nil _).symm
  | cons op ops ih =>
    have hfirst : (b.perform op).code = b.code ++ (b.written? op).toList := by
      cases op with
      | emit i => exact code_emit b i
      | newLabel => exact (List.append_nil _).symm
      | storeNew ty =>
        rcases b.perform_storeNew_cases ty with ⟨-, hgranted, hb⟩ | ⟨-, hgranted, hb⟩ <;>
          rw [written?, hgranted, hb]
        · exact code_emit (b.reserve ty) _
        · exact (List.append_nil _).symm
    rw [performAll_cons, ih, hfirst, writes, List.append_assoc]

end Buffer

namespace Step

/-- A step asks the buffer for one operation at most. -/
theorem exists_operations_take {p q : Progress} {s : Step} {e : Option SlotsExhausted}
    (h : s.take p = (e, q)) : ∃ ops, q.buffer = p.buffer.performAll ops := by
  obtain ⟨b, c⟩ := p
  cases s with
  | emit i =>
    cases h
    exact ⟨[.emit i], rfl⟩
  | newLabel =>
    cases h
    exact ⟨[.newLabel], rfl⟩
  | await l | settle | measured | reset =>
    cases h
    exact ⟨[], rfl⟩
  | load v =>
    rw [take] at h
    split at h <;> cases h
    · exact ⟨[.emit _], rfl⟩
    · exact ⟨[], rfl⟩
  | store v =>
    rw [take] at h
    cases hv : c.slot? v with
    | some r =>
      rw [hv] at h
      cases h
      exact ⟨[.emit _], rfl⟩
    | none =>
      have hbuffer : (b.storeInto v.type none).2 = b.performAll [.storeNew v.type] := rfl
      rw [hv] at h
      rcases hstore : b.storeInto v.type none with ⟨_ | r, b'⟩ <;> rw [hstore] at h hbuffer <;> cases h
      · exact ⟨_, hbuffer⟩
      · exact ⟨_, hbuffer⟩

theorem exists_operations_takeAll {p q : Progress} {ss : List Step} {e : Option SlotsExhausted}
    (h : takeAll p ss = (e, q)) : ∃ ops, q.buffer = p.buffer.performAll ops := by
  induction ss generalizing p with
  | nil =>
    cases h
    exact ⟨[], rfl⟩
  | cons s ss ih =>
    rcases hs : s.take p with ⟨_ | e', o⟩
    · rw [takeAll_cons_none hs] at h
      obtain ⟨ops, ho⟩ := exists_operations_take hs
      obtain ⟨ops', hq⟩ := ih h
      exact ⟨ops ++ ops', by rw [hq, ho, Buffer.performAll_append]⟩
    · rw [takeAll_cons_some hs] at h
      cases h
      exact exists_operations_take hs

end Step

end MethodProbes
