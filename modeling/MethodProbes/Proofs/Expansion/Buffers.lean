import MethodProbes.Expansion.Step

/-!
# What steps do to a buffer

A step adds at most one slot, one instruction and one label to the buffer.  What these preserve
holds behind any list of steps, whether all of them are taken or not.
-/
namespace MethodProbes

open Step

namespace Step

/-- A store goes to the slot that the variable has, or to a new one if there is room. -/
theorem take_store_cases (b : Buffer) (c : Cycle) (v : Var) :
    (∃ r, c.slot? v = some r ∧
      take ⟨b, c⟩ (store v) = (none, ⟨b.emit (.store v.type r), c.bind v r⟩)) ∨
    c.slot? v = none ∧
      take ⟨b, c⟩ (store v) = (none, ⟨(b.reserve v.type).emit (.store v.type ⟨b.nextSlot⟩),
        c.bind v ⟨b.nextSlot⟩⟩) ∨
    c.slot? v = none ∧ ∃ e, take ⟨b, c⟩ (store v) = (some e, ⟨b, c⟩) := by
  rw [take]
  cases hv : c.slot? v with
  | some r => exact .inl ⟨r, rfl, rfl⟩
  | none =>
    rw [Buffer.storeInto]
    rcases Nat.lt_or_ge slotSpace (b.nextSlot + v.type.width) with hlt | hle
    · rw [Buffer.storeNew_of_lt hlt]
      exact .inr (.inr ⟨rfl, _, rfl⟩)
    · rw [Buffer.storeNew_of_le hle]
      exact .inr (.inl ⟨rfl, rfl⟩)

end Step

namespace Buffer

/-- What holds of a buffer still holds with one more instruction, slot or label. -/
structure Keeps (P : Buffer → Prop) : Prop where
  emit {b : Buffer} (i : Insn) : P b → P (b.emit i)
  reserve {b : Buffer} (ty : ValueType) : P b → P (b.reserve ty)
  newLabel {b : Buffer} : P b → P b.newLabel.2

namespace Keeps

variable {P : Buffer → Prop} {p q : Progress} {e : Option SlotsExhausted}

theorem take (hP : Keeps P) {s : Step} (h : P p.buffer) (ht : s.take p = (e, q)) : P q.buffer := by
  obtain ⟨b, c⟩ := p
  cases s with
  | emit i =>
    cases ht
    exact hP.emit i h
  | newLabel =>
    cases ht
    exact hP.newLabel h
  | await l | settle | measured | reset =>
    cases ht
    exact h
  | load v =>
    rw [Step.take] at ht
    split at ht <;> cases ht
    · exact hP.emit _ h
    · exact h
  | store v =>
    rcases take_store_cases b c v with ⟨r, -, hs⟩ | ⟨-, hs⟩ | ⟨-, e, hs⟩ <;>
      cases ht.symm.trans hs
    · exact hP.emit _ h
    · exact hP.emit _ (hP.reserve _ h)
    · exact h

theorem takeAll (hP : Keeps P) {ss : List Step} (h : P p.buffer)
    (ht : Step.takeAll p ss = (e, q)) : P q.buffer := by
  induction ss generalizing p with
  | nil =>
    cases ht
    exact h
  | cons s ss ih =>
    rcases hs : s.take p with ⟨_ | e', o⟩
    · rw [takeAll_cons_none hs] at ht
      exact ih (hP.take h hs) ht
    · rw [takeAll_cons_some hs] at ht
      cases ht
      exact hP.take h hs

end Keeps

/-- The buffer `b'` has all that the buffer `b` has. -/
structure Extends (b b' : Buffer) : Prop where
  code : b.code <+: b'.code
  slots : b.slots.toList <+: b'.slots.toList
  nextSlot : b.nextSlot ≤ b'.nextSlot
  nextLabel : b.nextLabel ≤ b'.nextLabel

theorem Extends.refl (b : Buffer) : b.Extends b :=
  ⟨List.prefix_rfl, List.prefix_rfl, Nat.le_refl _, Nat.le_refl _⟩

theorem keeps_extends (b : Buffer) : Keeps b.Extends where
  emit i h := ⟨code_emit _ i ▸ h.code.trans (List.prefix_append _ _), h.slots, h.nextSlot,
    h.nextLabel⟩
  reserve ty h := ⟨h.code, h.slots.trans (by simp [reserve]), Nat.le_add_right_of_le h.nextSlot,
    h.nextLabel⟩
  newLabel h := ⟨h.code, h.slots, h.nextSlot, Nat.le_succ_of_le h.nextLabel⟩

end Buffer

end MethodProbes
