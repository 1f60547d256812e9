import Mathlib.Logic.Function.Basic
import MethodProbes.Code.Value

/-!
# Memory of the stack machine

Locals are words of 32 bits.  A 64-bit value fills two of them, so a store into an overlapping slot
destroys what was there.
-/
namespace MethodProbes

/-- The type that a value has on the operand stack, where a flag is an integer. -/
def ValueType.carrier : ValueType → ValueType
  | .long => .long
  | .int | .bool => .int

@[simp] theorem ValueType.width_carrier (ty : ValueType) : ty.carrier.width = ty.width := by
  cases ty <;> rfl

theorem Const.exists_int {c : Const} (h : c.type = .int) : ∃ v, c = .int v := by
  cases c with
  | int v => exact ⟨v, rfl⟩
  | long v => cases h

theorem Const.exists_long {c : Const} (h : c.type = .long) : ∃ v, c = .long v := by
  cases c with
  | int v => cases h
  | long v => exact ⟨v, rfl⟩

def Slot.Apart (s : Slot) (ty : ValueType) (r : Slot) (tr : ValueType) : Prop :=
  s.index + ty.width ≤ r.index ∨ r.index + tr.width ≤ s.index

instance (s : Slot) (ty : ValueType) (r : Slot) (tr : ValueType) : Decidable (s.Apart ty r tr) :=
  inferInstanceAs (Decidable (_ ∨ _))

theorem Slot.Apart.ne {s r : Slot} {ty tr : ValueType} (h : s.Apart ty r tr) : s ≠ r := by
  rintro rfl
  have hs := ty.width_pos
  have hr := tr.width_pos
  rcases h with h | h <;> omega

def Slot.Covers (s : Slot) (ty : ValueType) (j : Nat) : Prop :=
  s.index ≤ j ∧ j < s.index + ty.width

instance (s : Slot) (ty : ValueType) (j : Nat) : Decidable (s.Covers ty j) :=
  inferInstanceAs (Decidable (_ ∧ _))

theorem Slot.Apart.not_covers {s r : Slot} {ty tr : ValueType} {j : Nat} (h : s.Apart ty r tr)
    (hr : r.Covers tr j) : ¬ s.Covers ty j := fun hs => by
  rw [Covers] at hs hr
  rcases h with h | h <;> omega

abbrev Memory := Nat → BitVec 32

namespace Memory

def read (m : Memory) : ValueType → Slot → Const
  | .long, s => .long (.ofBitVec (m (s.index + 1) ++ m s.index))
  | .int, s | .bool, s => .int (.ofBitVec (m s.index))

def write (m : Memory) (s : Slot) : Const → Memory
  | .int v => Function.update m s.index v.toBitVec
  | .long v => Function.update (Function.update m s.index (v.toBitVec.extractLsb' 0 32))
      (s.index + 1) (v.toBitVec.extractLsb' 32 32)

@[simp] theorem type_read (m : Memory) (ty : ValueType) (s : Slot) :
    (m.read ty s).type = ty.carrier := by
  cases ty <;> rfl

private theorem append_halves (v : BitVec 64) :
    v.extractLsb' 32 32 ++ v.extractLsb' 0 32 = v := by
  rw [BitVec.extractLsb'_append_extractLsb'_eq_extractLsb' (by rfl)]
  simp

theorem read_write_self (m : Memory) {ty : ValueType} (s : Slot) {c : Const}
    (h : c.type = ty.carrier) : (m.write s c).read ty s = c := by
  cases c with
  | int v => cases ty <;> simp_all [read, write, Const.type, ValueType.carrier]
  | long v =>
    cases ty with
    | long => simp [read, write, append_halves]
    | int | bool => cases h

theorem write_of_not_covers (m : Memory) {ty : ValueType} {s : Slot} {c : Const} {j : Nat}
    (hc : c.type = ty.carrier) (hj : ¬ s.Covers ty j) : m.write s c j = m j := by
  have hw : ty.width = c.type.width := by rw [hc, ValueType.width_carrier]
  rw [Slot.Covers, hw] at hj
  cases c with
  | int v =>
    have hj : ¬ (s.index ≤ j ∧ j < s.index + 1) := hj
    exact Function.update_of_ne (by omega) _ _
  | long v =>
    have hj : ¬ (s.index ≤ j ∧ j < s.index + 2) := hj
    rw [write, Function.update_of_ne (by omega), Function.update_of_ne (by omega)]

private theorem append_inj {a b c d : BitVec 32} (h : a ++ b = c ++ d) : a = c ∧ b = d := by
  have hhigh := congrArg (BitVec.extractLsb' 32 32) h
  have hlow := congrArg (BitVec.extractLsb' 0 32) h
  rw [BitVec.extractLsb'_append_eq_left, BitVec.extractLsb'_append_eq_left] at hhigh
  rw [BitVec.extractLsb'_append_eq_right, BitVec.extractLsb'_append_eq_right] at hlow
  exact ⟨hhigh, hlow⟩

/-- The content of a slot is that of its words. -/
theorem read_eq_iff {m m' : Memory} {ty : ValueType} {s : Slot} :
    m.read ty s = m'.read ty s ↔ ∀ j, s.Covers ty j → m j = m' j := by
  cases ty with
  | int | bool =>
    have hfirst (j : Nat) (hj : s.index ≤ j ∧ j < s.index + 1) : j = s.index := by omega
    constructor
    · intro h j hj
      rw [hfirst j hj]
      exact congrArg Int32.toBitVec (Const.int.inj h)
    · intro h
      rw [read, read, h s.index ⟨Nat.le_refl _, Nat.lt_succ_self _⟩]
  | long =>
    have hone (j : Nat) (hj : s.index ≤ j ∧ j < s.index + 2) : j = s.index ∨ j = s.index + 1 := by
      omega
    constructor
    · intro h j hj
      obtain ⟨hhigh, hlow⟩ := append_inj (congrArg Int64.toBitVec (Const.long.inj h))
      rcases hone j hj with rfl | rfl
      · exact hlow
      · exact hhigh
    · intro h
      rw [read, read, h s.index ⟨Nat.le_refl _, Nat.lt_add_of_pos_right Nat.two_pos⟩,
        h (s.index + 1) ⟨Nat.le_succ _, Nat.lt_succ_self _⟩]

theorem read_write_of_apart (m : Memory) {ty tr : ValueType} {s r : Slot} {c : Const}
    (hc : c.type = ty.carrier) (h : s.Apart ty r tr) : (m.write s c).read tr r = m.read tr r :=
  read_eq_iff.2 fun _ hj => write_of_not_covers m hc (h.not_covers hj)

end Memory

end MethodProbes
