import Mathlib.Algebra.Ring.Nat
import Mathlib.Data.List.Basic
import Mathlib.Data.List.Induction
import MethodProbes.Proofs.Code.Operations
import MethodProbes.Proofs.Machine.Memory

/-!
# How a buffer hands out slots

Slots are handed out side by side from the first free one upward, each to one store.  A slot that is asked for
and does not fit changes nothing, and what fits behind it is still handed out.
-/
namespace MethodProbes

/-- The slots lie side by side, from index `lo` up to, but not including, `hi`. -/
def Tiles : Nat → List (Slot × ValueType) → Nat → Prop
  | lo, [], hi => lo = hi
  | lo, (r, ty) :: rs, hi => r.index = lo ∧ Tiles (lo + ty.width) rs hi

namespace Tiles

variable {lo hi : Nat} {rs : List (Slot × ValueType)}

theorem concat (h : Tiles lo rs hi) (ty : ValueType) :
    Tiles lo (rs ++ [(⟨hi⟩, ty)]) (hi + ty.width) := by
  induction rs generalizing lo with
  | nil =>
    obtain rfl : lo = hi := h
    exact ⟨rfl, rfl⟩
  | cons r rs ih => exact ⟨h.1, ih h.2⟩

theorem le (h : Tiles lo rs hi) : lo ≤ hi := by
  induction rs generalizing lo with
  | nil => exact Nat.le_of_eq h
  | cons r rs ih => exact Nat.le_trans (Nat.le_add_right _ _) (ih h.2)

theorem exists_iff (h : Tiles lo rs hi) (i : Nat) :
    (∃ r ∈ rs, r.1.index ≤ i ∧ i < r.1.index + r.2.width) ↔ lo ≤ i ∧ i < hi := by
  induction rs generalizing lo with
  | nil =>
    obtain rfl : lo = hi := h
    simp
  | cons r rs ih =>
    obtain ⟨r, ty⟩ := r
    obtain ⟨rfl, h⟩ := h
    have hle := h.le
    have hpos := ty.width_pos
    rw [List.exists_mem_cons_iff, ih h]
    dsimp only
    omega

theorem eq_sum (h : Tiles lo rs hi) : hi = lo + (rs.map (·.2.width)).sum := by
  induction rs generalizing lo with
  | nil => exact Eq.symm h
  | cons r rs ih => rw [ih h.2, List.map_cons, List.sum_cons, Nat.add_assoc]

theorem lo_le (h : Tiles lo rs hi) : ∀ r ∈ rs, lo ≤ r.1.index := by
  induction rs generalizing lo with
  | nil => simp
  | cons r rs ih =>
    refine List.forall_mem_cons.2 ⟨Nat.le_of_eq h.1.symm, fun q hq => ?_⟩
    exact Nat.le_trans (Nat.le_add_right _ _) (ih h.2 q hq)

end Tiles

namespace Buffer

/-- The slots handed out stand in order, below the next free one. -/
structure Allots (b : Buffer) : Prop where
  below : ∀ e ∈ b.slots.toList, e.1.index + e.2.width ≤ b.nextSlot
  order : b.slots.toList.Pairwise fun e f => e.1.index + e.2.width ≤ f.1.index

theorem keeps_allots : Keeps Allots where
  emit _ h := ⟨h.below, h.order⟩
  newLabel h := ⟨h.below, h.order⟩
  reserve {b} ty h := by
    have hslots : (b.reserve ty).slots.toList = b.slots.toList ++ [(⟨b.nextSlot⟩, ty)] := by
      simp [Buffer.reserve]
    refine ⟨fun e he => ?_, ?_⟩
    · rw [hslots, List.mem_append, List.mem_singleton] at he
      rcases he with he | rfl
      · exact Nat.le_add_right_of_le (h.below e he)
      · exact Nat.le_refl _
    · rw [hslots, List.pairwise_append]
      refine ⟨h.order, List.pairwise_singleton _ _, fun e he f hf => ?_⟩
      rw [List.mem_singleton.1 hf]
      exact h.below e he

theorem Allots.slotType?_eq {b : Buffer} (h : b.Allots) {r : Slot} {ty : ValueType}
    (hr : (r, ty) ∈ b.slots.toList) : b.slotType? r = some ty := by
  obtain ⟨pre, post, hslots⟩ := List.append_of_mem hr
  rw [slotType?, List.lookup_eq_some_iff]
  refine ⟨pre, post, hslots, fun e he => bne_iff_ne.2 ?_⟩
  rintro rfl
  have horder := h.order
  rw [hslots, List.pairwise_append] at horder
  have hle := horder.2.2 e he _ List.mem_cons_self
  have hpos := e.2.width_pos
  dsimp only at hle
  omega

theorem keeps_tiles (lo : Nat) : Keeps fun b => Tiles lo b.slots.toList b.nextSlot where
  emit _ h := h
  reserve ty h := by
    simp only [reserve, Array.toList_push]
    exact h.concat ty
  newLabel h := h

variable {b : Buffer}

theorem Allots.slotType?_eq_some_iff (h : b.Allots) {r : Slot} {ty : ValueType} :
    b.slotType? r = some ty ↔ (r, ty) ∈ b.slots.toList := by
  refine ⟨fun hr => ?_, h.slotType?_eq⟩
  obtain ⟨pre, post, hslots, -⟩ := List.lookup_eq_some_iff.1 hr
  exact hslots ▸ List.mem_append_right _ List.mem_cons_self

theorem nextSlot_le_performAll (h : b.nextSlot ≤ slotSpace) (ops : List Operation) :
    (b.performAll ops).nextSlot ≤ slotSpace := by
  induction ops generalizing b with
  | nil => exact h
  | cons op ops ih =>
    refine ih ?_
    cases op with
    | emit i | newLabel => exact h
    | storeNew ty =>
      rcases b.perform_storeNew_cases ty with ⟨hle, -, hb⟩ | ⟨-, -, hb⟩ <;> rw [hb]
      · exact hle
      · exact h

/-- The last slot that is handed out ends where the next one begins, and it is stored. -/
theorem exists_last_store (b : Buffer) (ops : List Operation) :
    (b.performAll ops).nextSlot = b.nextSlot ∨ ∃ ty s, .store ty s ∈ (b.performAll ops).code ∧
      s.index + ty.width = (b.performAll ops).nextSlot := by
  induction ops using List.reverseRecOn with
  | nil => exact .inl rfl
  | append_singleton ops op ih =>
    have hlast : b.performAll (ops ++ [op]) = (b.performAll ops).perform op := performAll_append b ops [op]
    have hkept (hcode : (b.performAll ops).code <+: ((b.performAll ops).perform op).code)
        (hnext : ((b.performAll ops).perform op).nextSlot = (b.performAll ops).nextSlot) :
        ((b.performAll ops).perform op).nextSlot = b.nextSlot ∨
          ∃ ty s, .store ty s ∈ ((b.performAll ops).perform op).code ∧
            s.index + ty.width = ((b.performAll ops).perform op).nextSlot := by
      rw [hnext]
      exact ih.imp_right fun ⟨ty, s, hs, hend⟩ => ⟨ty, s, hcode.subset hs, hend⟩
    rw [hlast]
    cases op with
    | emit i => exact hkept (by simp [perform]) rfl
    | newLabel => exact hkept List.prefix_rfl rfl
    | storeNew ty =>
      rcases (b.performAll ops).perform_storeNew_cases ty with ⟨-, -, hb⟩ | ⟨-, -, hb⟩
      · rw [hb]
        exact .inr ⟨ty, ⟨(b.performAll ops).nextSlot⟩, by simp, rfl⟩
      · exact hkept (by simp [hb]) (by rw [hb])

/-- The first index of a new slot, on a counter of 32 bits and with an index of 16 bits. -/
def slotIndex? (next : UInt32) (ty : ValueType) : Option UInt16 :=
  if next ≤ 65535 ∧ next + ty.width.toUInt32 ≤ 65536 then some next.toUInt16 else none

/-- The words hold all numbers up to the end of the slot space and beyond. -/
theorem toNat_add_width {n : Nat} (h : n ≤ slotSpace) (ty : ValueType) :
    (n.toUInt32 + ty.width.toUInt32).toNat = n + ty.width := by
  have hwidth := ty.width_le_two
  rw [slotSpace] at h
  simp only [UInt32.toNat_add, Nat.toUInt32_eq, UInt32.toNat_ofNat']
  omega

theorem map_slotIndex? {n : Nat} (h : n ≤ slotSpace) (ty : ValueType) :
    (slotIndex? n.toUInt32 ty).map (·.toNat) =
      if n + ty.width ≤ slotSpace then some n else none := by
  have hsum := toNat_add_width h ty
  have hnext : n.toUInt32.toNat = n := by
    rw [slotSpace] at h
    simp only [Nat.toUInt32_eq, UInt32.toNat_ofNat']
    omega
  have hpos := ty.width_pos
  have hiff : n.toUInt32 ≤ 65535 ∧ n.toUInt32 + ty.width.toUInt32 ≤ 65536 ↔
      n + ty.width ≤ slotSpace := by
    rw [UInt32.le_iff_toNat_le, UInt32.le_iff_toNat_le, hnext, hsum, slotSpace]
    simp only [UInt32.reduceToNat]
    omega
  rw [slotIndex?]
  split
  next hif =>
    have hle := hiff.1 hif
    rw [if_pos hle]
    simp only [Option.map_some, UInt32.toNat_toUInt16, hnext]
    rw [slotSpace] at hle
    congr 1
    omega
  next hif => rw [if_neg (mt hiff.2 hif), Option.map_none]

structure SlotsInOrder (first : Nat) (granted : List (Slot × ValueType)) (b : Buffer) : Prop where
  nextSlot : b.nextSlot = first + (granted.map (·.2.width)).sum
  le : b.nextSlot ≤ slotSpace
  words : ∀ ty : ValueType,
    (b.nextSlot.toUInt32 + ty.width.toUInt32).toNat = b.nextSlot + ty.width
  slots : b.slots.toList = granted
  tiles : Tiles first granted b.nextSlot
  apart : granted.Pairwise fun e f => e.1.Apart e.2 f.1 f.2
  within : ∀ e ∈ granted, first ≤ e.1.index ∧ e.1.index + e.2.width ≤ slotSpace
  typed : ∀ s ty, b.slotType? s = some ty ↔ (s, ty) ∈ granted

structure AnswersFor (b : Buffer) (ty : ValueType) : Prop where
  succeeds : (∃ s, (b.storeNew ty).1 = .ok s) ↔ b.nextSlot + ty.width ≤ slotSpace
  index : (b.storeNew ty).1.toOption =
    (slotIndex? b.nextSlot.toUInt32 ty).map fun i => ⟨i.toNat⟩
  done : ∀ s, (b.storeNew ty).1 = .ok s → (∀ e ∈ b.slots.toList, e.1.Apart e.2 s ty) ∧
    (b.storeNew ty).2 = { b with
      insns := b.insns.push (.store ty s)
      nextSlot := b.nextSlot + ty.width
      slots := b.slots.push (s, ty) }
  failed : ∀ e, (b.storeNew ty).1 = .error e → e = ⟨b.nextSlot, ty⟩ ∧ (b.storeNew ty).2 = b
  /-- Behind a failure a narrower value is stored if it fits. -/
  narrower : ∀ e narrow, (b.storeNew ty).1 = .error e →
    ((∃ s, ((b.storeNew ty).2.storeNew narrow).1 = .ok s) ↔ b.nextSlot + narrow.width ≤ slotSpace)

theorem isOk_storeNew_iff (b : Buffer) (ty : ValueType) :
    (∃ s, (b.storeNew ty).1 = .ok s) ↔ b.nextSlot + ty.width ≤ slotSpace := by
  rw [storeNew]
  split
  next hle => simp [hle]
  next hle => simp [hle]

theorem eq_of_storeNew_error {ty : ValueType} {e : SlotsExhausted} (h : (b.storeNew ty).1 = .error e) :
    e = ⟨b.nextSlot, ty⟩ ∧ (b.storeNew ty).2 = b := by
  rw [storeNew] at h ⊢
  split at h
  next => cases h
  next hno => exact ⟨(Except.error.inj h).symm, by rw [if_neg hno]⟩

theorem index_storeNew (hle : b.nextSlot ≤ slotSpace) (ty : ValueType) :
    (b.storeNew ty).1.toOption = (slotIndex? b.nextSlot.toUInt32 ty).map fun i => ⟨i.toNat⟩ := by
  have hindex := congrArg (Option.map Slot.mk) (map_slotIndex? hle ty)
  rw [Option.map_map] at hindex
  refine Eq.trans ?_ hindex.symm
  rw [storeNew]
  split <;> rfl

/-- A buffer whose slots lie below the next free one hands that out, or stays as it is. -/
theorem answersFor (hle : b.nextSlot ≤ slotSpace) (h : b.Allots) (ty : ValueType) :
    b.AnswersFor ty where
  succeeds := b.isOk_storeNew_iff ty
  index := index_storeNew hle ty
  done s hs := by
    have hroom := (b.isOk_storeNew_iff ty).1 ⟨s, hs⟩
    rw [storeNew_of_le hroom] at hs ⊢
    obtain rfl := Except.ok.inj hs
    exact ⟨fun e he => .inl (h.below e he), rfl⟩
  failed _ := eq_of_storeNew_error
  narrower e narrow he := by
    rw [(eq_of_storeNew_error he).2]
    exact b.isOk_storeNew_iff narrow

/-- Whatever a buffer is asked for, and whether or not there were slots: its slots are those that it has handed
out, side by side from the first free one upward and within the slot space, and it hands out another one
exactly if that fits. -/
theorem slots_of_operations (firstSlot : UInt16) (ops : List Operation) :
    let b := (empty firstSlot).performAll ops
    b.SlotsInOrder firstSlot.toNat ((empty firstSlot).grants ops) ∧ ∀ ty, b.AnswersFor ty := by
  intro b
  have hle : b.nextSlot ≤ slotSpace :=
    nextSlot_le_performAll (b := .empty firstSlot) (Nat.le_of_lt firstSlot.toNat_lt) ops
  have hallots : b.Allots := keeps_allots.performAll (b := .empty firstSlot) ⟨nofun, .nil⟩ ops
  have htiles : Tiles firstSlot.toNat b.slots.toList b.nextSlot :=
    (keeps_tiles _).performAll (b := .empty firstSlot) rfl ops
  have hslots : b.slots.toList = (empty firstSlot).grants ops := slots_performAll _ ops
  refine ⟨?_, answersFor hle hallots⟩
  rw [← hslots]
  exact
    { nextSlot := htiles.eq_sum
      le := hle
      words := toNat_add_width hle
      slots := rfl
      tiles := htiles
      apart := hallots.order.imp .inl
      within := fun e he => ⟨htiles.lo_le e he, Nat.le_trans (hallots.below e he) hle⟩
      typed := fun _ _ => hallots.slotType?_eq_some_iff }

/-- A long does not fit into the last index, and an integer does that is asked for afterwards. -/
theorem slots_of_operations_lastIndex :
    let ops : List Operation := [.emit (.push (.long 0)), .storeNew .long, .storeNew .int, .storeNew .bool]
    let b := (empty 65535).performAll ops
    b.SlotsInOrder 65535 [(⟨65535⟩, .int)] ∧ (∀ ty, b.AnswersFor ty) ∧
      ((empty 65535).storeNew .long).1 = .error ⟨65535, .long⟩ ∧
      b.code = [.push (.long 0), .store .int ⟨65535⟩] := by
  intro ops b
  obtain ⟨horder, hanswers⟩ := slots_of_operations 65535 ops
  have hgrants : (empty 65535).grants ops = [(⟨65535⟩, .int)] := by decide
  rw [hgrants] at horder
  exact ⟨horder, hanswers, by decide, by decide⟩

end Buffer

end MethodProbes
