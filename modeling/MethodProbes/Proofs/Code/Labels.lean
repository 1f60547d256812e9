import Mathlib.Order.Bounds.Basic
import MethodProbes.Proofs.Code.Operations
import MethodProbes.Proofs.Expansion.PlacedLabels

/-!
# How a buffer keeps track of labels

A buffer notes where it places labels.  The notes stay in step with the code whatever the buffer is asked for:
they tell the last place of each label that the code places, and so the labels that dangle are those that are
jumped to and never placed.
-/
namespace MethodProbes

/-- The indices at which code places a label. -/
def placesOf (code : List Insn) (l : Label) : Set Nat := {i | code[i]? = some (.label l)}

section
variable {code : List Insn} {l : Label}

theorem placesOf_eq_empty_iff : placesOf code l = ∅ ↔ .label l ∉ code := by
  rw [Set.eq_empty_iff_forall_notMem, List.mem_iff_getElem?, not_exists]
  rfl

/-- A label that is placed at the end has its last place there. -/
theorem isGreatest_placesOf_concat (code : List Insn) (l : Label) :
    IsGreatest (placesOf (code ++ [.label l]) l) code.length := by
  refine ⟨List.getElem?_concat_length, fun i hi => ?_⟩
  have hlt : i < (code ++ [Insn.label l]).length := (List.getElem?_eq_some_iff.1 hi).1
  rw [List.length_append] at hlt
  exact Nat.le_of_lt_succ hlt

theorem placesOf_concat {i : Insn} (h : i ≠ .label l) : placesOf (code ++ [i]) l = placesOf code l := by
  ext j
  change (code ++ [i])[j]? = some (.label l) ↔ code[j]? = some (.label l)
  rcases Nat.lt_or_ge j code.length with hj | hj
  · rw [List.getElem?_append_left hj]
  · rw [List.getElem?_append_right hj, List.getElem?_eq_none hj, List.getElem?_singleton]
    split <;> simp [h]

theorem exists_target_iff : (∃ i ∈ code, i.target? = some l) ↔ ∃ c, .jump c l ∈ code := by
  constructor
  · rintro ⟨i, hi, hl⟩
    obtain ⟨c, rfl⟩ := Insn.target?_eq_some_iff.1 hl
    exact ⟨c, hi⟩
  · exact fun ⟨c, hc⟩ => ⟨_, hc, rfl⟩

end

namespace Buffer

/-- The table of placed labels is that of the code. -/
def Noted (b : Buffer) : Prop := b.placed.map Prod.fst = (MethodProbes.placed b.code).reverse

theorem keeps_noted : Keeps Noted where
  emit {b} i h := by
    have h : b.placed.map Prod.fst = (MethodProbes.placed b.code).reverse := h
    rw [Noted, code_emit, placed_append, List.reverse_append, ← h]
    cases i <;> rfl
  reserve _ h := h
  newLabel h := h

theorem Noted.position?_eq_none {b : Buffer} (h : b.Noted) {l : Label} :
    b.position? l = none ↔ .label l ∉ b.code := by
  rw [position?, List.lookup_eq_none_iff, ← mem_placed, ← List.mem_reverse, ← h, List.mem_map]
  constructor
  · rintro hall ⟨p, hp, rfl⟩
    exact bne_iff_ne.1 (hall p hp) rfl
  · exact fun hno p hp => bne_iff_ne.2 fun he => hno ⟨p, hp, he.symm⟩

theorem position?_emit (b : Buffer) (i : Insn) (l : Label) :
    (b.emit i).position? l = if i = .label l then some b.code.length else b.position? l := by
  cases i with
  | label k =>
    simp only [position?, emit, SortedMap.lookup_cons, Insn.label.injEq, eq_comm, code, Array.length_toList]
  | _ => rfl

/-- Where a label is noted, the code places it for the last time. -/
def NotesLast (b : Buffer) : Prop :=
  ∀ l i, b.position? l = some i → IsGreatest (placesOf b.code l) i

theorem keeps_notesLast : Keeps NotesLast where
  emit {b} i h l n hn := by
    rw [position?_emit] at hn
    rw [code_emit]
    split at hn
    next hi =>
      obtain rfl := Option.some.inj hn
      exact hi ▸ isGreatest_placesOf_concat b.code l
    next hi =>
      rw [placesOf_concat hi]
      exact h l n hn
  reserve _ h := h
  newLabel h := h

/-- The last place of a label is noted, and no other one is. -/
theorem position?_eq_some_iff {b : Buffer} (hnoted : b.Noted) (hlast : b.NotesLast) {l : Label} {i : Nat} :
    b.position? l = some i ↔ IsGreatest (placesOf b.code l) i := by
  refine ⟨hlast l i, fun hi => ?_⟩
  have hmem : .label l ∈ b.code := List.mem_of_getElem? hi.1
  have hsome : b.position? l ≠ none := fun hnone => hnoted.position?_eq_none.1 hnone hmem
  obtain ⟨k, hk⟩ := Option.ne_none_iff_exists'.1 hsome
  rw [hk, (hlast l k hk).unique hi]

theorem mem_insertSorted {l k : Label} {ls : List Label} :
    k ∈ l.insertSorted ls ↔ k = l ∨ k ∈ ls := by
  induction ls with
  | nil => exact List.mem_singleton.trans (or_iff_left List.not_mem_nil).symm
  | cons m ls ih =>
    rw [Label.insertSorted]
    split
    · exact List.mem_cons
    · split
      next h => simp [h]
      next => rw [List.mem_cons, List.mem_cons, ih, or_left_comm]

theorem mem_dangling {b : Buffer} (h : b.Noted) {l : Label} :
    l ∈ b.dangling ↔ (∃ i ∈ b.code, i.target? = some l) ∧ .label l ∉ b.code := by
  have hfold (ls : List Label) : l ∈ ls.foldr Label.insertSorted [] ↔ l ∈ ls := by
    induction ls with
    | nil => rfl
    | cons k ls ih => rw [List.foldr_cons, mem_insertSorted, ih, List.mem_cons]
  rw [dangling, hfold, List.mem_filter, List.mem_filterMap, Option.isNone_iff_eq_none,
    h.position?_eq_none]

/-- Labels go where the order asks for them, and a label that is there already is not added. -/
theorem pairwise_insertSorted (l : Label) {ls : List Label} (h : ls.Pairwise (·.id < ·.id)) :
    (l.insertSorted ls).Pairwise (·.id < ·.id) := by
  induction ls with
  | nil => exact List.pairwise_singleton _ _
  | cons m ls ih =>
    obtain ⟨hm, hls⟩ := List.pairwise_cons.1 h
    rw [Label.insertSorted]
    split
    next hlt =>
      refine List.pairwise_cons.2 ⟨List.forall_mem_cons.2 ⟨hlt, fun k hk => ?_⟩, h⟩
      exact Nat.lt_trans hlt (hm k hk)
    next hle =>
      split
      next => exact h
      next hne =>
        have hlt : m.id < l.id :=
          Nat.lt_of_le_of_ne (Nat.not_lt.1 hle) fun hid => hne (by cases l; cases m; cases hid; rfl)
        refine List.pairwise_cons.2 ⟨fun k hk => ?_, ih hls⟩
        rcases mem_insertSorted.1 hk with rfl | hk
        · exact hlt
        · exact hm k hk

theorem pairwise_dangling (b : Buffer) : b.dangling.Pairwise (·.id < ·.id) := by
  rw [dangling]
  generalize (b.code.filterMap Insn.target?).filter _ = ls
  induction ls with
  | nil => exact .nil
  | cons l ls ih => exact pairwise_insertSorted l ih

structure LabelsInStep (written : List Insn) (b : Buffer) : Prop where
  code : b.code = written
  /-- The position of a label is the last place at which the code has it. -/
  position : ∀ l i, b.position? l = some i ↔ IsGreatest (placesOf b.code l) i
  unplaced : ∀ l, b.position? l = none ↔ placesOf b.code l = ∅
  increasing : b.dangling.Pairwise (·.id < ·.id)
  dangling : ∀ l, l ∈ b.dangling ↔ (∃ c, .jump c l ∈ b.code) ∧ .label l ∉ b.code

/-- Whatever a buffer is asked for, and whether or not the labels are its own: it knows the last place of each
label in its code, and the labels that dangle are those that the code jumps to and does not place. -/
theorem labels_of_operations (firstSlot : UInt16) (ops : List Operation) :
    ((empty firstSlot).performAll ops).LabelsInStep ((empty firstSlot).writes ops) := by
  have hnoted := keeps_noted.performAll (b := .empty firstSlot) rfl ops
  have hlast := keeps_notesLast.performAll (b := .empty firstSlot) nofun ops
  exact
    { code := code_performAll _ ops
      position := fun _ _ => position?_eq_some_iff hnoted hlast
      unplaced := fun _ => hnoted.position?_eq_none.trans placesOf_eq_empty_iff.symm
      increasing := pairwise_dangling _
      dangling := fun _ => (mem_dangling hnoted).trans (and_congr_left' exists_target_iff) }

/-- A label that is placed twice has its position at the second place, and labels that were never handed out
dangle in order. -/
theorem labels_of_operations_placedTwice :
    let code : List Insn := [.jump .always ⟨0⟩, .label ⟨0⟩, .jump .ifZero ⟨9⟩, .label ⟨0⟩, .jump .ifLess ⟨3⟩,
      .jump .always ⟨9⟩]
    let b := (empty 0).performAll (.newLabel :: code.map .emit)
    b.LabelsInStep code ∧ IsGreatest (placesOf code ⟨0⟩) 3 ∧ placesOf code ⟨9⟩ = ∅ ∧
      b.dangling = [⟨3⟩, ⟨9⟩] := by
  intro code b
  have h : b.LabelsInStep code := labels_of_operations 0 (.newLabel :: code.map .emit)
  exact ⟨h, (h.position ⟨0⟩ 3).1 (by decide), (h.unplaced ⟨9⟩).1 (by decide), by decide⟩

end Buffer

end MethodProbes
