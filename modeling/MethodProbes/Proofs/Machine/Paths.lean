import MethodProbes.Proofs.Machine.Pass

/-!
# Paths through code

In the control flow graph of code a conditional jump goes both ways, whatever its operands are.  A
path begins at the first instruction, and ends at a jump to a label that is placed nowhere.  Where
all jumps go forward, paths do too.
-/
namespace MethodProbes

/-- Control may pass from the instruction at index `i` to index `j`. -/
inductive Flows (code : List Insn) (i : Nat) : Nat → Prop
  | next {insn : Insn} (here : code[i]? = some insn) (falls : ∀ l, insn ≠ .jump .always l) :
    Flows code i (i + 1)
  | leap {c : Cond} {l : Label} {j : Nat} (here : code[i]? = some (.jump c l))
    (there : code[j]? = some (.label l)) : Flows code i j

/-- The indices that a path has come to, the latest first. -/
inductive Path (code : List Insn) : List Nat → Prop
  | start : Path code [0]
  | step {i j : Nat} {is : List Nat} (path : Path code (i :: is)) (flow : Flows code i j) :
    Path code (j :: i :: is)

section
variable {code : List Insn} {i j : Nat} {is : List Nat}

theorem flows_iff : Flows code i j ↔ ∃ insn ∈ code[i]?,
    j = i + 1 ∧ (∀ l, insn ≠ .jump .always l) ∨
      ∃ l ∈ insn.target?, code[j]? = some (.label l) := by
  constructor
  · rintro (⟨here, falls⟩ | ⟨here, there⟩)
    · exact ⟨_, here, .inl ⟨rfl, falls⟩⟩
    · exact ⟨_, here, .inr ⟨_, rfl, there⟩⟩
  · rintro ⟨insn, here, ⟨rfl, falls⟩ | ⟨l, hl, there⟩⟩
    · exact .next here falls
    · cases insn with
      | jump c k =>
        cases hl
        exact .leap here there
      | _ => cases hl

theorem path_cons_cons : Path code (j :: i :: is) ↔ Path code (i :: is) ∧ Flows code i j :=
  ⟨fun | .step path flow => ⟨path, flow⟩, fun h => .step h.1 h.2⟩

instance decidableFalls : (i : Insn) → Decidable (∀ l, i ≠ .jump .always l)
  | .jump .always l => isFalse fun h => h l rfl
  | .jump .ifZero _ | .jump .ifNegative _ | .jump .ifNonPositive _ | .jump .ifLess _
  | .jump .ifLessOrEqual _ | .push _ | .load _ _ | .store _ _ | .dup _ | .longToInt | .sub _
  | .readLevel _ | .invoke _ | .label _ | .frame _ => isTrue nofun

instance : Decidable (Flows code i j) := decidable_of_iff _ flows_iff.symm

instance decidablePath (code : List Insn) : (is : List Nat) → Decidable (Path code is)
  | [] => isFalse nofun
  | [i] => decidable_of_iff (i = 0) ⟨fun h => h ▸ .start, fun | .start => rfl⟩
  | _ :: i :: is =>
    have := decidablePath code (i :: is)
    decidable_of_iff _ path_cons_cons.symm

theorem Forward.lt_of_jump (hf : Forward code) {c : Cond} {l : Label}
    (hi : code[i]? = some (.jump c l)) (hj : code[j]? = some (.label l)) : i < j := by
  obtain ⟨hi, hjump⟩ := List.getElem?_eq_some_iff.1 hi
  obtain ⟨hj, hlabel⟩ := List.getElem?_eq_some_iff.1 hj
  rcases Nat.lt_trichotomy i j with hlt | rfl | hgt
  · exact hlt
  · cases hjump.symm.trans hlabel
  · have hno := List.pairwise_iff_getElem.1 hf j i hj hi hgt l hlabel
    exact absurd (by rw [hjump]; rfl) hno

theorem Forward.of_lt (h : ∀ (i j : Nat) (c : Cond) (l : Label), code[i]? = some (.jump c l) →
    code[j]? = some (.label l) → i < j) : Forward code := by
  refine List.pairwise_iff_getElem.2 fun i j hi hj hij l hl ht => ?_
  obtain ⟨c, hc⟩ := Insn.target?_eq_some_iff.1 ht
  have hlt := h j i c l (List.getElem?_eq_some_iff.2 ⟨hj, hc⟩) (List.getElem?_eq_some_iff.2 ⟨hi, hl⟩)
  exact Nat.lt_asymm hij hlt

theorem Flows.lt (hf : Forward code) (h : Flows code i j) : i < j ∧ j ≤ code.length := by
  cases h with
  | next here => exact ⟨Nat.lt_succ_self i, (List.getElem?_eq_some_iff.1 here).1⟩
  | leap here there =>
    exact ⟨hf.lt_of_jump here there, Nat.le_of_lt (List.getElem?_eq_some_iff.1 there).1⟩

/-- A path comes to a place after no more steps than there are instructions before it. -/
theorem Path.length_le_head (hf : Forward code) {i : Nat} {is : List Nat} :
    Path code (i :: is) → is.length ≤ i ∧ i ≤ code.length
  | .start => ⟨Nat.le_refl 0, Nat.zero_le _⟩
  | .step path flow => by
    obtain ⟨hlt, hle⟩ := flow.lt hf
    exact ⟨Nat.lt_of_le_of_lt (path.length_le_head hf).1 hlt, hle⟩

theorem Path.length_le (hf : Forward code) (h : Path code is) : is.length ≤ code.length + 1 := by
  cases is with
  | nil => exact Nat.zero_le _
  | cons i is =>
    obtain ⟨hlen, hle⟩ := h.length_le_head hf
    exact Nat.succ_le_succ (Nat.le_trans hlen hle)

end

end MethodProbes
