import MethodProbes.Proofs.Expansion.Written
import MethodProbes.Proofs.Machine.Pass

/-!
# Gate code

Gate code stores nothing but the level, places only labels of its own, and jumps forward to them or
to its skip label.
-/
namespace MethodProbes

open Step

namespace Gate

variable {σ : Layout}

/-- What gate code consists of: its labels are those with numbers from `lo` up to `hi`, and its
jumps go there or to the skip label. -/
inductive GateInsn (σ : Layout) (skip : Label) (lo hi : Nat) : Insn → Prop
  | load : GateInsn σ skip lo hi (.load .int (σ.slot .level))
  | readLevel (field : String) : GateInsn σ skip lo hi (.readLevel field)
  | dup : GateInsn σ skip lo hi (.dup .int)
  | store : GateInsn σ skip lo hi (.store .int (σ.slot .level))
  | push (v : Int32) : GateInsn σ skip lo hi (.push (.int v))
  | jump (c : Cond) {l : Label} (h : l = skip ∨ lo ≤ l.id ∧ l.id < hi) :
    GateInsn σ skip lo hi (.jump c l)
  | label {l : Label} (h : lo ≤ l.id ∧ l.id < hi) : GateInsn σ skip lo hi (.label l)
  | frame (l : Label) : GateInsn σ skip lo hi (.frame l)

theorem GateInsn.mono {skip : Label} {lo hi lo' hi' : Nat} {i : Insn}
    (h : GateInsn σ skip lo hi i) (hlo : lo' ≤ lo) (hhi : hi ≤ hi') :
    GateInsn σ skip lo' hi' i := by
  cases h with
  | jump c h => exact .jump c (h.imp id fun h => by omega)
  | label h => exact .label (by omega)
  | _ => constructor

theorem gateInsn_of_mem_test {field : String} {bound : Bool} {n : Int32} {c d : Cond}
    {skip l : Label} {lo hi : Nat} {i : Insn} (hl : l = skip ∨ lo ≤ l.id ∧ l.id < hi)
    (h : i ∈ written σ (pushLevel field bound ++ compare n c d l)) : GateInsn σ skip lo hi i := by
  have hpush {i : Insn} (h : i ∈ written σ (pushLevel field bound)) :
      GateInsn σ skip lo hi i := by
    cases bound with
    | true =>
      obtain rfl := List.mem_singleton.1 h
      exact .load
    | false =>
      rcases List.mem_cons.1 h with rfl | h
      · exact .readLevel field
      rcases List.mem_cons.1 h with rfl | h
      · exact .dup
      · obtain rfl := List.mem_singleton.1 h
        exact .store
  rw [written_append, List.mem_append] at h
  rcases h with h | h
  · exact hpush h
  · rw [compare] at h
    split at h
    · obtain rfl := List.mem_singleton.1 h
      exact .jump c hl
    · rcases List.mem_cons.1 h with rfl | h
      · exact .push n
      · obtain rfl := List.mem_singleton.1 h
        exact .jump d hl

theorem gateInsn_of_mem_checkSteps {field : String} {bound : Bool} {skip : Label} {n : Nat}
    {cs : List Check} {i : Insn} (h : i ∈ written σ (checkSteps field skip ⟨n⟩ bound cs)) :
    GateInsn σ skip n (n + 1) i := by
  induction cs generalizing bound with
  | nil => cases h
  | cons k cs ih =>
    cases k with
    | nextIfBelow b =>
      rw [checkSteps, written_append, List.mem_append] at h
      exact h.elim (gateInsn_of_mem_test (.inr ⟨Nat.le_refl n, Nat.lt_succ_self n⟩)) ih
    | skipIfAtMost b =>
      rw [checkSteps, written_append, List.mem_append] at h
      exact h.elim (gateInsn_of_mem_test (.inl rfl)) ih
    | skip =>
      rcases List.mem_cons.1 h with rfl | h
      · exact .jump _ (.inl rfl)
      · exact ih h

theorem label_notMem_test {field : String} {bound : Bool} {n : Int32} {c d : Cond}
    {l k : Label} : .label k ∉ written σ (pushLevel field bound ++ compare n c d l) := fun h => by
  have hi : GateInsn σ l 0 0 (.label k) := gateInsn_of_mem_test (.inl rfl) h
  cases hi with
  | label h => omega

theorem label_notMem_checkSteps {field : String} {bound : Bool} {skip next l : Label}
    {cs : List Check} : .label l ∉ written σ (checkSteps field skip next bound cs) := by
  induction cs generalizing bound with
  | nil => exact List.not_mem_nil
  | cons k cs ih =>
    cases k with
    | skip => exact List.not_mem_cons_of_ne_of_not_mem (by simp) ih
    | _ =>
      rw [checkSteps, written_append]
      exact List.not_mem_append label_notMem_test ih

theorem written_rangeSteps_cons (field : String) (skip : Label) (bound : Bool) (n : Nat)
    (r : SkipRange) (rs : List SkipRange) :
    written σ (rangeSteps field skip bound n (r :: rs)) =
      written σ (checkSteps field skip ⟨n⟩ bound r.checks ++ merge ⟨n⟩) ++
        written σ (rangeSteps field skip (bound || r.comparesLevel) (n + 1) rs) := by
  simp [rangeSteps, insns]

theorem gateInsn_of_mem_range {field : String} {bound : Bool} {skip : Label} {n : Nat}
    {cs : List Check} {i : Insn}
    (h : i ∈ written σ (checkSteps field skip ⟨n⟩ bound cs ++ merge ⟨n⟩)) :
    GateInsn σ skip n (n + 1) i := by
  rw [written_append, List.mem_append] at h
  rcases h with h | h
  · exact gateInsn_of_mem_checkSteps h
  · rcases List.mem_cons.1 h with rfl | h
    · exact .label ⟨Nat.le_refl n, Nat.lt_succ_self n⟩
    · obtain rfl := List.mem_singleton.1 h
      exact .frame _

theorem gateInsn_of_mem {field : String} {bound : Bool} {skip : Label} {n : Nat}
    {rs : List SkipRange} {i : Insn} (h : i ∈ written σ (rangeSteps field skip bound n rs)) :
    GateInsn σ skip n (n + rs.length) i := by
  induction rs generalizing bound n with
  | nil => cases h
  | cons r rs ih =>
    rw [written_rangeSteps_cons, List.mem_append] at h
    rcases h with h | h
    · exact (gateInsn_of_mem_range h).mono (Nat.le_refl n) (by simp)
    · exact (ih h).mono (Nat.le_succ n) (by simp; omega)

theorem forward_rangeSteps {field : String} {bound : Bool} {skip : Label} {n : Nat}
    {rs : List SkipRange} (hskip : ∀ j, n ≤ j → skip ≠ ⟨j⟩) :
    Forward (written σ (rangeSteps field skip bound n rs)) := by
  induction rs generalizing bound n with
  | nil => exact .nil
  | cons r rs ih =>
    rw [written_rangeSteps_cons]
    refine .append ?_ (ih fun j hj => hskip j (by omega)) fun l hl i hi ht => ?_
    · rw [written_append]
      exact .append (.of_no_label fun _ => label_notMem_checkSteps)
        (.of_no_jump (by simp [Insn.target?])) (by simp [Insn.target?])
    · have hlabel : n ≤ l.id ∧ l.id < n + 1 := by
        cases gateInsn_of_mem_range hl with
        | label h => exact h
      cases gateInsn_of_mem hi with
      | jump c hk =>
        cases ht
        rcases hk with rfl | hk
        · exact hskip l.id hlabel.1 rfl
        · omega
      | _ => cases ht

/-- A first range with a bound asks the world for the level before anything else. -/
theorem exists_readLevel_cons {field : String} {skip : Label} {n : Nat} {rs : List SkipRange}
    (h : rs.head?.any SkipRange.comparesLevel = true) :
    ∃ code, written σ (rangeSteps field skip false n rs) = .readLevel field :: code := by
  cases rs with
  | nil => cases h
  | cons r rs =>
    obtain ⟨_ | lo, _ | hi⟩ := r
    · cases h
    all_goals exact ⟨_, rfl⟩

end Gate

end MethodProbes
