import MethodProbes.Proofs.Machine.Paths

/-!
# Definite assignment

Code assigns a slot before it loads the slot if, in the order of the text, a store stands before
each load, and no jump goes over a store of a slot that nothing before the jump has stored.
-/
namespace MethodProbes

theorem getElem?_append_cases {α : Type} {a b : List α} {k : Nat} {x : α}
    (h : (a ++ b)[k]? = some x) :
    (k < a.length ∧ a[k]? = some x ∧ (a ++ b).take k = a.take k) ∨
      ∃ i, k = a.length + i ∧ b[i]? = some x ∧ (a ++ b).take k = a ++ b.take i := by
  rcases Nat.lt_or_ge k a.length with hk | hk
  · rw [List.getElem?_append_left hk] at h
    exact .inl ⟨hk, h, List.take_append_of_le_length (Nat.le_of_lt hk)⟩
  · obtain ⟨i, rfl⟩ := Nat.exists_eq_add_of_le hk
    rw [List.getElem?_append_right hk, Nat.add_sub_cancel_left] at h
    exact .inr ⟨i, rfl, h, List.take_length_add_append i⟩

structure Assigned (before code : List Insn) : Prop where
  load : ∀ k ty r, code[k]? = some (Insn.load ty r) → .store ty r ∈ before ++ code.take k
  jump : ∀ i j c l, code[i]? = some (Insn.jump c l) → code[j]? = some (Insn.label l) →
    ∀ ty r, .store ty r ∈ code.take j → .store ty r ∈ before ++ code.take i

namespace Assigned

variable {before a b code : List Insn}

theorem nil : Assigned before [] := ⟨nofun, nofun⟩

/-- Two parts of code.  Jumps from one part to the other need to be looked at on their own. -/
theorem append (ha : Assigned before a) (hb : Assigned (before ++ a) b) (hf : Forward (a ++ b))
    (hab : ∀ i j c l, a[i]? = some (Insn.jump c l) → b[j]? = some (Insn.label l) →
      ∀ ty r, .store ty r ∈ a ++ b.take j → .store ty r ∈ before ++ a.take i) :
    Assigned before (a ++ b) := by
  refine ⟨fun k ty r hk => ?_, fun i j c l hi hj ty r hr => ?_⟩
  · rcases getElem?_append_cases hk with ⟨-, hk, htake⟩ | ⟨k, rfl, hk, htake⟩
    · rw [htake]
      exact ha.load k ty r hk
    · rw [htake, ← List.append_assoc]
      exact hb.load k ty r hk
  · have hlt := hf.lt_of_jump hi hj
    rcases getElem?_append_cases hi with ⟨hlen, hi, htake⟩ | ⟨i, rfl, hi, htake⟩ <;>
      rcases getElem?_append_cases hj with ⟨hlen', hj, htake'⟩ | ⟨j, rfl, hj, htake'⟩
    · rw [htake]
      exact ha.jump i j c l hi hj ty r (htake' ▸ hr)
    · rw [htake]
      exact hab i j c l hi hj ty r (htake' ▸ hr)
    · omega
    · rw [htake, ← List.append_assoc]
      rw [htake', List.mem_append] at hr
      rcases hr with hr | hr
      · exact List.mem_append_left _ (List.mem_append_right _ hr)
      · exact hb.jump i j c l hi hj ty r hr

/-- What is stored before an instruction in the text is stored on every path to it. -/
theorem exists_store_of_mem_take (h : Assigned [] code) {k : Nat} {is : List Nat} {ty : ValueType}
    {r : Slot} (hr : .store ty r ∈ code.take k) :
    Path code (k :: is) → ∃ j ∈ is, code[j]? = some (.store ty r)
  | .start => absurd hr List.not_mem_nil
  | @Path.step _ i _ is path flow => by
    have hearlier (hr : .store ty r ∈ code.take i) :
        ∃ j ∈ i :: is, code[j]? = some (Insn.store ty r) := by
      obtain ⟨j, hj, hs⟩ := h.exists_store_of_mem_take hr path
      exact ⟨j, List.mem_cons_of_mem _ hj, hs⟩
    cases flow with
    | @next insn here =>
      rw [List.take_add_one, here, List.mem_append] at hr
      refine hr.elim hearlier fun hr => ?_
      obtain rfl := List.mem_singleton.1 hr
      exact ⟨i, List.mem_cons_self, here⟩
    | leap here there => exact hearlier (h.jump _ _ _ _ here there ty r hr)

/-- On every path a load reads a slot that a store before it has written. -/
theorem exists_store (h : Assigned [] code) {k : Nat} {is : List Nat} {ty : ValueType} {r : Slot}
    (path : Path code (k :: is)) (hk : code[k]? = some (.load ty r)) :
    ∃ j ∈ is, code[j]? = some (.store ty r) :=
  h.exists_store_of_mem_take (h.load k ty r hk) path

end Assigned

end MethodProbes
