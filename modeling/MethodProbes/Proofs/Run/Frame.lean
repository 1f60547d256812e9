import MethodProbes.Proofs.Expansion.Growth
import MethodProbes.Proofs.Machine.Pass

/-!
# What a run leaves alone

The code of a marker stores into the slots of variables only, so a run changes no word of the memory but
those of variables that change.
-/
namespace MethodProbes

open Step Machine

theorem Memory.set_of_not_covers {σ : Layout} {v : Var} {c : Const} (m : Memory)
    (hc : c.type = v.type) {j : Nat} (hj : ¬ (σ.slot v).Covers v.type j) : m.set σ v c j = m j :=
  m.write_of_not_covers (hc.trans v.carrier_type.symm) hj

namespace Context

variable {x : Context} {w : World} {σ : Layout} {k : Marker} {s t : Machine}

/-- The code of a marker changes a word only if the word belongs to a variable that it stores and that
changes. -/
theorem memory_steps (h : exec w (written σ (x.steps k)) s = some t) {j : Nat}
    (hj : ∀ v, .store v ∈ x.steps k → (σ.slot v).Covers v.type j →
      t.memory.get σ v = s.memory.get σ v) : t.memory j = s.memory j := by
  by_cases hv : ∃ v, .store v ∈ x.steps k ∧ (σ.slot v).Covers v.type j
  · obtain ⟨v, hs, hv⟩ := hv
    exact Memory.read_eq_iff.1 (hj v hs hv) j hv
  · refine memory_exec h fun ty r hr hcovers => hv ?_
    obtain ⟨v, hs, rfl, rfl⟩ := exists_store_of_mem_written (x.bare_steps k) hr
    exact ⟨v, hs, hcovers⟩

theorem get_of_not_stored (h : exec w (written σ (x.steps k)) s = some t) {v : Var}
    (hv : .store v ∉ x.steps k) : t.memory.get σ v = s.memory.get σ v := by
  refine read_exec h fun ty r hr => ?_
  obtain ⟨u, hu, rfl, rfl⟩ := exists_store_of_mem_written (x.bare_steps k) hr
  exact σ.apart u v fun huv => hv (huv ▸ hu)

theorem memory_eq_of_kept (h : exec w (written σ (x.steps k)) s = some t)
    (hkept : ∀ v, .store v ∈ x.steps k → t.memory.get σ v = s.memory.get σ v) :
    t.memory = s.memory :=
  funext fun _ => memory_steps h fun v hs _ => hkept v hs

/-- If all variables but one are kept, then the memory is that with a store into this one. -/
theorem memory_eq_set (h : exec w (written σ (x.steps k)) s = some t) {u : Var} {c : Const}
    (hc : c.type = u.type) (hu : t.memory.get σ u = c)
    (hkept : ∀ v, .store v ∈ x.steps k → v ≠ u → t.memory.get σ v = s.memory.get σ v) :
    t.memory = s.memory.set σ u c := by
  funext j
  by_cases hj : (σ.slot u).Covers u.type j
  · refine Memory.read_eq_iff.1 (hu.trans ?_) j hj
    exact ((Memory.get_set s.memory σ hc).trans (if_pos rfl)).symm
  · rw [Memory.set_of_not_covers _ hc hj]
    refine memory_steps h fun v hs hv => hkept v hs ?_
    rintro rfl
    exact hj hv

end Context

end MethodProbes
