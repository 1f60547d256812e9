import Mathlib.Data.List.Sort
import MethodProbes.SortedMap

/-!
# Maps by their look-ups

A map lists its entries in one order only, so it is determined by what it answers for each key.
-/
namespace MethodProbes

namespace SortedMap

variable {κ ν : Type} [LT κ] [DecidableEq κ]

def erase (m : SortedMap κ ν) (k : κ) : SortedMap κ ν :=
  ⟨m.entries.filter fun p => p.1 ≠ k, m.increasing.filter _⟩

variable [LE κ] [Std.LawfulOrderLT κ]

theorem get?_erase (m : SortedMap κ ν) (k j : κ) :
    (m.erase k).get? j = if j = k then none else m.get? j := by
  ext v
  rw [← mem_entries, erase, List.mem_filter, mem_entries]
  split
  next h => simp [h]
  next h => simp [h]

theorem eq_of_get?_eq {m n : SortedMap κ ν} (h : ∀ k, m.get? k = n.get? k) : m = n := by
  have hasymm : Std.Asymm fun p q : κ × ν => p.1 < q.1 := ⟨fun _ _ => Std.not_gt_of_lt⟩
  have hentries : m.entries = n.entries :=
    m.increasing.eq_of_mem_iff n.increasing fun p => by rw [m.mem_entries, n.mem_entries, h]
  cases m
  cases n
  cases hentries
  rfl

end SortedMap

end MethodProbes
