/-!
# Finite maps in key order

The entries of a map are listed by strictly increasing key, so maps with the same look-ups are
equal, and a listing of the entries needs no further sorting.
-/
namespace MethodProbes

structure SortedMap (κ ν : Type) [LT κ] where
  entries : List (κ × ν)
  increasing : entries.Pairwise (fun p q => p.1 < q.1) := by exact .nil
  deriving DecidableEq

namespace SortedMap

variable {κ ν : Type} [LT κ] [DecidableEq κ]

def empty : SortedMap κ ν := ⟨[], .nil⟩

def get? (m : SortedMap κ ν) (k : κ) : Option ν := m.entries.lookup k

def contains (m : SortedMap κ ν) (k : κ) : Bool := (m.get? k).isSome

def size (m : SortedMap κ ν) : Nat := m.entries.length

@[simp] theorem get?_empty (k : κ) : (empty : SortedMap κ ν).get? k = none := rfl

theorem lookup_cons {κ ν : Type} [DecidableEq κ] (j k : κ) (v : ν) (es : List (κ × ν)) :
    ((j, v) :: es).lookup k = if k = j then some v else es.lookup k := by
  by_cases h : k = j <;> simp [List.lookup_cons, h, beq_eq_false_iff_ne.2]

variable [DecidableLT κ]

/-- Gives `k` the value that `f` makes of its old value, at the place that the order asks for. -/
def alterEntries (k : κ) (f : Option ν → ν) : List (κ × ν) → List (κ × ν)
  | [] => [(k, f none)]
  | (j, v) :: es =>
    if k < j then (k, f none) :: (j, v) :: es
    else if k = j then (k, f (some v)) :: es
    else (j, v) :: alterEntries k f es

theorem mem_alterEntries {k : κ} {f : Option ν → ν} {es : List (κ × ν)} {p : κ × ν}
    (h : p ∈ alterEntries k f es) : p.1 = k ∨ p ∈ es := by
  induction es with
  | nil => simp_all [alterEntries]
  | cons e es ih =>
    simp only [alterEntries] at h
    split at h
    · simp only [List.mem_cons] at h ⊢
      rcases h with rfl | h
      · exact .inl rfl
      · exact .inr h
    · split at h <;> simp only [List.mem_cons] at h ⊢ <;> rcases h with rfl | h
      · exact .inl rfl
      · exact .inr (.inr h)
      · exact .inr (.inl rfl)
      · exact (ih h).imp id .inr

variable [LE κ] [Std.IsLinearOrder κ] [Std.LawfulOrderLT κ]

theorem pairwise_alterEntries {k : κ} {f : Option ν → ν} {es : List (κ × ν)}
    (h : es.Pairwise fun p q => p.1 < q.1) :
    (alterEntries k f es).Pairwise fun p q => p.1 < q.1 := by
  induction es with
  | nil => simp [alterEntries]
  | cons e es ih =>
    have ht := List.pairwise_cons.1 h
    simp only [alterEntries]
    split
    next hk =>
      refine List.pairwise_cons.2 ⟨fun p hp => ?_, h⟩
      rcases List.mem_cons.1 hp with rfl | hp
      · exact hk
      · exact Std.lt_trans hk (ht.1 p hp)
    next hk =>
      split
      next he => exact List.pairwise_cons.2 ⟨fun p hp => he ▸ ht.1 p hp, ht.2⟩
      next he =>
        refine List.pairwise_cons.2 ⟨fun p hp => ?_, ih ht.2⟩
        rcases mem_alterEntries hp with rfl | hp
        · exact Std.lt_of_le_of_ne (Std.not_lt.1 hk) (Ne.symm he)
        · exact ht.1 p hp

def alter (m : SortedMap κ ν) (k : κ) (f : Option ν → ν) : SortedMap κ ν :=
  ⟨alterEntries k f m.entries, pairwise_alterEntries m.increasing⟩

def insert (m : SortedMap κ ν) (k : κ) (v : ν) : SortedMap κ ν := m.alter k fun _ => v

def insertIfNew (m : SortedMap κ ν) (k : κ) (v : ν) : SortedMap κ ν := m.alter k (·.getD v)

def ofList (es : List (κ × ν)) : SortedMap κ ν :=
  es.foldl (fun m p => m.insert p.1 p.2) empty

theorem lookup_eq_none {κ ν : Type} [LE κ] [LT κ] [DecidableEq κ] [Std.LawfulOrderLT κ]
    {k : κ} {es : List (κ × ν)} (h : ∀ p ∈ es, k < p.1) :
    es.lookup k = none := by
  induction es with
  | nil => rfl
  | cons e es ih =>
    obtain ⟨j, v⟩ := e
    have hj : k ≠ j := fun hk => Std.lt_irrefl (a := k) (by simpa [← hk] using h (j, v) (by simp))
    rw [lookup_cons, if_neg hj, ih fun p hp => h p (by simp [hp])]

theorem lookup_alterEntries (k j : κ) (f : Option ν → ν) {es : List (κ × ν)}
    (h : es.Pairwise fun p q => p.1 < q.1) :
    (alterEntries k f es).lookup j = if j = k then some (f (es.lookup k)) else es.lookup j := by
  induction es with
  | nil => rw [alterEntries, lookup_cons]; rfl
  | cons e es ih =>
    obtain ⟨i, v⟩ := e
    have ht := List.pairwise_cons.1 h
    simp only [alterEntries]
    split
    next hk =>
      have hn : ((i, v) :: es).lookup k = none := lookup_eq_none fun p hp => by
        rcases List.mem_cons.1 hp with rfl | hp
        · exact hk
        · exact Std.lt_trans hk (ht.1 p hp)
      rw [hn, lookup_cons]
    next hk =>
      split
      next he =>
        subst he
        simp only [lookup_cons, if_true]
        split <;> rfl
      next he =>
        simp only [lookup_cons, ih ht.2, if_neg he]
        by_cases hj : j = i
        · simp [hj, Ne.symm he]
        · simp [hj]

theorem get?_alter (m : SortedMap κ ν) (k j : κ) (f : Option ν → ν) :
    (m.alter k f).get? j = if j = k then some (f (m.get? k)) else m.get? j :=
  lookup_alterEntries k j f m.increasing

@[simp] theorem get?_insert (m : SortedMap κ ν) (k j : κ) (v : ν) :
    (m.insert k v).get? j = if j = k then some v else m.get? j :=
  m.get?_alter k j _

@[simp] theorem get?_insertIfNew (m : SortedMap κ ν) (k j : κ) (v : ν) :
    (m.insertIfNew k v).get? j = if j = k then some ((m.get? k).getD v) else m.get? j :=
  m.get?_alter k j _

omit [DecidableLT κ] [Std.IsLinearOrder κ] in
/-- The entries list every key that has a value, with its value. -/
theorem mem_entries (m : SortedMap κ ν) {k : κ} {v : ν} :
    (k, v) ∈ m.entries ↔ m.get? k = some v := by
  obtain ⟨es, h⟩ := m
  rw [get?]
  dsimp only
  induction es with
  | nil => simp
  | cons e es ih =>
    obtain ⟨j, w⟩ := e
    obtain ⟨hlt, h⟩ := List.pairwise_cons.1 h
    rw [List.mem_cons, ih h, lookup_cons]
    split
    next hk =>
      subst hk
      rw [lookup_eq_none hlt]
      simp [eq_comm]
    next hk => simp [hk]

end SortedMap

end MethodProbes
