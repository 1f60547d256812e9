import MethodProbes.SortedMap

/-!
# Sampling counters

Each sampled method has a counter that starts from its mean.  All methods share one table.
-/
namespace MethodProbes

structure Registration where
  methodId : Nat
  mean : Nat
  deriving DecidableEq, Repr

abbrev Counters := SortedMap Nat Nat

namespace Counters

/-- The first registration of an id counts, and repeating it is harmless. -/
def register (c : Counters) (r : Registration) : Counters :=
  c.insertIfNew r.methodId r.mean

def registerAll (c : Counters) (rs : List Registration) : Counters :=
  rs.foldl register c

@[simp] theorem registerAll_nil (c : Counters) : c.registerAll [] = c := rfl

theorem registerAll_append (c : Counters) (rs ss : List Registration) :
    c.registerAll (rs ++ ss) = (c.registerAll rs).registerAll ss :=
  List.foldl_append

theorem get?_register (c : Counters) (r : Registration) (id : Nat) :
    (c.register r).get? id =
      if id = r.methodId then some ((c.get? id).getD r.mean) else c.get? id := by
  rw [register, SortedMap.get?_insertIfNew]
  split
  next h => rw [h]
  next => rfl

/-- An id keeps the mean that it has, or gets that of its first registration. -/
theorem get?_registerAll (c : Counters) (rs : List Registration) (id : Nat) :
    (c.registerAll rs).get? id =
      (c.get? id).or ((rs.find? (·.methodId = id)).map (·.mean)) := by
  induction rs generalizing c with
  | nil => simp
  | cons r rs ih =>
    rw [registerAll, List.foldl_cons]
    refine (ih (c.register r)).trans ?_
    rw [get?_register]
    by_cases h : id = r.methodId
    · subst h
      cases c.get? r.methodId <;> simp
    · simp [h, Ne.symm h]

end Counters

end MethodProbes
