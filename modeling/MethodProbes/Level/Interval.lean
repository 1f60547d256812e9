/-!
# Level intervals

A marker declares the levels at which its code runs as a closed interval of 32-bit integers.  The
least and the greatest integer stand for an open end.
-/
namespace MethodProbes

/-- The levels from `lo` to `hi`; there are none if `hi < lo`. -/
structure Interval where
  lo : Int32
  hi : Int32
  deriving DecidableEq

namespace Interval

instance : Membership Int32 Interval := ⟨fun i v => i.lo ≤ v ∧ v ≤ i.hi⟩

theorem mem_def {i : Interval} {v : Int32} : v ∈ i ↔ i.lo ≤ v ∧ v ≤ i.hi := Iff.rfl

instance (i : Interval) (v : Int32) : Decidable (v ∈ i) :=
  inferInstanceAs (Decidable (i.lo ≤ v ∧ v ≤ i.hi))

def all : Interval := ⟨Int32.minValue, Int32.maxValue⟩

def empty : Interval := ⟨Int32.maxValue, Int32.minValue⟩

def exact (v : Int32) : Interval := ⟨v, v⟩

def atLeast (v : Int32) : Interval := ⟨v, Int32.maxValue⟩

def atMost (v : Int32) : Interval := ⟨Int32.minValue, v⟩

def above (v : Int32) : Interval :=
  if v = Int32.maxValue then empty else atLeast (v + 1)

def below (v : Int32) : Interval :=
  if v = Int32.minValue then empty else atMost (v - 1)

def isEmpty (i : Interval) : Bool := i.hi < i.lo

def isAll (i : Interval) : Bool := i == all

def text (i : Interval) : String :=
  if i.isEmpty then "none"
  else
    let lo := if i.lo = Int32.minValue then "-inf" else s!"{i.lo.toInt}"
    let hi := if i.hi = Int32.maxValue then "+inf" else s!"{i.hi.toInt}"
    s!"[{lo}, {hi}]"

theorem not_mem_of_isEmpty {i : Interval} (h : i.isEmpty = true) (v : Int32) : v ∉ i := by
  simp only [isEmpty, decide_eq_true_eq, Int32.lt_iff_toInt_lt] at h
  simp only [mem_def, Int32.le_iff_toInt_le]
  omega

@[simp] theorem mem_all (v : Int32) : v ∈ all :=
  mem_def.2 ⟨Int32.minValue_le v, Int32.le_maxValue v⟩

@[simp] theorem mem_exact {v w : Int32} : w ∈ exact v ↔ w = v := by
  simp only [mem_def, exact, Int32.le_iff_toInt_le, ← Int32.toInt_inj]
  omega

@[simp] theorem mem_atLeast {v w : Int32} : w ∈ atLeast v ↔ v ≤ w := by
  simp [mem_def, atLeast, Int32.le_maxValue]

@[simp] theorem mem_atMost {v w : Int32} : w ∈ atMost v ↔ w ≤ v := by
  simp [mem_def, atMost, Int32.minValue_le]

end Interval

end MethodProbes
