import MethodProbes.Proofs.Level.Skips
import MethodProbes.Tracking.Basic

/-!
# The cycles of a body

Reset markers cut the markers of a body into cycles.  What the code of a cycle calls, reads and stores
depends on where its entries, its timed tests and its exits stand.
-/
namespace MethodProbes

namespace Marker

def isEntry (m : Marker) : Bool := m.kind = .entry

def isTimedTest (m : Marker) : Bool := m.kind = .test && m.hasTag .timed

theorem isEntry_eq_false {m : Marker} (h : m.kind ≠ .entry) : m.isEntry = false := decide_eq_false h

theorem isTimedTest_eq_false {m : Marker} (h : m.kind ≠ .test) : m.isTimedTest = false := by
  simp [isTimedTest, h]

end Marker

/-- The cycles of a list of markers: a reset stands between one and the next. -/
def cyclesOf (ms : List Marker) : List (List Marker) := ms.splitOnP fun m => m.kind = .reset

def hasEntry (ms : List Marker) : Bool := ms.any Marker.isEntry

def hasTimedTest (ms : List Marker) : Bool := ms.any Marker.isTimedTest

def measuresAfterEntry (ms : List Marker) : Bool :=
  hasTimedTest ms && hasEntry (ms.takeWhile fun m => !m.isTimedTest)

/-- Number of exits after the first entry. -/
def exitsAfterEntry (ms : List Marker) : Nat :=
  (ms.dropWhile fun m => !m.isEntry).countP fun m => m.kind = .exit

def Tracking.gatesIn (t : Tracking) (ms : List Marker) : Bool :=
  (t.timed || t.isSampled) && hasEntry ms || t.timed && !t.isSampled && hasTimedTest ms

section
variable (ms : List Marker) (m : Marker)

@[simp] theorem hasEntry_nil : hasEntry [] = false := rfl

@[simp] theorem hasEntry_concat : hasEntry (ms ++ [m]) = (hasEntry ms || m.isEntry) := by
  simp [hasEntry]

@[simp] theorem hasTimedTest_nil : hasTimedTest [] = false := rfl

@[simp] theorem hasTimedTest_concat :
    hasTimedTest (ms ++ [m]) = (hasTimedTest ms || m.isTimedTest) := by
  simp [hasTimedTest]

@[simp] theorem measuresAfterEntry_nil : measuresAfterEntry [] = false := rfl

theorem measuresAfterEntry_cons : measuresAfterEntry (m :: ms) =
    (!m.isTimedTest && if m.isEntry then hasTimedTest ms else measuresAfterEntry ms) := by
  cases hm : m.isTimedTest <;> cases he : m.isEntry <;>
    simp [measuresAfterEntry, hasTimedTest, hasEntry, hm, he]

theorem measuresAfterEntry_concat : measuresAfterEntry (ms ++ [m]) =
    (measuresAfterEntry ms || !hasTimedTest ms && hasEntry ms && m.isTimedTest) := by
  induction ms with
  | nil => simp [measuresAfterEntry_cons]
  | cons e ms ih =>
    have htest : hasTimedTest (e :: ms) = (e.isTimedTest || hasTimedTest ms) := rfl
    have hentry : hasEntry (e :: ms) = (e.isEntry || hasEntry ms) := rfl
    rw [List.cons_append, measuresAfterEntry_cons, measuresAfterEntry_cons, ih, htest, hentry,
      hasTimedTest_concat]
    cases e.isTimedTest <;> cases e.isEntry <;> cases hasTimedTest ms <;> simp

/-- Only the first timed test can add a measurement. -/
theorem toNat_measuresAfterEntry_concat : (measuresAfterEntry (ms ++ [m])).toNat =
    (measuresAfterEntry ms).toNat + (!hasTimedTest ms && hasEntry ms && m.isTimedTest).toNat := by
  rw [measuresAfterEntry_concat]
  cases ht : hasTimedTest ms with
  | true => simp
  | false => simp [measuresAfterEntry, ht]

@[simp] theorem exitsAfterEntry_nil : exitsAfterEntry [] = 0 := rfl

theorem exitsAfterEntry_cons : exitsAfterEntry (m :: ms) =
    if m.isEntry then ms.countP (fun m => m.kind = .exit) else exitsAfterEntry ms := by
  cases he : m.isEntry with
  | true =>
    have hexit : m.kind ≠ .exit := fun h => by simp [Marker.isEntry, h] at he
    simp [exitsAfterEntry, he, hexit]
  | false => simp [exitsAfterEntry, he]

theorem exitsAfterEntry_concat : exitsAfterEntry (ms ++ [m]) =
    exitsAfterEntry ms + (hasEntry ms && m.kind = .exit).toNat := by
  induction ms with
  | nil => simp [exitsAfterEntry_cons]
  | cons e ms ih =>
    have hentry : hasEntry (e :: ms) = (e.isEntry || hasEntry ms) := rfl
    rw [List.cons_append, exitsAfterEntry_cons, exitsAfterEntry_cons, ih, hentry]
    cases e.isEntry with
    | true => by_cases hm : m.kind = .exit <;> simp [hm]
    | false => rfl

@[simp] theorem Tracking.gatesIn_nil (t : Tracking) : t.gatesIn [] = false := by simp [gatesIn]

theorem Tracking.gatesIn_concat (t : Tracking) : t.gatesIn (ms ++ [m]) = (t.gatesIn ms ||
    (t.timed || t.isSampled) && m.isEntry || t.timed && !t.isSampled && m.isTimedTest) := by
  rw [gatesIn, gatesIn, hasEntry_concat, hasTimedTest_concat]
  cases t.timed <;> cases t.isSampled <;> simp [Bool.or_left_comm, Bool.or_assoc]

end

/-- The markers of the open cycle behind one more marker. -/
def openCycle (past : List Marker) (m : Marker) : List Marker :=
  if m.kind = .reset then [] else past ++ [m]

theorem foldl_openCycle_append (past ms : List Marker) (h : ∀ m ∈ ms, m.kind ≠ .reset) :
    ms.foldl openCycle past = past ++ ms := by
  induction ms generalizing past with
  | nil => simp
  | cons m ms ih =>
    obtain ⟨hm, hms⟩ := List.forall_mem_cons.1 h
    rw [List.foldl_cons, openCycle, if_neg hm, ih _ hms, List.append_assoc, List.singleton_append]

/-- The cycles of markers that go on with a cycle. -/
def cyclesFrom (past ms : List Marker) : List (List Marker) := (cyclesOf ms).modifyHead (past ++ ·)

@[simp] theorem cyclesFrom_nil (past : List Marker) : cyclesFrom past [] = [past] := by
  simp [cyclesFrom, cyclesOf]

theorem cyclesFrom_empty (ms : List Marker) : cyclesFrom [] ms = cyclesOf ms := by
  rw [cyclesFrom]
  cases cyclesOf ms <;> rfl

theorem cyclesFrom_reset {m : Marker} (hm : m.kind = .reset) (past ms : List Marker) :
    cyclesFrom past (m :: ms) = past :: cyclesFrom [] ms := by
  rw [cyclesFrom_empty]
  simp [cyclesFrom, cyclesOf, List.splitOnP_cons_eq_if_modifyHead, hm]

theorem cyclesFrom_cons {m : Marker} (hm : m.kind ≠ .reset) (past ms : List Marker) :
    cyclesFrom past (m :: ms) = cyclesFrom (past ++ [m]) ms := by
  simp [cyclesFrom, cyclesOf, List.splitOnP_cons_eq_if_modifyHead, hm, Function.comp_def]

end MethodProbes
