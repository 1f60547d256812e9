import Mathlib.Algebra.Ring.Nat
import MethodProbes.Proofs.Cycles.Reflection
import MethodProbes.Proofs.Expansion.Counts
import MethodProbes.Proofs.Method.Route

/-!
# How often a method asks

The calls that a method makes and its reads of the level are sums over its cycles.  A cycle makes one
call for its entry, one for its measurement and, if the sampler is adaptive, one for each exit.
-/
namespace MethodProbes

open Step

namespace Insn

def isLevelRead : Insn → Bool
  | readLevel _ => true
  | _ => false

theorem questions_calls (name : String) : Questions (·.calls name) := fun i hi => by
  cases i with
  | invoke f => cases hi
  | _ => rfl

theorem questions_isLevelRead : Questions isLevelRead := fun i hi => by
  cases i with
  | readLevel field => cases hi
  | _ => rfl

theorem calls_callee (c d : ProbeCall) : (invoke d.callee).calls c.name = decide (d = c) := by
  rw [Bool.eq_iff_iff, decide_eq_true_iff, ← ProbeCall.name_inj]
  exact beq_iff_eq

end Insn

theorem countP_cons_toNat {α : Type} (q : α → Bool) (a : α) (as : List α) :
    (a :: as).countP q = (q a).toNat + as.countP q := by
  rw [List.countP_cons, Nat.add_comm]
  cases q a <;> rfl

namespace Tracking

/-- The call of a test that measures. -/
def testCall (t : Tracking) : ProbeCall := if t.isSampled then .getEndTs else .nanoTime

/-- How often the code of a cycle makes a call. -/
def callsIn (t : Tracking) (c : ProbeCall) (ms : List Marker) : Nat :=
  (if t.call? = some c then (hasEntry ms).toNat else 0) +
  (if t.timed = true ∧ t.testCall = c then (measuresAfterEntry ms).toNat else 0) +
  if t.sampler = some .adaptive ∧ t.isSampled = true ∧ c = .updateEndTs then exitsAfterEntry ms
    else 0

@[simp] theorem callsIn_nil (t : Tracking) (c : ProbeCall) : t.callsIn c [] = 0 := by
  simp [callsIn]

theorem sum_callsIn (t : Tracking) (c : ProbeCall) (cycles : List (List Marker)) :
    (cycles.map (t.callsIn c)).sum =
      (if t.call? = some c then cycles.countP hasEntry else 0) +
      (if t.timed = true ∧ t.testCall = c then cycles.countP measuresAfterEntry else 0) +
      if t.sampler = some .adaptive ∧ t.isSampled = true ∧ c = .updateEndTs then
        (cycles.map exitsAfterEntry).sum
      else 0 := by
  induction cycles with
  | nil => simp
  | cons ms cycles ih =>
    rw [List.map_cons, List.sum_cons, ih, callsIn, countP_cons_toNat, countP_cons_toNat,
      List.map_cons, List.sum_cons]
    split_ifs <;> omega

def levelReadsIn (t : Tracking) (ms : List Marker) : Nat :=
  (t.gate.comparesLevel && t.gatesIn ms).toNat

@[simp] theorem levelReadsIn_nil (t : Tracking) : t.levelReadsIn [] = 0 := by simp [levelReadsIn]

theorem sum_levelReadsIn (t : Tracking) (cycles : List (List Marker)) :
    (cycles.map t.levelReadsIn).sum =
      cycles.countP fun ms => t.gate.comparesLevel && t.gatesIn ms := by
  induction cycles with
  | nil => rfl
  | cons ms cycles ih => rw [List.map_cons, List.sum_cons, ih, levelReadsIn, countP_cons_toNat]

end Tracking

namespace Cycle.Reflects

variable {x : Context} {past : List Marker} {m : Marker}

theorem hasEntry_of_entered (h : x.cycle.Reflects x.tracking past) (he : x.cycle.Entered) :
    hasEntry past = true := by
  rw [Entered, h.entryTs, h.sampleHit, Bool.and_eq_true, Bool.and_eq_true] at he
  exact he.elim And.right And.right

theorem entered_of_hasEntry (h : x.cycle.Reflects x.tracking past) (he : hasEntry past = true)
    (hcall : x.tracking.timed = true ∨ x.tracking.isSampled = true) : x.cycle.Entered := by
  rw [Entered, h.entryTs, h.sampleHit, he, Bool.and_true, Bool.and_true]
  exact hcall

theorem entrySteps_eq_nil (hT : x.tracking.Sound) (h : x.cycle.Reflects x.tracking past)
    (he : hasEntry past = true) : x.entrySteps = [] := by
  cases hcall : x.tracking.call? with
  | none => exact Context.entrySteps_of_no_call hcall
  | some call =>
    have hmakes := (Context.exists_call_iff hT).1 ⟨call, hcall⟩
    exact Context.entrySteps_of_entered h.coherent (h.entered_of_hasEntry he hmakes)

theorem countP_calls_entry (hT : x.tracking.Sound) (h : x.cycle.Reflects x.tracking past)
    (c : ProbeCall) : x.entrySteps.countP (emits (·.calls c.name)) =
      if x.tracking.call? = some c then (!hasEntry past).toNat else 0 := by
  have hp := Insn.questions_calls c.name
  cases he : hasEntry past with
  | true => simp [entrySteps_eq_nil hT h he]
  | false =>
    have hfresh : ¬ x.cycle.Entered := fun h' => by simp [h.hasEntry_of_entered h'] at he
    cases hcall : x.tracking.call? with
    | none => simp [Context.entrySteps_of_no_call hcall]
    | some call =>
      have hread : (Insn.readLevel x.levelField).calls c.name = false := rfl
      rw [Context.countP_entrySteps hp hT hfresh hcall, Insn.calls_callee, hread, Bool.and_false]
      by_cases hc : call = c <;> simp [hc]

/-- Only the first timed test of a cycle makes a call, and only behind an entry. -/
theorem countP_calls_test (h : x.cycle.Reflects x.tracking past) (tag : Bool) (c : ProbeCall) :
    (x.testSteps tag).countP (emits (·.calls c.name)) =
      if x.tracking.timed = true ∧ x.tracking.testCall = c then
        (!hasTimedTest past && hasEntry past && tag).toNat
      else 0 := by
  have hp := Insn.questions_calls c.name
  have hread : (Insn.readLevel x.levelField).calls c.name = false := rfl
  rw [Tracking.testCall]
  cases hs : x.tracking.isSampled with
  | true =>
    rw [Context.countP_testSteps_of_sampled hp h.coherent hs, Insn.calls_callee, h.measured,
      h.entryTs, if_pos rfl]
    by_cases hc : ProbeCall.getEndTs = c <;> cases x.tracking.timed <;> cases tag <;>
      simp [hc, Bool.and_comm]
  | false =>
    rw [Context.countP_testSteps_of_not_sampled hp hs, Insn.calls_callee, hread, Bool.and_false,
      h.measured, h.entryTs, if_neg Bool.false_ne_true]
    by_cases hc : ProbeCall.nanoTime = c <;> cases x.tracking.timed <;> cases tag <;>
      cases hasTimedTest past <;> simp [hc]

/-- Exits of the adaptive sampler make a call behind an entry. -/
theorem countP_calls_exit (h : x.cycle.Reflects x.tracking past) (c : ProbeCall) :
    x.exitSteps.countP (emits (·.calls c.name)) =
      if x.tracking.sampler = some .adaptive ∧ x.tracking.isSampled = true ∧ c = .updateEndTs then
        (hasEntry past).toNat
      else 0 := by
  rw [Context.countP_exitSteps (Insn.questions_calls c.name), Insn.calls_callee, h.sampleHit]
  by_cases hc : c = .updateEndTs
  · subst hc
    cases x.tracking.isSampled <;> cases hasEntry past <;> simp
  · simp [hc, Ne.symm hc]

/-- The calls of a marker are those that its cycle makes more. -/
theorem countP_calls (hT : x.tracking.Sound) (h : x.cycle.Reflects x.tracking past)
    (hm : m.kind ≠ .reset) (c : ProbeCall) :
    (x.steps m).countP (emits (·.calls c.name)) + x.tracking.callsIn c past =
      x.tracking.callsIn c (past ++ [m]) := by
  rw [Tracking.callsIn, Tracking.callsIn, hasEntry_concat, toNat_measuresAfterEntry_concat,
    exitsAfterEntry_concat, Marker.isEntry, Marker.isTimedTest, Context.steps]
  cases hk : m.kind with
  | reset => exact absurd hk hm
  | entry =>
    rw [countP_calls_entry hT h c]
    split_ifs <;> cases hasEntry past <;> simp
    omega
  | test =>
    rw [countP_calls_test h]
    split_ifs <;> simp <;> omega
  | exit =>
    rw [countP_calls_exit h]
    split_ifs <;> simp <;> omega
  | elseBranch | duration =>
    have hsteps := x.countP_steps_eq_zero (m := m) (Insn.questions_calls c.name) (by simp [hk])
    rw [Context.steps, hk] at hsteps
    simp [hsteps]

/-- An entry reads the level for its gate unless the cycle has read it. -/
theorem countP_isLevelRead_entry (hT : x.tracking.Sound) (h : x.cycle.Reflects x.tracking past) :
    x.entrySteps.countP (emits Insn.isLevelRead) =
      (x.tracking.gate.comparesLevel && (x.tracking.timed || x.tracking.isSampled) &&
        !x.tracking.gatesIn past).toNat := by
  have hcalls := Context.exists_call_iff hT
  rw [← Bool.or_eq_true] at hcalls
  cases he : hasEntry past with
  | true =>
    rw [entrySteps_eq_nil hT h he, Tracking.gatesIn, he]
    cases x.tracking.timed <;> cases x.tracking.isSampled <;> simp
  | false =>
    have hfresh : ¬ x.cycle.Entered := fun h' => by simp [h.hasEntry_of_entered h'] at he
    cases hcall : x.tracking.call? with
    | none =>
      have hno : (x.tracking.timed || x.tracking.isSampled) = false :=
        Bool.eq_false_iff.2 fun h' => by simpa [hcall] using hcalls.2 h'
      simp [Context.entrySteps_of_no_call hcall, hno]
    | some call =>
      have hread : (Insn.readLevel x.levelField).isLevelRead = true := rfl
      have hask : (Insn.invoke call.callee).isLevelRead = false := rfl
      rw [Context.countP_entrySteps Insn.questions_isLevelRead hT hfresh hcall, hread, hask,
        h.level, hcalls.1 ⟨call, hcall⟩]
      cases x.tracking.gate.comparesLevel <;> simp

/-- A test reads the level to take the time, unless the cycle has read it. -/
theorem countP_isLevelRead_test (h : x.cycle.Reflects x.tracking past) (tag : Bool) :
    (x.testSteps tag).countP (emits Insn.isLevelRead) =
      (x.tracking.gate.comparesLevel && (x.tracking.timed && !x.tracking.isSampled && tag) &&
        !x.tracking.gatesIn past).toNat := by
  have hp := Insn.questions_isLevelRead
  have hask (c : ProbeCall) : (Insn.invoke c.callee).isLevelRead = false := rfl
  cases hs : x.tracking.isSampled with
  | true => simp [Context.countP_testSteps_of_sampled hp h.coherent hs, hask]
  | false =>
    have hread : (Insn.readLevel x.levelField).isLevelRead = true := rfl
    rw [Context.countP_testSteps_of_not_sampled hp hs, hask, hread, h.measured, h.level,
      Tracking.gatesIn, hs]
    cases x.tracking.timed <;> cases x.tracking.gate.comparesLevel <;> cases tag <;>
      cases hasTimedTest past <;> simp

theorem countP_isLevelRead (hT : x.tracking.Sound) (h : x.cycle.Reflects x.tracking past)
    (hm : m.kind ≠ .reset) :
    (x.steps m).countP (emits Insn.isLevelRead) + x.tracking.levelReadsIn past =
      x.tracking.levelReadsIn (past ++ [m]) := by
  have hp := Insn.questions_isLevelRead
  rw [Tracking.levelReadsIn, Tracking.levelReadsIn, Tracking.gatesIn_concat, Marker.isEntry,
    Marker.isTimedTest, Context.steps]
  cases hk : m.kind with
  | reset => exact absurd hk hm
  | entry =>
    rw [countP_isLevelRead_entry hT h]
    cases x.tracking.gate.comparesLevel <;> cases x.tracking.gatesIn past <;> simp
  | test =>
    rw [countP_isLevelRead_test h]
    cases x.tracking.gate.comparesLevel <;> cases x.tracking.gatesIn past <;> simp
  | exit =>
    have hask : (Insn.invoke ProbeCall.updateEndTs.callee).isLevelRead = false := rfl
    simp [Context.countP_exitSteps hp, hask]
  | elseBranch | duration =>
    have hsteps := x.countP_steps_eq_zero (m := m) hp (by simp [hk])
    rw [Context.steps, hk] at hsteps
    simp [hsteps]

end Cycle.Reflects

namespace Route

variable {t : Tracking} {c : Cycle} {n : Nat} {ms : List Marker} {parts : List (List Insn)}
  {past : List Marker}

/-- What every marker of a cycle adds to a number adds up over the cycles. -/
theorem countP_flatten (h : Route t c n ms parts) {p : Insn → Bool} (hp : Questions p)
    {f : List Marker → Nat} (hf : f [] = 0)
    (hstep : ∀ (x : Context) (past : List Marker) (m : Marker), x.tracking = t →
      x.cycle.Reflects x.tracking past → m.kind ≠ .reset →
        (x.steps m).countP (emits p) + f past = f (past ++ [m]))
    (hT : t.Sound) (hc : c.Reflects t past) :
    parts.flatten.countP p + f past = ((cyclesFrom past ms).map f).sum := by
  -- along the route, with the markers of the open cycle as what the state reflects
  induction h generalizing past with
  | nil => simp
  | @cons x σ m ms parts htracking _ _ ih =>
    subst htracking
    rw [List.flatten_cons, List.countP_append, countP_written hp]
    have hrest := ih (hc.openCycle hT m σ)
    by_cases hm : m.kind = .reset
    · rw [openCycle, if_pos hm, hf] at hrest
      rw [Context.steps, hm, cyclesFrom_reset hm, List.map_cons, List.sum_cons, ← hrest]
      simp [emits, Nat.add_comm]
    · rw [openCycle, if_neg hm] at hrest
      rw [cyclesFrom_cons hm, ← hrest, ← hstep x past m rfl hc hm]
      omega

theorem countP_calls (hT : t.Sound) (h : Route t c n ms parts) (hc : c.Reflects t past)
    (call : ProbeCall) : parts.flatten.countP (·.calls call.name) + t.callsIn call past =
      ((cyclesFrom past ms).map (t.callsIn call)).sum := by
  refine h.countP_flatten (Insn.questions_calls _) (t.callsIn_nil call) ?_ hT hc
  intro x past m hx hr hm
  subst hx
  exact hr.countP_calls hT hm call

theorem countP_isLevelRead (hT : t.Sound) (h : Route t c n ms parts) (hc : c.Reflects t past) :
    parts.flatten.countP Insn.isLevelRead + t.levelReadsIn past =
      ((cyclesFrom past ms).map t.levelReadsIn).sum := by
  refine h.countP_flatten Insn.questions_isLevelRead t.levelReadsIn_nil ?_ hT hc
  intro x past m hx hr hm
  subst hx
  exact hr.countP_isLevelRead hT hm

end Route

end MethodProbes
