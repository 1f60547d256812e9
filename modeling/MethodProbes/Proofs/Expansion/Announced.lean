import MethodProbes.Proofs.Cycles.Bookkeeping
import MethodProbes.Proofs.Expansion.Counts

/-!
# The ids of sampling calls

A call that decides a sample stands right behind the push of its counter's id.
-/
namespace MethodProbes

open Step

namespace Insn

def isHit (i : Insn) : Bool := ProbeCall.all.any fun c => c.isHit && i = invoke c.callee

theorem isHit_callee (c : ProbeCall) : (invoke c.callee).isHit = c.isHit := by
  cases c <;> decide

theorem questions_isHit : Questions isHit := fun i hi => by
  refine Bool.eq_false_iff.2 fun h => ?_
  obtain ⟨c, -, hc⟩ := List.any_eq_true.1 h
  obtain ⟨-, rfl⟩ : _ ∧ i = invoke c.callee := by simpa using hc
  cases hi

end Insn

/-- Every call that decides a sample stands right behind the push of an id of `P`. -/
def Announced (P : Int32 → Prop) (is : List Insn) : Prop :=
  ∀ pre i post, is = pre ++ i :: post → i.isHit = true →
    ∃ v, P v ∧ pre.getLast? = some (.push (.int v))

namespace Announced

variable {P : Int32 → Prop} {is js : List Insn}

theorem of_no_hit (h : ∀ i ∈ is, i.isHit = false) : Announced P is := by
  rintro pre i post rfl hi
  rw [h i (by simp)] at hi
  cases hi

theorem append (hi : Announced P is) (hj : Announced P js) : Announced P (is ++ js) := by
  intro pre i post h hhit
  rcases List.append_eq_append_iff.1 h with ⟨bs, rfl, hbs⟩ | ⟨bs, his, hbs⟩
  · obtain ⟨v, hv, hlast⟩ := hj bs i post hbs hhit
    exact ⟨v, hv, by rw [List.getLast?_append, hlast, Option.some_or]⟩
  · cases bs with
    | nil =>
      -- the call stands first in `js`, where nothing can announce it
      obtain ⟨v, -, hlast⟩ := hj [] i post hbs.symm hhit
      cases hlast
    | cons j bs =>
      obtain ⟨rfl, rfl⟩ := List.cons.inj hbs
      exact hi pre i bs his hhit

theorem call {v : Int32} (hv : P v) (f : Callee) :
    Announced P [.push (.int v), .invoke f] := by
  intro pre i post h hhit
  match pre, h with
  | [], h =>
    obtain rfl : i = .push (.int v) := (List.cons.inj h).1.symm
    cases hhit
  | [j], h =>
    obtain rfl : j = .push (.int v) := (List.cons.inj h).1.symm
    exact ⟨v, hv, rfl⟩
  | _ :: _ :: _, h => simp at h

end Announced

namespace Context

variable {x : Context} {σ : Layout} {P : Int32 → Prop}

theorem announced_of_countP {ss : List Step} (h : ss.countP (emits Insn.isHit) = 0) :
    Announced P (written σ ss) := by
  rw [← countP_written Insn.questions_isHit σ] at h
  exact .of_no_hit fun i hi => Bool.eq_false_iff.2 (List.countP_eq_zero.1 h i hi)

theorem announced_entryCode (call : ProbeCall) (hs : x.tracking.isSampled = true)
    (hP : P x.methodId) : Announced P (written σ (x.entryCode call)) := by
  have hcall : Announced P (written σ (x.callWithId call)) := .call hP call.callee
  rw [entryCode, hs]
  cases x.tracking.timed with
  | true =>
    dsimp only
    rw [written_append]
    refine hcall.append (announced_of_countP ?_)
    rfl
  | false =>
    dsimp only
    rw [written_append]
    refine hcall.append (announced_of_countP ?_)
    rfl

theorem announced_entrySteps (hT : x.tracking.Sound) (hx : x.cycle.Coherent x.tracking)
    (hP : x.tracking.isSampled = true → P x.methodId) : Announced P (written σ x.entrySteps) := by
  have hp := Insn.questions_isHit
  have hread : (Insn.readLevel x.levelField).isHit = false := rfl
  by_cases he : x.cycle.Entered
  · rw [entrySteps_of_entered hx he]
    exact announced_of_countP rfl
  cases hcall : x.tracking.call? with
  | none =>
    rw [entrySteps_of_no_call hcall]
    exact announced_of_countP rfl
  | some call =>
    cases hs : x.tracking.isSampled with
    | false =>
      have hclock : call = .nanoTime := Tracking.eq_nanoTime_of_call? hcall hs
      apply announced_of_countP
      rw [countP_entrySteps hp hT he hcall, Insn.isHit_callee, hclock, hread, Bool.and_false]
      rfl
    | true =>
      have hguard (vs : List Var) :
          (x.guard vs none x.nextLabel).1.countP (emits Insn.isHit) = 0 := by
        rw [countP_guard hp, hread, Bool.and_false]
        rfl
      rw [entrySteps_of_fresh hT he hcall, gated_eq, written_append, written_append, written_append]
      refine (announced_of_countP (countP_define_if hp _ _)).append (.append (.append ?_ ?_) ?_)
      · exact announced_of_countP (hguard _)
      · exact announced_entryCode call hs (hP hs)
      · exact announced_of_countP (countP_skip hp _)

/-- Only entries of a sampled method make a sampling call. -/
theorem announced_steps (hT : x.tracking.Sound) (hx : x.cycle.Coherent x.tracking) {m : Marker}
    (hP : m.kind = .entry → x.tracking.isSampled = true → P x.methodId) :
    Announced P (written σ (x.steps m)) := by
  have hp := Insn.questions_isHit
  have hread : (Insn.readLevel x.levelField).isHit = false := rfl
  cases hk : m.kind with
  | entry =>
    rw [steps, hk]
    exact announced_entrySteps hT hx (hP hk)
  | test =>
    apply announced_of_countP
    rw [steps, hk]
    dsimp only
    cases hs : x.tracking.isSampled with
    | true =>
      rw [countP_testSteps_of_sampled hp hx hs, Insn.isHit_callee]
      simp [ProbeCall.isHit]
    | false =>
      rw [countP_testSteps_of_not_sampled hp hs, Insn.isHit_callee, hread]
      simp [ProbeCall.isHit]
  | exit =>
    apply announced_of_countP
    rw [steps, hk]
    dsimp only
    rw [countP_exitSteps hp, Insn.isHit_callee]
    simp [ProbeCall.isHit]
  | elseBranch | duration | reset =>
    exact announced_of_countP (x.countP_steps_eq_zero hp (by simp [hk]))

end Context

end MethodProbes
