import MethodProbes.Proofs.Run.Test

/-!
# Running the other markers

An exit tells the adaptive sampler about a sampled invocation, and a duration marker pushes one
value.
-/
namespace MethodProbes

open Step Machine History

namespace Context

section
variable (x : Context) {w : World} {σ : Layout}

inductive ExitRun (σ : Layout) (s t : Machine) : Prop
  | silent (alike : Alike (σ.slot .duration) s t)
    (miss : x.tracking.sampler = some .adaptive → x.cycle.isBound .sampleHit = true →
      s.memory.get σ .sampleHit = .int 0)
  | told {e : Entry} (sampler : x.tracking.sampler = some .adaptive)
    (bound : x.cycle.isBound .sampleHit = true) (hit : s.memory.get σ .sampleHit ≠ .int 0)
    (insn : e.insn = .invoke ProbeCall.updateEndTs.callee) (stack : t.stack = s.stack)
    (memory : t.memory = s.memory)
    (noted : notes (σ.slot .duration) t.history = e :: notes (σ.slot .duration) s.history)

theorem exists_exit_run {s : Machine} (hs : s.going = none) :
    ∃ t, exec w (written σ x.exitSteps) s = some t ∧ t.going = none ∧ x.ExitRun σ s t := by
  by_cases h : x.tracking.sampler = some .adaptive ∧ x.cycle.isBound .sampleHit = true
  · have hcode : written σ x.exitSteps =
        [.load .int (σ.slot .sampleHit), .jump .ifZero ⟨x.nextLabel⟩] ++
          ([.push (.int x.methodId), .invoke ProbeCall.updateEndTs.callee] ++
            [.label ⟨x.nextLabel⟩, .frame ⟨x.nextLabel⟩]) := by
      simp [exitSteps, h, callWithId, insns, Var.type]
    obtain ⟨v, hv⟩ := Const.exists_int (s.memory.type_get σ .sampleHit)
    obtain ⟨a, ha, haa, hgo⟩ :=
      exists_branch (w := w) (σ := σ) (d := σ.slot .duration) hs hv ⟨x.nextLabel⟩
    rw [hcode, exec_append_of ha]
    by_cases hz : v = 0
    · rw [if_pos hz] at hgo
      have hno : .label ⟨x.nextLabel⟩ ∉
          [Insn.push (.int x.methodId), .invoke ProbeCall.updateEndTs.callee] := by simp
      obtain ⟨t, ht, hat, hgo⟩ := exists_skip (w := w) (d := σ.slot .duration) hgo hno
      exact ⟨t, ht, hgo, .silent (haa.trans hat) fun _ _ => hz ▸ hv⟩
    · rw [if_neg hz] at hgo
      obtain ⟨pc, st, m, h', _⟩ := a
      obtain rfl : _ = none := hgo
      refine ⟨_, exec_push.trans ((exec_invoke_unit rfl rfl).trans (exec_label.trans exec_frame)),
        rfl, .told h.1 h.2 (by simpa [hv] using hz)
        (e := ⟨pc + 1, .invoke ProbeCall.updateEndTs.callee, [.int x.methodId], []⟩) rfl haa.stack
        haa.memory ?_⟩
      rw [← haa.notes]
      rfl
  · have hcode : x.exitSteps = [] := by rw [exitSteps, if_neg h]
    rw [hcode]
    exact ⟨s, rfl, hs, .silent ⟨rfl, rfl, rfl⟩ fun ha hb => absurd ⟨ha, hb⟩ h⟩

def durationInsn (x : Context) (σ : Layout) : Insn :=
  if x.cycle.measured && x.cycle.isBound .duration then .load .long (σ.slot .duration)
  else .push (.long 0)

theorem exists_duration_run {s : Machine} (hs : s.going = none) :
    ∃ t v, exec w (written σ x.durationSteps) s = some t ∧ t.going = none ∧
      t.stack = v :: s.stack ∧ t.memory = s.memory ∧
      t.history = ⟨s.pc, x.durationInsn σ, [], [v]⟩ :: s.history ∧
      v = if x.cycle.measured && x.cycle.isBound .duration then s.memory.get σ .duration
        else .long 0 := by
  obtain ⟨pc, st, m, h, _⟩ := s
  obtain rfl : _ = none := hs
  rw [durationSteps, durationInsn]
  split
  · exact ⟨_, m.get σ .duration, exec_load_var, rfl, rfl, rfl, rfl, rfl⟩
  · exact ⟨_, .long 0, exec_push, rfl, rfl, rfl, rfl, rfl⟩

end

end Context

end MethodProbes
