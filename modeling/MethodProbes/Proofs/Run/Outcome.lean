import MethodProbes.Proofs.Method.Route
import MethodProbes.Proofs.Run.Exit

/-!
# What a run does at a marker

A run comes to the markers of a method in body order.  On its way to a label it passes them by, up
to the else marker that places the label; otherwise it executes their code.
-/
namespace MethodProbes

open Step Machine History

namespace Context

variable (x : Context) {w : World} {σ : Layout} {m : Marker} {s t : Machine}

structure Enters (σ : Layout) (s t : Machine) (L : Int32) (zs : History) : Prop where
  fresh : ¬ x.cycle.Entered
  asks : ∃ call, x.tracking.call? = some call
  zeroes : Zeroes σ zs s t
  defined : zs ≠ [] ↔ x.tracking.timed = true ∧ x.cycle.isBound .duration = false
  level : x.tracking.gate.comparesLevel = true → t.memory.get σ .level = .int L
  run : x.EntryRun σ s t L zs

inductive Outcome (σ : Layout) (m : Marker) (s t : Machine) : Prop
  | passes {l : Label} (going : s.going = some l)
    (elsewhere : m.kind = .elseBranch → x.cycle.pendingElse ≠ some l) (still : t.going = some l)
    (memory : t.memory = s.memory) (history : t.history = s.history)
  | arrives {l : Label} (kind : m.kind = .elseBranch) (going : s.going = some l)
    (pending : x.cycle.pendingElse = some l) (here : t.going = none)
    (alike : Alike (σ.slot .duration) s t)
  | enters {L : Int32} {zs : History} (kind : m.kind = .entry) (going : s.going = none)
    (here : t.going = none) (enters : x.Enters σ s t L zs)
  | tests (kind : m.kind = .test) (going : s.going = none)
    (run : ∀ L, (x.cycle.Entered → x.Decided σ s.memory L) →
      x.Keeps σ s t ∧ x.TestRun σ (m.hasTag .timed) L s t)
  | exits (kind : m.kind = .exit) (going : s.going = none) (here : t.going = none)
    (run : x.ExitRun σ s t)
  | pushes {v : Const} (kind : m.kind = .duration) (going : s.going = none) (here : t.going = none)
    (memory : t.memory = s.memory)
    (history : t.history = ⟨s.pc, x.durationInsn σ, [], [v]⟩ :: s.history)
    (value : v = if x.cycle.measured && x.cycle.isBound .duration then s.memory.get σ .duration
      else .long 0)
  | rests (kind : m.kind = .entry ∧ x.entrySteps = [] ∨ m.kind = .elseBranch ∨ m.kind = .reset)
    (going : s.going = none) (here : t.going = none) (alike : Alike (σ.slot .duration) s t)

/-- A level that fits what the entry of the cycle has decided. -/
theorem exists_decided (hx : x.cycle.Coherent x.tracking) (σ : Layout) (m : Memory) :
    ∃ L, x.cycle.Entered → x.Decided σ m L := by
  obtain ⟨L, hL⟩ := Const.exists_int (m.type_get σ .level)
  exact ⟨L, fun he hc => ⟨hx.level he hc, hL⟩⟩

theorem exists_entry_outcome (hT : x.tracking.Sound) (hx : x.cycle.Coherent x.tracking)
    (hm : m.kind = .entry) (hs : s.going = none) :
    ∃ t, exec w (written σ x.entrySteps) s = some t ∧ x.Outcome σ m s t := by
  by_cases he : x.cycle.Entered
  · have hnil := entrySteps_of_entered hx he
    rw [hnil]
    exact ⟨s, rfl, .rests (.inl ⟨hm, hnil⟩) hs hs ⟨rfl, rfl, rfl⟩⟩
  cases hcall : x.tracking.call? with
  | none =>
    have hnil := entrySteps_of_no_call hcall
    rw [hnil]
    exact ⟨s, rfl, .rests (.inl ⟨hm, hnil⟩) hs hs ⟨rfl, rfl, rfl⟩⟩
  | some call =>
    obtain ⟨t, L, zs, ht, hgo, -, hz, hdef, hlevel, -, hrun⟩ :=
      x.exists_entry_run (w := w) (σ := σ) hT he hcall hs
    exact ⟨t, ht, .enters hm hs hgo ⟨he, ⟨call, hcall⟩, hz, hdef, hlevel, hrun⟩⟩

theorem exists_test_outcome (hx : x.cycle.Coherent x.tracking) (hm : m.kind = .test)
    (hs : s.going = none) :
    ∃ t, exec w (written σ (x.testSteps (m.hasTag .timed))) s = some t ∧ x.Outcome σ m s t := by
  obtain ⟨L, hL⟩ := x.exists_decided hx σ s.memory
  obtain ⟨t, ht, -⟩ := x.exists_test_run (w := w) hx (m.hasTag .timed) hs hL
  refine ⟨t, ht, .tests hm hs fun L hL => ?_⟩
  obtain ⟨u, hu, hrun⟩ := x.exists_test_run (w := w) hx (m.hasTag .timed) hs hL
  obtain rfl : u = t := Option.some.inj (hu.symm.trans ht)
  exact hrun

theorem exists_else_outcome (hm : m.kind = .elseBranch) :
    ∃ t, exec w (written σ x.elseSteps) s = some t ∧ x.Outcome σ m s t := by
  have hkind : m.kind = .entry ∧ x.entrySteps = [] ∨ m.kind = .elseBranch ∨ m.kind = .reset :=
    .inr (.inl hm)
  rw [written_else]
  cases hp : x.cycle.pendingElse with
  | none =>
    refine ⟨s, rfl, ?_⟩
    cases hs : s.going with
    | none => exact .rests hkind hs hs ⟨rfl, rfl, rfl⟩
    | some l => exact .passes hs (fun _ => by simp [hp]) hs rfl rfl
  | some k =>
    by_cases hk : s.going = some k
    · obtain ⟨t, ht, hat, hgo⟩ := exists_arrive (w := w) (d := σ.slot .duration) hk
      exact ⟨t, ht, .arrives hm hk hp hgo hat⟩
    · cases hs : s.going with
      | none =>
        obtain ⟨t, ht, hat, hgo⟩ := exists_done (w := w) (d := σ.slot .duration) hs
        exact ⟨t, ht, .rests hkind hs hgo hat⟩
      | some l =>
        have hl : k ≠ l := fun h => hk (h ▸ hs)
        have hno : .label l ∉ [Insn.label k, .frame k] := by simpa using hl.symm
        refine ⟨_, exec_of_notMem hs hno, .passes hs (fun _ h => ?_) hs rfl rfl⟩
        exact hl (Option.some.inj (hp.symm.trans h))

theorem exists_outcome (hT : x.tracking.Sound) (hx : x.cycle.Coherent x.tracking)
    (hgo : ∀ l ∈ s.going, l.id < x.nextLabel) :
    ∃ t, exec w (written σ (x.steps m)) s = some t ∧ x.Outcome σ m s t := by
  by_cases hm : m.kind = .elseBranch
  · rw [x.steps_of_else hm]
    exact x.exists_else_outcome hm
  cases hs : s.going with
  | some l =>
    -- labels of the marker's own are newer than the one that the machine is going to
    have hno : .label l ∉ written σ (x.steps m) := fun hl => by
      rcases x.label_mem_steps hl with ⟨hle, -⟩ | ⟨hm', -⟩
      · have hlt := hgo l hs
        omega
      · exact hm hm'
    exact ⟨_, exec_of_notMem hs hno, .passes hs (fun h => absurd h hm) hs rfl rfl⟩
  | none =>
    rw [steps]
    cases hk : m.kind with
    | entry => exact x.exists_entry_outcome hT hx hk hs
    | test => exact x.exists_test_outcome hx hk hs
    | elseBranch => exact absurd hk hm
    | duration =>
      obtain ⟨t, v, ht, hgo, -, hmem, hhist, hv⟩ := x.exists_duration_run (w := w) (σ := σ) hs
      exact ⟨t, ht, .pushes hk hs hgo hmem hhist hv⟩
    | exit =>
      obtain ⟨t, ht, hgo, hrun⟩ := x.exists_exit_run (w := w) (σ := σ) hs
      exact ⟨t, ht, .exits hk hs hgo hrun⟩
    | reset => exact ⟨s, rfl, .rests (.inr (.inr hk)) hs hs ⟨rfl, rfl, rfl⟩⟩

end Context

end MethodProbes
