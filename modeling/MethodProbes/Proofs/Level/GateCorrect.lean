import MethodProbes.Proofs.Expansion.Sessions
import MethodProbes.Proofs.Level.GuardRun

/-!
# Gates are compiled correctly

A guard that is written in any state of any session decides as the declared intervals say, whatever
the slots hold and whatever the level is.
-/
namespace MethodProbes

open Step Machine

/-- The level that a run decides by: the content of its slot, or else the first that is read. -/
def Machine.Sees (c : Cycle) (m : Memory) (t : Machine) (L : Int32) : Prop :=
  match c.slot? .level with
  | some s => m.read .int s = .int L
  | none => ∀ e, t.history.reverse.find? (·.insn.readsLevel) = some e → e.pushed = [.int L]

theorem Machine.sees_of_slot {c : Cycle} {m : Memory} {r : Slot} {L : Int32}
    (hr : c.slot? .level = some r) (hL : m.read .int r = .int L) (t : Machine) : Sees c m t L := by
  rw [Sees, hr]
  exact hL

/-- Probe code runs at the level: nothing is declared, or the gate has no tests, or an interval contains
the level. -/
def Tracking.Admits (t : Tracking) (L : Int32) : Prop :=
  t.levels = [] ∨ t.gate = .openGate ∨ ∃ i ∈ t.levels, L ∈ i

instance (t : Tracking) (L : Int32) : Decidable (t.Admits L) :=
  inferInstanceAs (Decidable (_ ∨ _ ∨ _))

theorem Tracking.skips_gate_iff (t : Tracking) (L : Int32) : t.gate.Skips L ↔ ¬ t.Admits L := by
  rw [Admits]
  cases h : t.gate with
  | openGate => simp [Gate.not_skips_openGate]
  | skipping rs =>
    have hne : t.levels ≠ [] := fun hnil => by simp [gate, hnil] at h
    rw [Gate.skips_plan h]
    simp [hne]

namespace Context

variable {x : Context} {σ : Layout} {w : World} {m : Memory} {t : Machine} {L L' : Int32}

/-- A gate that compares the level decides by the level that the run sees. -/
theorem Judges.level_eq (hj : x.Judges σ L (start m) t) (hσ : σ.Fits x.cycle)
    (hs : Sees x.cycle m t L') (hcmp : x.tracking.gate.comparesLevel = true) : L = L' := by
  rw [Sees] at hs
  cases hc : x.cycle.slot? .level with
  | some s =>
    rw [hc] at hs
    have hL := hj.bound (by simp [Cycle.isBound, hc])
    cases ((hσ.get hc m).symm.trans hL).symm.trans hs
    rfl
  | none =>
    rw [hc] at hs
    obtain ⟨e, es, hsuffix, he, hp, hes⟩ := hj.unbound (by simp [Cycle.isBound, hc]) hcmp
    obtain ⟨ds, hds⟩ := hsuffix
    have hfind : t.history.reverse.find? (·.insn.readsLevel) = some e := by
      rw [← hds, history_start, List.append_nil, List.reverse_append, List.reverse_cons,
        List.append_assoc, List.find?_append]
      have hnone : es.reverse.find? (·.insn.readsLevel) = none := by
        simpa using hes
      rw [hnone]
      simp [he]
    cases hp.symm.trans (hs e hfind)
    rfl

/-- The level that a run sees has the same consequence as the one that its gates decide by. -/
theorem Judges.skips_iff (hj : x.Judges σ L (start m) t) (hσ : σ.Fits x.cycle)
    (hs : Sees x.cycle m t L') : x.tracking.gate.Skips L ↔ x.tracking.gate.Skips L' := by
  cases hcmp : x.tracking.gate.comparesLevel with
  | false =>
    rw [Tracking.gate, Gate.skips_of_not_comparesLevel hcmp, Gate.skips_of_not_comparesLevel hcmp]
  | true => rw [hj.level_eq hσ hs hcmp]

/-- The level that a guard sees has the same consequence as the one that it decides by. -/
theorem skips_iff_of_sees {vs : List Var} {skip : Option Label} (hσ : σ.Fits x.cycle)
    (hg : x.Guarded σ vs skip L (start m) t)
    (hr : x.cycle.isBound .level = false → x.tracking.gate.comparesLevel = true →
      Reads L (start m) t) (hs : Sees x.cycle m t L') :
    x.tracking.gate.Skips L ↔ x.tracking.gate.Skips L' :=
  Judges.skips_iff ⟨fun hb => (hg.bound hb).1, hr⟩ hσ hs

/-- In every state of every session, code behind a guard runs at the declared levels.  Of the
negative levels, a guard that writes no code lets all pass. -/
theorem guard_decides (expanders : List (Nat × Settings)) (firstSlot : UInt16)
    (as : List (Nat × Action)) {s : Session}
    (hs : s = (Session.new (expanders.map fun e => .new e.1 e.2) firstSlot).actAll as)
    {y : Expander} (hy : y ∈ s.expanders) {pre : List Step} {b : Buffer}
    (hpre : takeAll ⟨s.buffer, y.cycle⟩ pre = (none, ⟨b, x.cycle⟩)) {vs : List Var}
    (hvs : .level ∉ vs) {given : Option Label} (hgiven : ∀ k ∈ given, k.id < b.nextLabel)
    {q : Progress} (hq : takeAll ⟨b, x.cycle⟩ (x.guard vs given b.nextLabel).1 = (none, q)) :
    (x.tracking.gate = .openGate →
      q = ⟨b, x.cycle⟩ ∧ (x.guard vs given b.nextLabel).2 = none) ∧
    (x.tracking.gate ≠ .openGate → (x.guard vs given b.nextLabel).2.isSome) ∧
    ∃ code, q.buffer.code = b.code ++ code ∧ ∀ w m, ∃ t, Reaches code w (start m) t ∧
      t.Over code ∧ t.stack = [] ∧ ∀ L, Sees x.cycle m t L →
        (x.tracking.gate ≠ .openGate → t.going =
          if ∃ i ∈ x.tracking.levels, L ∈ i then none else (x.guard vs given b.nextLabel).2) ∧
        (0 ≤ L → (t.going = none ↔
          x.tracking.levels = [] ∨ ∃ i ∈ x.tracking.levels, L ∈ i)) := by
  have hfresh : ∀ e ∈ expanders.map fun e => Expander.new e.1 e.2, e.cycle = .initial := by
    simp only [List.mem_map]
    rintro - ⟨e, -, rfl⟩
    rfl
  have hplaced : Placed s.buffer y.cycle :=
    (hs ▸ Session.placed_actAll (Session.placed_new hfresh firstSlot) as : s.Placed) y hy
  have hbefore : Placed b x.cycle := hplaced.takeAll hpre
  obtain ⟨σ, hσ⟩ := (hbefore.takeAll hq).exists_layout
  obtain ⟨hfits, hcode, -, -⟩ := takeAll_eq hq (x.scoped_guard vs given b.nextLabel fun _ => id) hσ
  have hsome : x.tracking.gate ≠ .openGate → (x.guard vs given b.nextLabel).2.isSome := by
    intro hgate
    cases hg : x.tracking.gate with
    | openGate => exact absurd hg hgate
    | skipping rs =>
      rw [x.guard_skipping hg]
      rfl
  refine ⟨fun hopen => ?_, hsome, _, hcode, fun w m => ?_⟩
  · rw [x.guard_openGate hopen] at hq ⊢
    cases hq
    exact ⟨rfl, rfl⟩
  · obtain ⟨L₀, t, ht, hg, hr⟩ := x.exists_guarded (w := w) (σ := σ) (going_start m) hvs hgiven
    obtain ⟨hreach, hover⟩ := reaches_over (x.forward_guard hgiven) ht
    refine ⟨t, hreach, hover, hg.stack, fun L hL => ?_⟩
    have hgo : t.going = if x.tracking.gate.Skips L then (x.guard vs given b.nextLabel).2
        else none := by
      rw [hg.going]
      exact if_congr (skips_iff_of_sees hfits hg hr hL) rfl rfl
    constructor
    · intro hgate
      cases hp : x.tracking.gate with
      | openGate => exact absurd hp hgate
      | skipping rs =>
        rw [hgo, hp, if_congr (Gate.skips_plan hp L) rfl rfl]
        split
        next hno => rw [if_neg (by simpa using hno)]
        next hex => rw [if_pos (by simpa using hex)]
    · intro hpos
      rw [← Gate.passes_plan_iff x.tracking.levels hpos, hgo, ← Tracking.gate]
      split
      next hskips =>
        have hgate : x.tracking.gate ≠ .openGate := fun h =>
          Gate.not_skips_openGate L (h ▸ hskips)
        refine iff_of_false (fun hnone => ?_) (not_not_intro hskips)
        rw [hnone] at hsome
        exact Bool.false_ne_true (hsome hgate)
      next hpass => exact iff_of_true rfl hpass

theorem guard_decides_oneToThree :
    let x : Context := ⟨⟨true, none, .disabled, [⟨1, 3⟩]⟩, "level", 7, .initial, 0⟩
    let q := (takeAll ⟨.empty 0, .initial⟩ (x.guard [.entryTs] none 0).1).2
    ∃ code, q.buffer.code = code ∧ ∀ w m, ∃ t, Reaches code w (start m) t ∧ t.Over code ∧
      t.stack = [] ∧ ∀ L, Sees .initial m t L → 0 ≤ L → (t.going = none ↔ 1 ≤ L ∧ L ≤ 3) := by
  intro x q
  have hpre : takeAll ⟨.empty 0, .initial⟩ [] = (none, ⟨.empty 0, x.cycle⟩) := rfl
  have hvs : .level ∉ [Var.entryTs] := by decide
  have hgiven : ∀ k ∈ (none : Option Label), k.id < 0 := nofun
  have hq : takeAll ⟨.empty 0, x.cycle⟩ (x.guard [.entryTs] none 0).1 = (none, q) := rfl
  obtain ⟨-, -, code, hcode, hruns⟩ :=
    guard_decides [(7, {})] 0 [] rfl List.mem_cons_self hpre hvs hgiven hq
  refine ⟨code, hcode, fun w m => ?_⟩
  obtain ⟨t, hr, ho, hs, hL⟩ := hruns w m
  refine ⟨t, hr, ho, hs, fun L hsee hpos => ((hL L hsee).2 hpos).trans ?_⟩
  simp [x, Interval.mem_def]

end Context

end MethodProbes
