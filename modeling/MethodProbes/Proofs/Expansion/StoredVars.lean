import MethodProbes.Proofs.Expansion.MarkerCode
import MethodProbes.Proofs.Level.Skips

/-!
# What the steps of a marker store

The steps of a guard store the level and the variables that it defines.  A test stores nothing but
the level and the duration.
-/
namespace MethodProbes

open Step

namespace Step

theorem Scoped.reset_notMem {B : Var → Prop} {ss : List Step} (h : Scoped B ss) : reset ∉ ss := by
  induction ss generalizing B with
  | nil => exact List.not_mem_nil
  | cons s ss ih =>
    cases s with
    | reset => exact h.elim
    | load v => exact List.not_mem_cons_of_ne_of_not_mem (by simp) (ih h.2)
    | store v =>
      exact List.not_mem_cons_of_ne_of_not_mem (by simp) (ih (B := fun u => u = v ∨ B u) h)
    | _ => exact List.not_mem_cons_of_ne_of_not_mem (by simp) (ih (B := B) h)

/-- A step that notes nothing for later markers but the slots of `vs`. -/
inductive Plain (vs : List Var) : Step → Prop
  | emit (i : Insn) : Plain vs (emit i)
  | load (v : Var) : Plain vs (load v)
  | newLabel : Plain vs newLabel
  | store {v : Var} (h : v ∈ vs) : Plain vs (store v)

end Step

namespace Gate

theorem plain_of_mem_pushLevel {field : String} {bound : Bool} {s : Step}
    (h : s ∈ pushLevel field bound) : Plain [.level] s := by
  rw [pushLevel] at h
  split at h
  · rw [List.mem_singleton.1 h]
    exact .load _
  · rcases List.mem_cons.1 h with rfl | h
    · exact .emit _
    rcases List.mem_cons.1 h with rfl | h
    · exact .emit _
    · rw [List.mem_singleton.1 h]
      exact .store List.mem_cons_self

theorem plain_of_mem_compare {n : Int32} {c d : Cond} {l : Label} {s : Step}
    (h : s ∈ compare n c d l) : Plain [.level] s := by
  rw [compare] at h
  split at h
  · rw [List.mem_singleton.1 h]
    exact .emit _
  · rcases List.mem_cons.1 h with rfl | h
    · exact .emit _
    · rw [List.mem_singleton.1 h]
      exact .emit _

theorem plain_of_mem_checkSteps {field : String} {skip next : Label} {bound : Bool}
    {cs : List Check} {s : Step} (h : s ∈ checkSteps field skip next bound cs) :
    Plain [.level] s := by
  induction cs generalizing bound with
  | nil => cases h
  | cons k cs ih =>
    cases k with
    | skip =>
      rcases List.mem_cons.1 h with rfl | h
      · exact .emit _
      · exact ih h
    | _ =>
      rw [checkSteps, List.mem_append, List.mem_append] at h
      exact h.elim (fun h => h.elim plain_of_mem_pushLevel plain_of_mem_compare) ih

theorem plain_of_mem_rangeSteps {field : String} {skip : Label} {bound : Bool} {n : Nat}
    {rs : List SkipRange} {s : Step} (h : s ∈ rangeSteps field skip bound n rs) :
    Plain [.level] s := by
  induction rs generalizing bound n with
  | nil => cases h
  | cons r rs ih =>
    rw [rangeSteps, List.mem_append, List.mem_append, List.mem_cons] at h
    rcases h with ((rfl | h) | h) | h
    · exact .newLabel
    · exact plain_of_mem_checkSteps h
    · rcases List.mem_cons.1 h with rfl | h
      · exact .emit _
      · rw [List.mem_singleton.1 h]
        exact .emit _
    · exact ih h

theorem store_level_mem_rangeSteps {field : String} {skip : Label} {n : Nat}
    {rs : List SkipRange} (h : rs.head?.any SkipRange.comparesLevel = true) :
    store .level ∈ rangeSteps field skip false n rs := by
  cases rs with
  | nil => cases h
  | cons r rs =>
    have hchecks : store .level ∈ checkSteps field skip ⟨n⟩ false r.checks :=
      store_mem_checkSteps h
    simp [rangeSteps, hchecks]

end Gate

namespace Context

variable (x : Context)

theorem plain_of_mem_define {v : Var} {s : Step} (h : s ∈ x.define v) : Plain [v] s := by
  rw [define] at h
  split at h
  · cases h
  · rcases List.mem_cons.1 h with rfl | h
    · exact .emit _
    · rw [List.mem_singleton.1 h]
      exact .store List.mem_cons_self

theorem plain_of_mem_guard {vs : List Var} {given : Option Label} {n : Nat} {s : Step}
    (h : s ∈ (x.guard vs given n).1) : Plain (.level :: vs) s := by
  cases hg : x.tracking.gate with
  | openGate =>
    rw [x.guard_openGate hg] at h
    cases h
  | skipping rs =>
    rw [x.guard_skipping hg, List.mem_append, List.mem_append] at h
    rcases h with (h | h) | h
    · obtain ⟨v, hv, h⟩ := List.mem_flatMap.1 h
      cases x.plain_of_mem_define h with
      | store hs =>
        rw [List.mem_singleton.1 hs]
        exact .store (List.mem_cons_of_mem _ hv)
      | _ => constructor
    · cases given with
      | none =>
        rw [List.mem_singleton.1 h]
        exact .newLabel
      | some k => cases h
    · cases Gate.plain_of_mem_rangeSteps h with
      | store hs =>
        rw [List.mem_singleton.1 hs]
        exact .store List.mem_cons_self
      | _ => constructor

/-- Behind a guard that compares the level, the level is bound. -/
theorem store_level_mem_guard (h : x.tracking.gate.comparesLevel = true)
    (hb : x.cycle.isBound .level = false) (vs : List Var) (given : Option Label) (n : Nat) :
    store .level ∈ (x.guard vs given n).1 := by
  rw [Tracking.gate, ← Gate.head?_comparesLevel, ← Tracking.gate] at h
  cases hg : x.tracking.gate with
  | openGate =>
    rw [hg] at h
    cases h
  | skipping rs =>
    rw [hg] at h
    rw [x.guard_skipping hg, hb]
    exact List.mem_append_right _ (Gate.store_level_mem_rangeSteps h)

end Context

namespace Context

variable {x : Context}

theorem mem_callWithId {c : ProbeCall} {s : Step} (h : s ∈ x.callWithId c) :
    ∃ i, s = .emit i := by
  rcases List.mem_cons.1 h with rfl | h
  · exact ⟨_, rfl⟩
  · exact ⟨_, List.mem_singleton.1 h⟩

theorem gated_eq (vs : List Var) (code : List Step) :
    x.gated vs code = (x.guard vs none x.nextLabel).1 ++ code ++
      (x.guard vs none x.nextLabel).2.elim [] Step.merge := rfl

theorem plain_of_mem_merge {l : Label} {s : Step} (h : s ∈ Step.merge l) : Plain [.level] s := by
  rcases List.mem_cons.1 h with rfl | h
  · exact .emit _
  · rw [List.mem_singleton.1 h]
    exact .emit _

theorem mem_gated {vs : List Var} {code : List Step} {s : Step} (h : s ∈ x.gated vs code) :
    Plain (.level :: vs) s ∨ s ∈ code := by
  rw [gated_eq, List.mem_append, List.mem_append] at h
  rcases h with (h | h) | h
  · exact .inl (x.plain_of_mem_guard h)
  · exact .inr h
  · cases hg : (x.guard vs none x.nextLabel).2 with
    | none =>
      rw [hg] at h
      cases h
    | some l =>
      rw [hg] at h
      cases plain_of_mem_merge h with
      | store hs => exact .inl (.store (by simp_all))
      | _ => exact .inl (by constructor)

theorem mem_measure {now : List Step} (hnow : ∀ s ∈ now, ∃ i, s = .emit i) {s : Step}
    (h : s ∈ x.measure now) : Plain [.duration] s ∨ s = .measured := by
  rw [measure, List.mem_append] at h
  rcases h with h | h
  · split at h
    · rw [List.mem_append] at h
      rcases h with h | h
      · obtain ⟨i, rfl⟩ := hnow s h
        exact .inl (.emit i)
      · rcases List.mem_cons.1 h with rfl | h
        · exact .inl (.load _)
        · rw [List.mem_singleton.1 h]
          exact .inl (.emit _)
    · rw [List.mem_singleton.1 h]
      exact .inl (.emit _)
  · rcases List.mem_cons.1 h with rfl | h
    · exact .inl (.store List.mem_cons_self)
    · exact .inr (List.mem_singleton.1 h)

theorem mem_branch {done : Label} {s : Step} (h : s ∈ x.branch done) :
    Plain [.level] s ∨ s = .await ⟨x.nextLabel + 1⟩ ∧ x.cycle.isBound .sampleHit = true := by
  rw [branch] at h
  split at h
  next hb =>
    dsimp only at h
    rw [List.mem_append, List.mem_append] at h
    rcases h with (h | h) | h
    · rcases List.mem_cons.1 h with rfl | h
      · exact .inl .newLabel
      · exact .inr ⟨List.mem_singleton.1 h, hb⟩
    · exact .inl (x.plain_of_mem_guard h)
    · rcases List.mem_cons.1 h with rfl | h
      · exact .inl (.load _)
      · rw [List.mem_singleton.1 h]
        exact .inl (.emit _)
  next => cases h

theorem mem_testSteps {tag : Bool} {s : Step} (h : s ∈ x.testSteps tag) :
    Plain [.level] s ∨ s = .await ⟨x.nextLabel + 1⟩ ∧ x.tracking.isSampled = true ∧
      x.cycle.isBound .sampleHit = true ∨
      x.tracking.timed = true ∧ (Plain [.duration] s ∨ s = .measured) := by
  have hclock {l : Label} {s : Step} (h : s ∈ x.clockMeasure l) :
      Plain [.level] s ∨ Plain [.duration] s ∨ s = .measured := by
    rw [clockMeasure, List.mem_append, List.mem_append] at h
    rcases h with (h | h) | h
    · exact .inr (.inl (x.plain_of_mem_define h))
    · exact .inl (x.plain_of_mem_guard h)
    · refine .inr (mem_measure (fun s hs => ⟨_, List.mem_singleton.1 hs⟩) h)
  rw [testSteps] at h
  dsimp only at h
  split at h
  next hm =>
    rw [List.mem_append, List.mem_append, List.mem_cons] at h
    rcases h with ((rfl | h) | h) | h
    · exact .inl .newLabel
    · exact (mem_branch h).imp id fun h => .inl ⟨h.1, hm, h.2⟩
    · split at h
      next ht =>
        split at h
        · cases h
        · exact .inr (.inr ⟨(Bool.and_eq_true _ _ ▸ ht).1, mem_measure (fun _ => mem_callWithId) h⟩)
      next => cases h
    · exact .inl (plain_of_mem_merge h)
  next =>
    split at h
    next ht =>
      rw [List.mem_append, List.mem_cons] at h
      rcases h with (rfl | h) | h
      · exact .inl .newLabel
      · split at h
        · cases h
        · exact (hclock h).imp id fun h => .inr ⟨(Bool.and_eq_true _ _ ▸ ht).1, h⟩
      · exact .inl (plain_of_mem_merge h)
    next =>
      rw [List.mem_singleton.1 h]
      exact .inl .newLabel

theorem store_duration_mem_testSteps {tag : Bool} (h : .measured ∈ x.testSteps tag) :
    .store .duration ∈ x.testSteps tag := by
  have hbranch (l : Label) : .measured ∉ x.branch l := fun h => by
    rcases mem_branch h with h | ⟨h, -⟩ <;> cases h
  have hmerge (l : Label) : .measured ∉ Step.merge l := fun h => by
    cases plain_of_mem_merge h
  rw [testSteps] at h ⊢
  dsimp only at h ⊢
  split at h <;> split at h <;> try split at h
  all_goals simp_all [measure, clockMeasure]

def sampledMeasure (x : Context) (tag : Bool) : List Step :=
  if x.tracking.timed && tag then
    if x.cycle.measured then [] else x.measure (x.callWithId .getEndTs)
  else []

theorem testSteps_of_sampled (h : x.tracking.isSampled = true) (tag : Bool) :
    x.testSteps tag = .newLabel :: x.branch ⟨x.nextLabel⟩ ++ x.sampledMeasure tag ++
      Step.merge ⟨x.nextLabel⟩ := by
  rw [testSteps]
  dsimp only
  rw [if_pos h]
  rfl

theorem testSteps_of_not_sampled (h : x.tracking.isSampled = false) (tag : Bool) :
    x.testSteps tag = if x.tracking.timed && tag then
      .newLabel :: (if x.cycle.measured then [] else x.clockMeasure ⟨x.nextLabel⟩) ++
        Step.merge ⟨x.nextLabel⟩
    else [.newLabel] := by
  rw [testSteps]
  dsimp only
  rw [if_neg (by simp [h])]

/-- A test is to store the duration: it is timed, as the method is, and its cycle has not stored one. -/
def DurationDue (x : Context) (tag : Bool) : Prop :=
  x.tracking.timed = true ∧ tag = true ∧ x.cycle.measured = false

/-- A test runs a guard: it branches on the flag of the sample, or it takes the time by the clock. -/
def Gated (x : Context) (tag : Bool) : Prop :=
  x.cycle.isBound .sampleHit = true ∨ x.tracking.isSampled = false ∧ x.DurationDue tag

theorem sampledMeasure_of_due {tag : Bool} (h : x.DurationDue tag) :
    x.sampledMeasure tag = x.measure (x.callWithId .getEndTs) := by
  obtain ⟨ht, rfl, hm⟩ := h
  simp [sampledMeasure, ht, hm]

theorem sampledMeasure_of_not_due {tag : Bool} (h : ¬ x.DurationDue tag) :
    x.sampledMeasure tag = [] := by
  rw [sampledMeasure]
  simp only [Bool.and_eq_true]
  split
  next ht =>
    rw [if_pos]
    simpa [DurationDue, ht.1, ht.2] using h
  next => rfl

theorem measured_mem_testSteps {tag : Bool} : .measured ∈ x.testSteps tag ↔
    x.DurationDue tag := by
  rw [DurationDue]
  have hmeasure (now : List Step) : .measured ∈ x.measure now := by simp [measure]
  cases hs : x.tracking.isSampled with
  | true =>
    have hbranch (l : Label) : .measured ∉ x.branch l := fun h => by
      rcases mem_branch h with h | ⟨h, -⟩ <;> cases h
    rw [x.testSteps_of_sampled hs, sampledMeasure]
    cases x.tracking.timed <;> cases tag <;> cases x.cycle.measured <;>
      simp [hbranch, hmeasure, Step.merge]
  | false =>
    rw [x.testSteps_of_not_sampled hs, clockMeasure]
    cases x.tracking.timed <;> cases tag <;> cases x.cycle.measured <;>
      simp [hmeasure, Step.merge]

/-- A test stores no duration that is not due. -/
theorem due_of_store_duration {tag : Bool} (h : .store .duration ∈ x.testSteps tag) :
    x.DurationDue tag := by
  by_contra hno
  cases hs : x.tracking.isSampled with
  | true =>
    have hbranch (l : Label) : .store .duration ∉ x.branch l := fun h => by
      rcases mem_branch h with h | ⟨h, -⟩
      · cases h with
        | store hv => cases List.mem_singleton.1 hv
      · cases h
    rw [x.testSteps_of_sampled hs, sampledMeasure_of_not_due hno] at h
    simp [hbranch, Step.merge] at h
  | false =>
    rw [x.testSteps_of_not_sampled hs] at h
    rw [DurationDue] at hno
    cases ht : x.tracking.timed <;> cases tag <;> cases hm : x.cycle.measured <;>
      simp_all [Step.merge]

/-- A marker that stores something starts no cycle. -/
theorem reset_notMem_of_store {m : Marker} {v : Var} (h : .store v ∈ x.steps m) :
    .reset ∉ x.steps m := by
  by_cases hm : m.kind = .reset
  · rw [steps, hm] at h
    cases List.mem_singleton.1 h
  · exact (x.scoped_steps hm).reset_notMem

end Context

end MethodProbes
