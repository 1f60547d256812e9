import MethodProbes.Proofs.Expansion.Coherent

/-!
# Stores before jumps

A gate may skip the code of its marker, and a test the code up to the else marker.  So whatever the
code of a marker stores has been stored by earlier markers, or it is stored before the first jump, label or
frame.
-/
namespace MethodProbes

open Step

namespace Step

/-- Control may leave the code here, or enter it. -/
def isFlow : Step → Bool
  | emit (.jump _ _) | emit (.label _) | emit (.frame _) => true
  | _ => false

def early (ss : List Step) : List Step := ss.takeWhile fun s => !s.isFlow

/-- No step is a jump, a label or a frame. -/
def Straight (ss : List Step) : Prop := ∀ s ∈ ss, s.isFlow = false

variable {ss ts : List Step} {s : Step}

theorem Straight.nil : Straight [] := fun _ hs => absurd hs List.not_mem_nil

theorem Straight.append (hs : Straight ss) (ht : Straight ts) : Straight (ss ++ ts) :=
  fun s h => (List.mem_append.1 h).elim (hs s) (ht s)

theorem Straight.early_append (h : Straight ss) (ts : List Step) :
    early (ss ++ ts) = ss ++ early ts :=
  List.takeWhile_append_of_pos fun s hs => by rw [h s hs]; rfl

theorem Straight.early_eq (h : Straight ss) : early ss = ss := by
  have hnil := h.early_append []
  rwa [List.append_nil, show early [] = [] from rfl, List.append_nil] at hnil

theorem mem_early_append (h : s ∈ early ss) (ts : List Step) : s ∈ early (ss ++ ts) := by
  induction ss with
  | nil => cases h
  | cons t ss ih =>
    rw [early, List.takeWhile_cons] at h
    rw [early, List.cons_append, List.takeWhile_cons]
    split at h
    next ht =>
      rw [if_pos ht]
      rcases List.mem_cons.1 h with rfl | h
      · exact List.mem_cons_self
      · exact List.mem_cons_of_mem _ (ih h)
    next => cases h

theorem mem_of_mem_early {j : Step} (hj : j.isFlow = true) (h : s ∈ early (ss ++ j :: ts)) :
    s ∈ ss := by
  induction ss with
  | nil =>
    rw [early, List.nil_append, List.takeWhile_cons, hj] at h
    cases h
  | cons t ss ih =>
    rw [early, List.cons_append, List.takeWhile_cons] at h
    split at h
    · exact (List.mem_cons.1 h).elim (· ▸ List.mem_cons_self) fun h =>
        List.mem_cons_of_mem _ (ih h)
    · cases h

end Step

namespace Cycle

/-- If a timed method has decided about the sample, its duration has a slot. -/
def Backed (t : Tracking) (c : Cycle) : Prop :=
  c.isBound .sampleHit = true → t.timed = true → c.isBound .duration = true

theorem Coherent.backed {t : Tracking} {c : Cycle} (h : c.Coherent t) : c.Backed t :=
  fun hb => h.duration (.inr hb)

end Cycle

namespace Gate

variable {field : String} {skip next : Label} {bound : Bool} {v : Var}

theorem bound_of_store_mem_checkSteps {cs : List Check}
    (h : .store v ∈ checkSteps field skip next bound cs) : bound = false := by
  induction cs generalizing bound with
  | nil => cases h
  | cons k cs ih =>
    have hlevel {n : Int32} {c d : Cond} {l : Label}
        (h : .store v ∈ pushLevel field bound ++ compare n c d l ++
          checkSteps field skip next true cs) : bound = false := by
      cases bound with
      | false => rfl
      | true =>
        rw [List.mem_append, List.mem_append] at h
        rcases h with (h | h) | h
        · simp [pushLevel] at h
        · rw [compare] at h
          split at h <;> simp at h
        · exact absurd (ih h) (by simp)
    cases k with
    | nextIfBelow n => exact hlevel h
    | skipIfAtMost n => exact hlevel h
    | skip => exact ih ((List.mem_cons.1 h).resolve_left (by simp))

theorem bound_of_store_mem_rangeSteps {n : Nat} {rs : List SkipRange}
    (h : .store v ∈ rangeSteps field skip bound n rs) : bound = false := by
  induction rs generalizing bound n with
  | nil => cases h
  | cons r rs ih =>
    rw [rangeSteps, List.mem_append, List.mem_append, List.mem_cons] at h
    rcases h with ((h | h) | h) | h
    · cases h
    · exact bound_of_store_mem_checkSteps h
    · simp [Step.merge] at h
    · exact (Bool.or_eq_false_iff.1 (ih h)).1

theorem store_notMem_of_not_comparesLevel {n : Nat} {rs : List SkipRange}
    (h : ∀ r ∈ rs, r.comparesLevel = false) : .store v ∉ rangeSteps field skip bound n rs := by
  induction rs generalizing bound n with
  | nil => exact List.not_mem_nil
  | cons r rs ih =>
    obtain ⟨hr, hrs⟩ := List.forall_mem_cons.1 h
    obtain ⟨_ | lo, _ | hi⟩ := r
    · simpa [rangeSteps, SkipRange.checks, checkSteps, Step.merge] using ih hrs
    all_goals cases hr

/-- The first range of a gate stores the level before its first jump, if any range does. -/
theorem store_mem_early_rangeSteps {n : Nat} {rs : List SkipRange}
    (hrs : (∀ r ∈ rs, r.comparesLevel = false) ∨ rs.head?.any SkipRange.comparesLevel = true)
    (h : .store v ∈ rangeSteps field skip bound n rs) :
    .store v ∈ early (rangeSteps field skip bound n rs) := by
  have hv : v = .level := by
    cases plain_of_mem_rangeSteps h with
    | store hv => exact List.mem_singleton.1 hv
  obtain rfl := bound_of_store_mem_rangeSteps h
  subst hv
  rcases hrs with hrs | hrs
  · exact absurd h (store_notMem_of_not_comparesLevel hrs)
  · cases rs with
    | nil => cases hrs
    | cons r rs =>
      obtain ⟨_ | lo, _ | hi⟩ := r
      · cases hrs
      all_goals
        simp [early, rangeSteps, SkipRange.checks, checkSteps, pushLevel, isFlow]

end Gate

namespace Context

variable (x : Context)

/-- Whatever the steps store is bound, or it is stored before the first jump, label or frame. -/
def StoresEarly (ss : List Step) : Prop := ∀ v, .store v ∈ ss → x.Bound v ∨ .store v ∈ early ss

variable {x} {ss ts : List Step}

theorem StoresEarly.of_straight (h : Straight ss) : x.StoresEarly ss := fun _ hv =>
  .inr (h.early_eq.symm ▸ hv)

theorem StoresEarly.append_left (hs : Straight ss) (ht : x.StoresEarly ts) :
    x.StoresEarly (ss ++ ts) := fun v hv => by
  rw [hs.early_append, List.mem_append]
  rcases List.mem_append.1 hv with hv | hv
  · exact .inr (.inl hv)
  · exact (ht v hv).imp_right .inr

theorem StoresEarly.append_right (hs : x.StoresEarly ss)
    (ht : ∀ v, .store v ∈ ts → x.Bound v ∨ .store v ∈ early ss) : x.StoresEarly (ss ++ ts) :=
  fun v hv => ((List.mem_append.1 hv).elim (hs v) (ht v)).imp_right (mem_early_append · ts)

theorem straight_define (v : Var) : Straight (x.define v) := by
  rw [define]
  split <;> simp [Straight, isFlow]

theorem straight_defineAll (vs : List Var) : Straight (vs.flatMap x.define) := by
  intro s hs
  obtain ⟨v, -, hs⟩ := List.mem_flatMap.1 hs
  exact straight_define v s hs

theorem straight_callWithId (c : ProbeCall) : Straight (x.callWithId c) := by
  simp [Straight, callWithId, isFlow]

theorem straight_measure {now : List Step} (h : Straight now) : Straight (x.measure now) := by
  rw [measure]
  split
  · exact (h.append (by simp [Straight, isFlow])).append
      (by simp [Straight, isFlow])
  · simp [Straight, isFlow]

theorem bound_or_store_mem_define (v : Var) : x.Bound v ∨ .store v ∈ x.define v := by
  rw [define]
  split
  next h => exact .inl h
  next => exact .inr (by simp)

theorem storesEarly_guard (vs : List Var) (given : Option Label) (n : Nat) :
    x.StoresEarly (x.guard vs given n).1 := by
  cases hg : x.tracking.gate with
  | openGate =>
    rw [x.guard_openGate hg]
    exact .of_straight .nil
  | skipping rs =>
    have hgiven : Straight (given.elim [.newLabel] fun _ => []) := by
      cases given <;> simp [Straight, isFlow]
    have hrs : (∀ r ∈ rs, r.comparesLevel = false) ∨
        rs.head?.any SkipRange.comparesLevel = true := by
      have hhead := Gate.head?_comparesLevel x.tracking.levels
      rw [← Tracking.gate, hg] at hhead
      rw [Gate.ranges] at hhead
      rw [hhead, ← Bool.not_eq_false, ← imp_iff_or_not]
      intro h r hr
      exact Bool.eq_false_iff.2 (List.any_eq_false.1 h r hr)
    rw [x.guard_skipping hg]
    exact ((straight_defineAll vs).append hgiven |> StoresEarly.append_left) fun v hv =>
      .inr (Gate.store_mem_early_rangeSteps hrs hv)

/-- A gate that may skip gives its variables a value before. -/
theorem bound_or_store_mem_guard {rs : List SkipRange} (hg : x.tracking.gate = .skipping rs)
    {vs : List Var} {v : Var} (hv : v ∈ vs) (given : Option Label) (n : Nat) :
    x.Bound v ∨ .store v ∈ early (x.guard vs given n).1 := by
  rw [x.guard_skipping hg, List.append_assoc, (straight_defineAll vs).early_append]
  refine (bound_or_store_mem_define v).imp_right fun h => List.mem_append_left _ ?_
  exact List.mem_flatMap.2 ⟨v, hv, h⟩

theorem storesEarly_gated {vs : List Var} {code : List Step} (hcode : Straight code)
    (hvs : ∀ v, .store v ∈ code → v ∈ vs) : x.StoresEarly (x.gated vs code) := by
  have hmerge (skip : Option Label) (v : Var) : .store v ∉ skip.elim [] Step.merge := by
    cases skip <;> simp [Step.merge]
  rw [gated_eq]
  cases hg : x.tracking.gate with
  | openGate =>
    rw [x.guard_openGate hg]
    exact .of_straight (by simpa using hcode)
  | skipping rs =>
    refine (x.storesEarly_guard vs _ _).append_right (fun v hv => ?_) |>.append_right fun v hv =>
      absurd hv (hmerge _ v)
    exact bound_or_store_mem_guard hg (hvs v hv) _ _

theorem storesEarly_entry : x.StoresEarly x.entrySteps := by
  have hnil : x.StoresEarly [] := .of_straight .nil
  have htail : Straight
      [emit (.dup .long), .store .entryTs, .emit .longToInt, .store .sampleHit] := by
    simp [Straight, isFlow]
  rw [entrySteps]
  split
  · apply StoresEarly.append_left (straight_define _)
    split
    · exact hnil
    · exact storesEarly_gated ((straight_callWithId _).append htail) (by simp [callWithId])
  · split
    · exact hnil
    · exact storesEarly_gated ((straight_callWithId _).append (by simp [Straight, isFlow]))
        (by simp [callWithId])
  · split
    · exact hnil
    · apply StoresEarly.append_left (straight_define _)
      exact storesEarly_gated (by simp [Straight, isFlow]) (by simp)
  · exact hnil

theorem comparesLevel_of_store_guard {given : Option Label} {n : Nat} {v : Var}
    (h : .store v ∈ (x.guard [] given n).1) : x.tracking.gate.comparesLevel = true := by
  rw [← Bool.not_eq_false]
  intro hno
  cases hg : x.tracking.gate with
  | openGate =>
    rw [x.guard_openGate hg] at h
    cases h
  | skipping rs =>
    rw [hg] at hno
    rw [x.guard_skipping hg, List.mem_append, List.mem_append] at h
    rcases h with (h | h) | h
    · cases h
    · cases given <;> simp at h
    · refine Gate.store_notMem_of_not_comparesLevel (fun r hr => ?_) h
      exact Bool.eq_false_iff.2 (List.any_eq_false.1 hno r hr)

theorem comparesLevel_of_store_test {tag : Bool} (h : .store .level ∈ x.testSteps tag) :
    x.tracking.gate.comparesLevel = true := by
  have hmeasure {now : List Step} (hnow : ∀ s ∈ now, ∃ i, s = emit i) :
      .store .level ∉ x.measure now := fun h => by
    rcases mem_measure hnow h with h | h
    · cases h with
      | store hv => cases List.mem_singleton.1 hv
    · cases h
  have hdefine : .store .level ∉ x.define .duration := fun h => by
    cases x.plain_of_mem_define h with
    | store hv => cases List.mem_singleton.1 hv
  have hmerge (l : Label) : .store .level ∉ Step.merge l := by simp [Step.merge]
  cases hm : x.tracking.isSampled with
  | true =>
    rw [x.testSteps_of_sampled hm, List.mem_append, List.mem_append, List.mem_cons] at h
    rcases h with ((h | h) | h) | h
    · cases h
    · rw [branch] at h
      split at h
      · dsimp only at h
        rw [List.mem_append, List.mem_append] at h
        rcases h with (h | h) | h
        · simp at h
        · exact comparesLevel_of_store_guard h
        · simp at h
      · cases h
    · rw [sampledMeasure] at h
      split at h
      · split at h
        · cases h
        · exact absurd h (hmeasure fun _ => mem_callWithId)
      · cases h
    · exact absurd h (hmerge _)
  | false =>
    rw [testSteps] at h
    dsimp only at h
    rw [if_neg (by simp [hm])] at h
    split at h
    · rw [List.mem_append, List.mem_cons] at h
      rcases h with (h | h) | h
      · cases h
      · split at h
        · cases h
        · rw [clockMeasure, List.mem_append, List.mem_append] at h
          rcases h with (h | h) | h
          · exact absurd h hdefine
          · exact comparesLevel_of_store_guard h
          · exact absurd h (hmeasure fun s hs => ⟨_, List.mem_singleton.1 hs⟩)
      · exact absurd h (hmerge _)
    · simp at h

theorem bound_of_entered (hc : x.cycle.Coherent x.tracking) (he : x.cycle.Entered) {m : Marker}
    {v : Var} (h : .store v ∈ x.steps m) : x.Bound v := by
  by_cases hentry : m.kind = .entry
  · rw [steps, hentry] at h
    dsimp only at h
    rw [entrySteps_of_entered hc he] at h
    cases h
  · obtain ⟨hm, rfl | ⟨rfl, ht⟩⟩ := store_mem_steps hentry h
    · rw [steps, hm] at h
      exact hc.level he (comparesLevel_of_store_test h)
    · exact hc.duration he ht

theorem storesEarly_clockMeasure (done : Label) : x.StoresEarly (x.clockMeasure done) := by
  have hguard : x.StoresEarly (x.define .duration ++ x.testsTo done (x.nextLabel + 1)) :=
    .append_left (straight_define _) (x.storesEarly_guard [] _ _)
  refine hguard.append_right fun v hv => ?_
  rcases mem_measure (fun s hs => ⟨_, List.mem_singleton.1 hs⟩) hv with hv | hv
  · cases hv with
    | store hv =>
      rw [List.mem_singleton.1 hv, (straight_define _).early_append]
      exact (bound_or_store_mem_define _).imp_right (List.mem_append_left _)
  · cases hv

theorem storesEarly_branch (done : Label) : x.StoresEarly (x.branch done) := by
  rw [branch]
  split
  · have hwait : Straight [.newLabel, .await ⟨x.nextLabel + 1⟩] := by simp [Straight, isFlow]
    have hguard := StoresEarly.append_left hwait (x.storesEarly_guard [] (some done) (x.nextLabel + 2))
    exact hguard.append_right (by simp)
  · exact .of_straight .nil

/-- A test that branches stores behind the branch nothing but a bound duration. -/
theorem storesEarly_sampledTest (hc : x.cycle.Backed x.tracking) (tag : Bool) :
    x.StoresEarly (.newLabel :: x.branch ⟨x.nextLabel⟩ ++ x.sampledMeasure tag) := by
  have hmeasure : Straight (x.sampledMeasure tag) ∧
      ∀ v, .store v ∈ x.sampledMeasure tag → v = .duration ∧ x.tracking.timed = true := by
    rw [sampledMeasure]
    split
    next ht =>
      split
      · exact ⟨.nil, fun v hv => absurd hv List.not_mem_nil⟩
      · refine ⟨straight_measure (straight_callWithId _), fun v hv => ?_⟩
        rcases mem_measure (fun _ => mem_callWithId) hv with hv | hv
        · cases hv with
          | store hv => exact ⟨List.mem_singleton.1 hv, (Bool.and_eq_true _ _ ▸ ht).1⟩
        · cases hv
    next => exact ⟨.nil, fun v hv => absurd hv List.not_mem_nil⟩
  have hnew : Straight [.newLabel] := by simp [Straight, isFlow]
  have hbranch : x.StoresEarly (.newLabel :: x.branch ⟨x.nextLabel⟩) :=
    .append_left hnew (storesEarly_branch _)
  cases hhit : x.cycle.isBound .sampleHit with
  | true =>
    refine hbranch.append_right fun v hv => .inl ?_
    obtain ⟨rfl, ht⟩ := hmeasure.2 v hv
    exact hc hhit ht
  | false =>
    -- there is nothing to branch on, so nothing is skipped
    rw [branch, if_neg (by simp [hhit])]
    exact .of_straight (.append (by simp [Straight, isFlow]) hmeasure.1)

theorem storesEarly_test (hc : x.cycle.Backed x.tracking) (tag : Bool) :
    x.StoresEarly (x.testSteps tag) := by
  have hmerge (l : Label) (v : Var) : .store v ∉ Step.merge l := by simp [Step.merge]
  cases hs : x.tracking.isSampled with
  | true =>
    rw [x.testSteps_of_sampled hs]
    exact (storesEarly_sampledTest hc tag).append_right fun v hv => absurd hv (hmerge _ v)
  | false =>
    rw [x.testSteps_of_not_sampled hs]
    split
    · have hrun : x.StoresEarly ([.newLabel] ++ if x.cycle.measured then [] else
          x.clockMeasure ⟨x.nextLabel⟩) := by
        refine .append_left (by simp [Straight, isFlow]) ?_
        split
        · exact .of_straight .nil
        · exact storesEarly_clockMeasure _
      exact hrun.append_right fun v hv => absurd hv (hmerge _ v)
    · exact .of_straight (by simp [Straight, isFlow])

/-- Whatever a marker stores is bound before it, or it is stored before the first jump, label or frame. -/
theorem storesEarly_steps (hc : x.cycle.Backed x.tracking) (m : Marker) :
    x.StoresEarly (x.steps m) := by
  by_cases hentry : m.kind = .entry
  · rw [steps, hentry]
    exact storesEarly_entry
  by_cases htest : m.kind = .test
  · rw [steps, htest]
    exact storesEarly_test hc _
  · exact fun v hv => absurd (store_mem_steps hentry hv).1 htest

end Context

end MethodProbes
