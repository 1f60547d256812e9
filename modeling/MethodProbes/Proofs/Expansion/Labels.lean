import MethodProbes.Proofs.Expansion.StoredVars
import MethodProbes.Proofs.Level.GuardRun

/-!
# The labels of a marker's code

The code of a marker places labels that it has taken itself, and jumps forward to them.  Only an
else marker places a label of an earlier marker, the one that is pending.
-/
namespace MethodProbes

open Step

/-- The instruction places the label or jumps to it. -/
def Insn.Names (i : Insn) (l : Label) : Prop := i = .label l ∨ i.target? = some l

/-- Code whose labels have numbers from `n` up to `k`, and whose jumps go forward. -/
structure Fresh (n k : Nat) (code : List Insn) : Prop where
  names : ∀ i ∈ code, ∀ l, i.Names l → n ≤ l.id ∧ l.id < k
  forward : Forward code

namespace Fresh

variable {n k : Nat} {a b : List Insn}

theorem of_no_names (h : ∀ i ∈ a, ∀ l, ¬ i.Names l) : Fresh n k a :=
  ⟨fun i hi l hl => absurd hl (h i hi l), .of_no_label fun l hl => h _ hl l (.inl rfl)⟩

theorem append (ha : Fresh n k a) (hb : Fresh n k b)
    (h : ∀ l, .label l ∈ a → ∀ i ∈ b, i.target? ≠ some l) : Fresh n k (a ++ b) := by
  refine ⟨fun i hi l hl => ?_, ha.forward.append hb.forward h⟩
  exact (List.mem_append.1 hi).elim (fun hi => ha.names i hi l hl) fun hi => hb.names i hi l hl

theorem append_left (ha : ∀ i ∈ a, ∀ l, ¬ i.Names l) (hb : Fresh n k b) : Fresh n k (a ++ b) :=
  (of_no_names ha).append hb fun l hl => absurd (.inl rfl) (ha _ hl l)

theorem append_right (ha : Fresh n k a) (hb : ∀ i ∈ b, ∀ l, ¬ i.Names l) : Fresh n k (a ++ b) :=
  ha.append (of_no_names hb) fun l _ i hi ht => hb i hi l (.inr ht)

/-- A label at the end of the code is not jumped over. -/
theorem append_merge (ha : Fresh n k a) {l : Label} (hl : n ≤ l.id ∧ l.id < k) :
    Fresh n k (a ++ [.label l, .frame l]) := by
  refine ha.append ⟨?_, .of_no_jump (by simp [Insn.target?])⟩ (by simp [Insn.target?])
  simp only [List.mem_cons, List.not_mem_nil, or_false, forall_eq_or_imp, forall_eq, Insn.Names,
    Insn.target?, Insn.label.injEq, reduceCtorEq, false_imp_iff, implies_true, and_true]
  rintro k rfl
  exact hl

end Fresh

namespace Gate

theorem count_newLabel_checkSteps (field : String) (skip next : Label) (bound : Bool)
    (cs : List Check) : (checkSteps field skip next bound cs).count .newLabel = 0 := by
  apply List.count_eq_zero.2
  intro h
  induction cs generalizing bound with
  | nil => cases h
  | cons k cs ih =>
    cases k with
    | skip => exact ih bound ((List.mem_cons.1 h).resolve_left (by simp))
    | _ =>
      rw [checkSteps, List.mem_append, List.mem_append] at h
      rcases h with (h | h) | h
      · rw [pushLevel] at h
        split at h <;> simp at h
      · rw [compare] at h
        split at h <;> simp at h
      · exact ih true h

theorem count_newLabel_rangeSteps (field : String) (skip : Label) (bound : Bool) (n : Nat)
    (rs : List SkipRange) : (rangeSteps field skip bound n rs).count .newLabel = rs.length := by
  induction rs generalizing bound n with
  | nil => rfl
  | cons r rs ih =>
    simp [rangeSteps, Step.merge, List.count_append, count_newLabel_checkSteps, ih]

end Gate

namespace Context

variable (x : Context) {σ : Layout}

theorem count_newLabel_define (v : Var) : (x.define v).count .newLabel = 0 := by
  rw [define]
  split <;> rfl

theorem count_newLabel_defineAll (vs : List Var) :
    (vs.flatMap x.define).count .newLabel = 0 := by
  simp [List.count_flatMap, Function.comp_def, count_newLabel_define]

theorem not_names_of_mem_defineAll {vs : List Var} {i : Insn}
    (h : i ∈ written σ (vs.flatMap x.define)) (l : Label) : ¬ i.Names l := by
  obtain ⟨v, -, rfl | rfl⟩ := x.insn_of_mem_defineAll h <;> simp [Insn.Names, Insn.target?]

theorem not_names_of_mem_define {v : Var} {i : Insn} (h : i ∈ written σ (x.define v)) (l : Label) :
    ¬ i.Names l := by
  have h : i ∈ written σ ([v].flatMap x.define) := by simpa using h
  exact x.not_names_of_mem_defineAll h l

/-- A guard that skips to a label of its marker names labels of its marker only. -/
theorem fresh_guard (vs : List Var) {given : Option Label} {n m : Nat}
    (hgiven : ∀ l ∈ given, m ≤ l.id ∧ l.id < n) (hmn : m ≤ n) :
    Fresh m (n + (x.guard vs given n).1.count .newLabel) (written σ (x.guard vs given n).1) := by
  refine ⟨fun i hi l hl => ?_, x.forward_guard fun l hl => (hgiven l hl).2⟩
  cases hg : x.tracking.gate with
  | openGate =>
    rw [x.guard_openGate hg] at hi
    cases hi
  | skipping rs =>
    have hskip : m ≤ (skipLabel given n).id ∧
        (skipLabel given n).id < firstRange given n ∧ n ≤ firstRange given n := by
      cases given with
      | none => exact ⟨hmn, Nat.lt_succ_self n, Nat.le_succ n⟩
      | some k => exact ⟨(hgiven k rfl).1, (hgiven k rfl).2, Nat.le_refl n⟩
    have hcount : n + (x.guard vs given n).1.count .newLabel = firstRange given n + rs.length := by
      rw [x.guard_skipping hg]
      cases given <;> simp [List.count_append, count_newLabel_defineAll,
        Gate.count_newLabel_rangeSteps, firstRange]
      omega
    rw [x.written_skipping hg, List.mem_append] at hi
    rcases hi with hi | hi
    · exact absurd hl (x.not_names_of_mem_defineAll hi l)
    · rw [hcount]
      cases Gate.gateInsn_of_mem hi with
      | jump c h =>
        obtain rfl : _ = l := by simpa [Insn.Names, Insn.target?] using hl
        rcases h with rfl | h <;> omega
      | label h =>
        obtain rfl : _ = l := by simpa [Insn.Names, Insn.target?] using hl
        omega
      | _ => simp [Insn.Names, Insn.target?] at hl

theorem le_of_label_mem_guard {vs : List Var} {given : Option Label} {n : Nat} {l : Label}
    (h : .label l ∈ written σ (x.guard vs given n).1) : n ≤ l.id := by
  cases hg : x.tracking.gate with
  | openGate =>
    rw [x.guard_openGate hg] at h
    cases h
  | skipping rs =>
    rw [x.written_skipping hg, List.mem_append] at h
    have h := h.resolve_left (x.label_notMem_defineAll l)
    cases Gate.gateInsn_of_mem h with
    | label h => cases given <;> simp only [firstRange, Option.elim] at h <;> omega

theorem fresh_gated (vs : List Var) {code : List Step}
    (hcode : ∀ i ∈ written σ code, ∀ l, ¬ i.Names l) :
    Fresh x.nextLabel (x.nextLabel + (x.guard vs none x.nextLabel).1.count .newLabel)
      (written σ (x.gated vs code)) := by
  have hnone : ∀ l ∈ (none : Option Label), x.nextLabel ≤ l.id ∧ l.id < x.nextLabel := nofun
  have hguard := x.fresh_guard (σ := σ) vs hnone (Nat.le_refl x.nextLabel)
  have hrun := hguard.append_right hcode
  unfold gated
  cases hg : x.tracking.gate with
  | openGate =>
    rw [x.guard_openGate hg] at hrun ⊢
    simpa using hrun
  | skipping rs =>
    have hlabel : .newLabel ∈ (x.guard vs none x.nextLabel).1 := by
      rw [x.guard_skipping hg]
      simp
    have hlt : x.nextLabel <
        x.nextLabel + (x.guard vs none x.nextLabel).1.count .newLabel :=
      Nat.lt_add_of_pos_right (List.count_pos_iff.2 hlabel)
    have hskip : (x.guard vs none x.nextLabel).2 = some ⟨x.nextLabel⟩ := by
      rw [x.guard_skipping hg]
      rfl
    generalize x.guard vs none x.nextLabel = g at *
    obtain ⟨tests, skip⟩ := g
    obtain rfl : skip = some ⟨x.nextLabel⟩ := hskip
    simpa using hrun.append_merge (l := ⟨x.nextLabel⟩) ⟨Nat.le_refl _, hlt⟩

theorem count_newLabel_gated (vs : List Var) (code : List Step) :
    (x.gated vs code).count .newLabel =
      (x.guard vs none x.nextLabel).1.count .newLabel + code.count .newLabel := by
  unfold gated
  generalize x.guard vs none x.nextLabel = g
  obtain ⟨tests, _ | skip⟩ := g <;> simp [List.count_append, Step.merge]

/-- A marker's labels are those that it takes. -/
def FreshSteps (σ : Layout) (ss : List Step) : Prop :=
  Fresh x.nextLabel (x.nextLabel + ss.count .newLabel) (written σ ss)

theorem freshSteps_of_no_names {ss : List Step} (h : ∀ i ∈ written σ ss, ∀ l, ¬ i.Names l) :
    x.FreshSteps σ ss := .of_no_names h

theorem freshSteps_gated (vs : List Var) {code : List Step}
    (hcode : ∀ i ∈ written σ code, ∀ l, ¬ i.Names l) (hcount : code.count .newLabel = 0) :
    x.FreshSteps σ (x.gated vs code) := by
  have hgated := x.fresh_gated (σ := σ) vs hcode
  rwa [FreshSteps, count_newLabel_gated, hcount, Nat.add_zero]

theorem freshSteps_define_append (v : Var) {ss : List Step} (h : x.FreshSteps σ ss) :
    x.FreshSteps σ (x.define v ++ ss) := by
  rw [FreshSteps, written_append, List.count_append, count_newLabel_define, Nat.zero_add]
  exact h.append_left fun i hi => x.not_names_of_mem_define hi

theorem freshSteps_entry : x.FreshSteps σ x.entrySteps := by
  have hnil : x.FreshSteps σ [] := x.freshSteps_of_no_names (by simp)
  rw [entrySteps]
  split
  · apply x.freshSteps_define_append
    split
    · exact hnil
    · exact x.freshSteps_gated _ (by simp [callWithId, insns, Insn.Names, Insn.target?])
        (by simp [callWithId])
  · split
    · exact hnil
    · exact x.freshSteps_gated _ (by simp [callWithId, insns, Insn.Names, Insn.target?])
        (by simp [callWithId])
  · split
    · exact hnil
    · apply x.freshSteps_define_append
      exact x.freshSteps_gated _ (by simp [insns, Insn.Names, Insn.target?]) (by simp)
  · exact hnil

theorem not_names_of_mem_measure {now : List Step}
    (hnow : ∀ i ∈ written σ now, ∀ l, ¬ i.Names l) {i : Insn} (hi : i ∈ written σ (x.measure now))
    (l : Label) : ¬ i.Names l := by
  rw [measure] at hi
  split at hi
  · simp only [written_append, written_cons, written_nil, insns, List.append_nil, List.mem_append,
      List.mem_singleton] at hi
    rcases hi with (hi | rfl | rfl) | rfl
    · exact hnow i hi l
    all_goals simp [Insn.Names, Insn.target?]
  · simp only [written_append, written_cons, written_nil, insns, List.append_nil, List.mem_append,
      List.mem_singleton] at hi
    rcases hi with rfl | rfl <;> simp [Insn.Names, Insn.target?]

theorem fresh_branch :
    Fresh x.nextLabel (x.nextLabel + 1 + (x.branch ⟨x.nextLabel⟩).count .newLabel)
      (written σ (x.branch ⟨x.nextLabel⟩)) := by
  rw [branch]
  split
  · have hgiven : ∀ l ∈ some (⟨x.nextLabel⟩ : Label),
        x.nextLabel ≤ l.id ∧ l.id < x.nextLabel + 2 := by simp
    have hguard := x.fresh_guard (σ := σ) [] hgiven (Nat.le_add_right _ _)
    have hjump : Fresh x.nextLabel (x.nextLabel + 2 +
        (x.guard [] (some ⟨x.nextLabel⟩) (x.nextLabel + 2)).1.count .newLabel)
        [.load .int (σ.slot .sampleHit), .jump .ifZero ⟨x.nextLabel + 1⟩] := by
      refine ⟨fun i hi l hl => ?_, .of_no_label (by simp)⟩
      rcases List.mem_cons.1 hi with rfl | hi
      · simp [Insn.Names, Insn.target?] at hl
      · obtain rfl := List.mem_singleton.1 hi
        obtain rfl : (⟨x.nextLabel + 1⟩ : Label) = l := by simpa [Insn.Names, Insn.target?] using hl
        exact ⟨Nat.le_succ _, by dsimp only; omega⟩
    have hall := hguard.append hjump fun l hl i hi ht => by
      have hle := x.le_of_label_mem_guard hl
      rcases List.mem_cons.1 hi with rfl | hi
      · cases ht
      · obtain rfl := List.mem_singleton.1 hi
        cases ht
        dsimp only at hle
        omega
    have hcount (n : Nat) : x.nextLabel + 2 + n = x.nextLabel + 1 + (n + 1) := by omega
    simpa [testsTo, insns, Var.type, List.count_append, hcount] using hall
  · exact .of_no_names (by simp)

theorem fresh_clockMeasure :
    Fresh x.nextLabel (x.nextLabel + 1 + (x.clockMeasure ⟨x.nextLabel⟩).count .newLabel)
      (written σ (x.clockMeasure ⟨x.nextLabel⟩)) := by
  have hgiven : ∀ l ∈ some (⟨x.nextLabel⟩ : Label),
      x.nextLabel ≤ l.id ∧ l.id < x.nextLabel + 1 := by simp
  have hguard := x.fresh_guard (σ := σ) [] hgiven (Nat.le_add_right _ _)
  have hmeasure (i : Insn) (hi : i ∈ written σ (x.measure
      [.emit (.invoke ProbeCall.nanoTime.callee)])) (l : Label) : ¬ i.Names l :=
    x.not_names_of_mem_measure (by simp [insns, Insn.Names, Insn.target?]) hi l
  have hcount : (x.measure [.emit (.invoke ProbeCall.nanoTime.callee)]).count .newLabel = 0 := by
    rw [measure]
    split <;> simp
  have hdefine (i : Insn) (hi : i ∈ written σ (x.define .duration)) (l : Label) : ¬ i.Names l :=
    x.not_names_of_mem_define hi l
  have hall := (hguard.append_right hmeasure).append_left hdefine
  rw [clockMeasure, testsTo]
  simpa only [written_append, List.count_append, count_newLabel_define, hcount, Nat.zero_add,
    Nat.add_zero, List.append_assoc] using hall

theorem count_newLabel_sampledMeasure (tag : Bool) :
    (x.sampledMeasure tag).count .newLabel = 0 := by
  rw [sampledMeasure]
  split
  · split
    · rfl
    · rw [measure]
      split <;> simp [callWithId]
  · rfl

theorem not_names_of_mem_sampledMeasure {tag : Bool} {i : Insn}
    (hi : i ∈ written σ (x.sampledMeasure tag)) (l : Label) : ¬ i.Names l := by
  rw [sampledMeasure] at hi
  split at hi
  · split at hi
    · cases hi
    · exact x.not_names_of_mem_measure
        (by simp [callWithId, insns, Insn.Names, Insn.target?]) hi l
  · cases hi

theorem freshSteps_test (tag : Bool) : x.FreshSteps σ (x.testSteps tag) := by
  have hdone (n : Nat) :
      x.nextLabel ≤ x.nextLabel ∧ x.nextLabel < x.nextLabel + 1 + n := by omega
  have hcount (n : Nat) : x.nextLabel + 1 + n = x.nextLabel + (n + 1) := by omega
  cases hm : x.tracking.isSampled with
  | true =>
    have hmeasure (i : Insn) (hi : i ∈ written σ (x.sampledMeasure tag)) (l : Label) :
        ¬ i.Names l := x.not_names_of_mem_sampledMeasure hi l
    have hall := ((x.fresh_branch (σ := σ)).append_right hmeasure).append_merge
      (l := ⟨x.nextLabel⟩) (hdone _)
    rw [FreshSteps, x.testSteps_of_sampled hm]
    simpa [List.count_append, count_newLabel_sampledMeasure, insns, Step.merge, hcount] using hall
  | false =>
    rw [FreshSteps, testSteps]
    dsimp only
    rw [if_neg (by simp [hm])]
    split
    · split
      · have hnil : Fresh x.nextLabel (x.nextLabel + 1 + 0) [] := .of_no_names (by simp)
        exact hnil.append_merge (hdone 0)
      · have hall := (x.fresh_clockMeasure (σ := σ)).append_merge (l := ⟨x.nextLabel⟩) (hdone _)
        simpa [List.count_append, insns, Step.merge, hcount] using hall
    · exact x.freshSteps_of_no_names (by simp [insns])

theorem freshSteps_exit : x.FreshSteps σ x.exitSteps := by
  rw [exitSteps]
  split
  · have hjump : Fresh x.nextLabel (x.nextLabel + 1) (written σ
        ([.newLabel, .load .sampleHit, .emit (.jump .ifZero ⟨x.nextLabel⟩)] ++
          x.callWithId .updateEndTs)) := by
      refine ⟨?_, .of_no_label (by simp [callWithId, insns])⟩
      simp [callWithId, insns, Insn.Names, Insn.target?]
    have hall := hjump.append_merge (l := ⟨x.nextLabel⟩) ⟨Nat.le_refl _, Nat.lt_succ_self _⟩
    simpa [FreshSteps, callWithId, Step.merge, insns] using hall
  · exact x.freshSteps_of_no_names (by simp)

/-- Every marker but an else marker names labels of its own only. -/
theorem freshSteps (m : Marker) (hm : m.kind ≠ .elseBranch) : x.FreshSteps σ (x.steps m) := by
  rw [steps]
  cases hk : m.kind with
  | entry => exact x.freshSteps_entry
  | test => exact x.freshSteps_test _
  | elseBranch => exact absurd hk hm
  | duration =>
    dsimp only [durationSteps]
    split <;> exact x.freshSteps_of_no_names (by simp [insns, Insn.Names, Insn.target?])
  | exit => exact x.freshSteps_exit
  | reset => exact x.freshSteps_of_no_names (by simp [insns])

theorem written_else : written σ x.elseSteps =
    x.cycle.pendingElse.elim [] fun l => [.label l, .frame l] := by
  rw [elseSteps]
  cases x.cycle.pendingElse <;> simp [insns]

end Context

end MethodProbes
