import Mathlib.Data.List.Nodup
import MethodProbes.Proofs.Expansion.Labels
import MethodProbes.Proofs.Expansion.Phrases

/-!
# Placed labels

The code of a marker places each of its labels once, with a frame behind it, and its jumps go to
these labels.  Only a test that branches on the sample leaves a jump open, the one to its else
target.
-/
namespace MethodProbes

open Step

def Insn.label? : Insn → Option Label
  | .label l => some l
  | _ => none

def Insn.isMark : Insn → Bool
  | .label _ | .frame _ => true
  | _ => false

def placed (code : List Insn) : List Label := code.filterMap Insn.label?

section
variable {a b : List Insn} {l : Label}

theorem mem_placed {code : List Insn} : l ∈ placed code ↔ .label l ∈ code := by
  rw [placed, List.mem_filterMap]
  constructor
  · rintro ⟨i, hi, hl⟩
    cases i with
    | label k =>
      obtain rfl := Option.some.inj hl
      exact hi
    | _ => cases hl
  · exact fun h => ⟨_, h, rfl⟩

@[simp] theorem placed_append : placed (a ++ b) = placed a ++ placed b := List.filterMap_append

theorem placed_eq_nil {code : List Insn} (h : ∀ l, .label l ∉ code) : placed code = [] :=
  List.eq_nil_iff_forall_not_mem.2 fun l hl => h l (mem_placed.1 hl)

/-- Code places no label twice, and its jumps go to labels that it places or to open ones. -/
structure Linked (isOpen : Label → Prop) (code : List Insn) : Prop where
  once : (placed code).Nodup
  target : ∀ i ∈ code, ∀ l, i.target? = some l → .label l ∈ code ∨ isOpen l

namespace Linked

variable {E F : Label → Prop}

theorem of_no_names (h : ∀ i ∈ a, ∀ l, ¬ i.Names l) : Linked E a := by
  refine ⟨?_, fun i hi l hl => absurd (.inr hl) (h i hi l)⟩
  rw [placed_eq_nil fun l hl => h _ hl l (.inl rfl)]
  exact List.nodup_nil

theorem nil : Linked E [] := of_no_names fun _ hi => absurd hi List.not_mem_nil

theorem mono (h : Linked E a) (hEF : ∀ l, E l → F l) : Linked F a :=
  ⟨h.once, fun i hi l hl => (h.target i hi l hl).imp id (hEF l)⟩

theorem append (ha : Linked E a) (hb : Linked E b) (h : ∀ l, .label l ∈ a → .label l ∉ b) :
    Linked E (a ++ b) := by
  refine ⟨?_, fun i hi l hl => ?_⟩
  · rw [placed_append, List.nodup_append]
    refine ⟨ha.once, hb.once, fun l hl k hk he => ?_⟩
    exact h l (mem_placed.1 hl) (he ▸ mem_placed.1 hk)
  · rw [List.mem_append]
    rcases List.mem_append.1 hi with hi | hi
    · exact (ha.target i hi l hl).imp .inl id
    · exact (hb.target i hi l hl).imp .inr id

theorem append_right (ha : Linked E a) (hb : ∀ i ∈ b, ∀ l, ¬ i.Names l) : Linked E (a ++ b) :=
  ha.append (of_no_names hb) fun l _ hl => hb _ hl l (.inl rfl)

theorem append_left (ha : ∀ i ∈ a, ∀ l, ¬ i.Names l) (hb : Linked E b) : Linked E (a ++ b) :=
  (of_no_names ha).append hb fun l hl => absurd (.inl rfl) (ha _ hl l)

/-- A label at the end closes the jumps to it. -/
theorem append_merge (ha : Linked E a) (hl : .label l ∉ a) (hEF : ∀ k, E k → k = l ∨ F k) :
    Linked F (a ++ [.label l, .frame l]) := by
  refine ⟨?_, fun i hi k hk => ?_⟩
  · have hplaced : placed [.label l, .frame l] = [l] := rfl
    rw [placed_append, hplaced, ← List.concat_eq_append]
    exact ha.once.concat fun h => hl (mem_placed.1 h)
  · rcases List.mem_append.1 hi with hi | hi
    · rcases ha.target i hi k hk with h | h
      · exact .inl (List.mem_append_left _ h)
      · rcases hEF k h with rfl | h
        · exact .inl (by simp)
        · exact .inr h
    · simp only [List.mem_cons, List.not_mem_nil, or_false] at hi
      rcases hi with rfl | rfl <;> cases hk

end Linked

end

/-- Code in which every label has its frame right behind it, and no frame stands elsewhere. -/
inductive Framed : List Insn → Prop
  | nil : Framed []
  | plain {i : Insn} {code : List Insn} (label : ∀ l, i ≠ .label l) (frame : ∀ l, i ≠ .frame l)
    (rest : Framed code) : Framed (i :: code)
  | merge (l : Label) {code : List Insn} (rest : Framed code) :
    Framed (.label l :: .frame l :: code)

namespace Framed

variable {a b code : List Insn} {l : Label}

theorem of_isMark (h : a.any Insn.isMark = false) : Framed a := by
  induction a with
  | nil => exact .nil
  | cons i a ih =>
    rw [List.any_cons, Bool.or_eq_false_iff] at h
    refine .plain ?_ ?_ (ih h.2) <;> rintro l rfl <;> cases h.1

theorem append (ha : Framed a) (hb : Framed b) : Framed (a ++ b) := by
  induction ha with
  | nil => exact hb
  | plain label frame _ ih => exact .plain label frame ih
  | merge l _ ih => exact .merge l ih

theorem frame_of_label (h : Framed code) {i : Nat} (hi : code[i]? = some (.label l)) :
    code[i + 1]? = some (.frame l) := by
  induction h generalizing i with
  | nil => cases hi
  | @plain a code label _ _ ih =>
    cases i with
    | zero => exact absurd (Option.some.inj hi) (label l)
    | succ i => exact ih hi
  | merge k _ ih =>
    match i, hi with
    | 0, hi =>
      cases hi
      rfl
    | i + 2, hi => exact ih hi

theorem label_of_frame (h : Framed code) {j : Nat} (hj : code[j]? = some (.frame l)) :
    ∃ i, j = i + 1 ∧ code[i]? = some (.label l) := by
  induction h generalizing j with
  | nil => cases hj
  | plain _ frame _ ih =>
    cases j with
    | zero => exact absurd (Option.some.inj hj) (frame l)
    | succ j =>
      obtain ⟨i, rfl, hi⟩ := ih hj
      exact ⟨i + 1, rfl, hi⟩
  | merge k _ ih =>
    match j, hj with
    | 1, hj =>
      cases hj
      exact ⟨0, rfl, rfl⟩
    | j + 2, hj =>
      obtain ⟨i, rfl, hi⟩ := ih hj
      exact ⟨i + 2, rfl, hi⟩

end Framed

theorem Phrase.framed {p : List Step} (h : Phrase p) (σ : Layout) : Framed (written σ p) := by
  have hasks {call : ProbeCall} {ss : List Step} (h : Asks call ss) : Framed (written σ ss) := by
    cases h with
    | withId | clock => exact .of_isMark rfl
  cases h with
  | @note s h =>
    cases s with
    | emit _ | load _ | store _ => cases h
    | _ => exact .nil
  | merge l => exact .merge l .nil
  | goto | constant | flagTest => exact .of_isMark rfl
  | levelTest field bound n =>
    rw [written_append]
    apply Framed.append
    · cases bound <;> exact .of_isMark rfl
    · rw [Gate.compare]
      split <;> exact .of_isMark rfl
  | keep h =>
    rw [written_append]
    exact (hasks h).append (.of_isMark rfl)
  | keepTimeAndFlag h =>
    rw [written_append]
    exact (hasks h).append (.of_isMark rfl)
  | elapsed h =>
    rw [written_append]
    exact (hasks h).append (.of_isMark rfl)
  | tell h => exact hasks h

theorem Phrased.framed {ss : List Step} (h : Phrased ss) (σ : Layout) : Framed (written σ ss) := by
  induction h with
  | nil => exact .nil
  | append phrase _ ih =>
    rw [written_append]
    exact (phrase.framed σ).append ih

/-! ### Labels of gates -/

namespace Gate

variable {σ : Layout}

theorem placed_rangeSteps (field : String) (skip : Label) (bound : Bool) (n : Nat)
    (rs : List SkipRange) : placed (written σ (rangeSteps field skip bound n rs)) =
      (List.range' n rs.length).map Label.mk := by
  induction rs generalizing bound n with
  | nil => rfl
  | cons r rs ih =>
    have hchecks : placed (written σ (checkSteps field skip ⟨n⟩ bound r.checks)) = [] :=
      placed_eq_nil fun _ => label_notMem_checkSteps
    rw [written_rangeSteps_cons, written_append, placed_append, placed_append, hchecks, ih]
    rfl

theorem linked_rangeSteps (field : String) (skip : Label) (bound : Bool) (n : Nat)
    (rs : List SkipRange) :
    Linked (· = skip) (written σ (rangeSteps field skip bound n rs)) := by
  have hplaced := placed_rangeSteps (σ := σ) field skip bound n rs
  refine ⟨?_, fun i hi l hl => ?_⟩
  · rw [hplaced]
    exact List.Nodup.map (fun _ _ h => congrArg Label.id h) List.nodup_range'
  · cases gateInsn_of_mem hi with
    | jump c h =>
      obtain rfl := Option.some.inj hl
      refine h.symm.imp (fun h => ?_) id
      rw [← mem_placed, hplaced]
      exact List.mem_map.2 ⟨_, List.mem_range'_1.2 h, rfl⟩
    | _ => cases hl

end Gate

namespace Context

variable (x : Context) {σ : Layout}

theorem linked_guard (vs : List Var) (given : Option Label) (n : Nat) :
    Linked (· = skipLabel given n) (written σ (x.guard vs given n).1) := by
  cases hg : x.tracking.gate with
  | openGate =>
    rw [x.guard_openGate hg]
    exact .nil
  | skipping rs =>
    rw [x.written_skipping hg]
    exact .append_left (fun i => x.not_names_of_mem_defineAll) (Gate.linked_rangeSteps ..)

theorem firstRange_le_of_mem_guard {vs : List Var} {given : Option Label} {n : Nat} {l : Label}
    (h : .label l ∈ written σ (x.guard vs given n).1) : firstRange given n ≤ l.id := by
  cases hg : x.tracking.gate with
  | openGate =>
    rw [x.guard_openGate hg] at h
    cases h
  | skipping rs =>
    rw [x.written_skipping hg, List.mem_append] at h
    cases Gate.gateInsn_of_mem (h.resolve_left (x.label_notMem_defineAll l)) with
    | label h => exact h.1

theorem linked_gated (vs : List Var) {code : List Step}
    (hcode : ∀ i ∈ written σ code, ∀ l, ¬ i.Names l) (E : Label → Prop) :
    Linked E (written σ (x.gated vs code)) := by
  have hrun := (x.linked_guard (σ := σ) vs none x.nextLabel).append_right hcode
  rw [gated_eq, written_append, written_append]
  cases hg : x.tracking.gate with
  | openGate =>
    rw [x.guard_openGate hg]
    exact .append_right (.of_no_names (by simpa using hcode)) (by simp)
  | skipping rs =>
    have hskip : (x.guard vs none x.nextLabel).2 = some ⟨x.nextLabel⟩ := by
      rw [x.guard_skipping hg]
      rfl
    rw [hskip]
    refine hrun.append_merge (fun hl => ?_) fun k => .inl
    rcases List.mem_append.1 hl with hl | hl
    · exact Nat.not_succ_le_self _ (x.firstRange_le_of_mem_guard hl)
    · exact hcode _ hl _ (.inl rfl)

/-- The marker branches on the sample. -/
def Branches (m : Marker) : Prop :=
  m.kind = .test ∧ x.tracking.isSampled = true ∧ x.cycle.isBound .sampleHit = true

/-- Where a marker goes if it branches and the invocation is not sampled. -/
def elseTarget : Label := ⟨x.nextLabel + 1⟩

theorem linked_entry (E : Label → Prop) : Linked E (written σ x.entrySteps) := by
  have hdefine {ss : List Step} (h : Linked E (written σ ss)) :
      Linked E (written σ (x.define .duration ++ ss)) := by
    rw [written_append]
    exact .append_left (fun i => x.not_names_of_mem_define) h
  rw [entrySteps]
  split
  · apply hdefine
    split
    · exact .nil
    · exact x.linked_gated _ (by simp [callWithId, insns, Insn.Names, Insn.target?]) E
  · split
    · exact .nil
    · exact x.linked_gated _ (by simp [callWithId, insns, Insn.Names, Insn.target?]) E
  · split
    · exact .nil
    · exact hdefine (x.linked_gated _ (by simp [insns, Insn.Names, Insn.target?]) E)
  · exact .nil

theorem le_of_label_mem_clockMeasure {done l : Label}
    (h : .label l ∈ written σ (x.clockMeasure done)) : x.nextLabel + 1 ≤ l.id := by
  rw [clockMeasure, testsTo, written_append, written_append, List.mem_append,
    List.mem_append] at h
  rcases h with (h | h) | h
  · exact absurd (.inl rfl) (x.not_names_of_mem_define h l)
  · exact x.le_of_label_mem_guard h
  · exact absurd (.inl rfl)
      (x.not_names_of_mem_measure (by simp [insns, Insn.Names, Insn.target?]) h l)

theorem le_of_label_mem_branch {done l : Label} (h : .label l ∈ written σ (x.branch done)) :
    x.nextLabel + 2 ≤ l.id := by
  rw [branch] at h
  split at h
  · dsimp only at h
    rw [testsTo, written_append, List.mem_append] at h
    rcases h with h | h
    · have h : .label l ∈ written σ (x.guard [] (some done) (x.nextLabel + 2)).1 := h
      exact x.le_of_label_mem_guard h
    · simp [insns] at h
  · cases h

theorem linked_branch (done : Label) :
    Linked (fun l => l = done ∨ x.cycle.isBound .sampleHit = true ∧ l = x.elseTarget)
      (written σ (x.branch done)) := by
  rw [branch]
  split
  next hb =>
    have hguard := (x.linked_guard (σ := σ) [] (some done) (x.nextLabel + 2)).mono
      (F := fun l => l = done ∨ x.cycle.isBound .sampleHit = true ∧ l = x.elseTarget)
      fun l => .inl
    dsimp only
    rw [written_append]
    refine hguard.append (b := [.load .int (σ.slot .sampleHit), .jump .ifZero x.elseTarget]) ?_ ?_
    · refine ⟨List.nodup_nil, fun i hi l hl => ?_⟩
      simp only [List.mem_cons, List.not_mem_nil, or_false] at hi
      rcases hi with rfl | rfl
      · cases hl
      · exact .inr (.inr ⟨hb, (Option.some.inj hl).symm⟩)
    · simp
  next => exact .nil

theorem linked_clockMeasure (done : Label) :
    Linked (· = done) (written σ (x.clockMeasure done)) := by
  have hmeasure (i : Insn) (hi : i ∈ written σ (x.measure
      [.emit (.invoke ProbeCall.nanoTime.callee)])) (l : Label) : ¬ i.Names l :=
    x.not_names_of_mem_measure (by simp [insns, Insn.Names, Insn.target?]) hi l
  rw [clockMeasure, testsTo, List.append_assoc, written_append, written_append]
  exact ((x.linked_guard [] (some done) _).append_right hmeasure).append_left
    fun i hi => x.not_names_of_mem_define hi

theorem linked_test (tag : Bool) :
    Linked (fun l => (x.tracking.isSampled = true ∧ x.cycle.isBound .sampleHit = true) ∧
      l = x.elseTarget) (written σ (x.testSteps tag)) := by
  cases hm : x.tracking.isSampled with
  | true =>
    have hmeasure (i : Insn) (hi : i ∈ written σ (x.sampledMeasure tag)) (l : Label) :
        ¬ i.Names l := x.not_names_of_mem_sampledMeasure hi l
    have hrun := (x.linked_branch (σ := σ) ⟨x.nextLabel⟩).append_right hmeasure
    rw [x.testSteps_of_sampled hm, written_append, written_append]
    refine hrun.append_merge (fun hl => ?_) fun k => .imp id fun h => ⟨⟨rfl, h.1⟩, h.2⟩
    rcases List.mem_append.1 hl with hl | hl
    · have hle := x.le_of_label_mem_branch hl
      dsimp only at hle
      omega
    · exact hmeasure _ hl _ (.inl rfl)
  | false =>
    rw [testSteps]
    dsimp only
    rw [if_neg (by simp [hm])]
    split
    · split
      · have hnil : Linked (· = (⟨x.nextLabel⟩ : Label)) [] := .nil
        exact hnil.append_merge List.not_mem_nil fun k => .inl
      · rw [written_append]
        have hclock := x.linked_clockMeasure (σ := σ) ⟨x.nextLabel⟩
        refine hclock.append_merge (fun hl => ?_) fun k => .inl
        have hle := x.le_of_label_mem_clockMeasure hl
        dsimp only at hle
        omega
    · exact .nil

theorem linked_exit (E : Label → Prop) : Linked E (written σ x.exitSteps) := by
  rw [exitSteps]
  split
  · have hjump : Linked (· = (⟨x.nextLabel⟩ : Label)) (written σ
        ([.newLabel, .load .sampleHit, .emit (.jump .ifZero ⟨x.nextLabel⟩)] ++
          x.callWithId .updateEndTs)) := by
      refine ⟨List.nodup_nil, ?_⟩
      simp [callWithId, insns, Insn.target?]
    dsimp only
    rw [written_append]
    exact hjump.append_merge (by simp [callWithId, insns]) fun k => .inl
  · exact .nil

/-- A marker's code places no label twice, and jumps to its own labels or from its branch. -/
theorem linked_steps (m : Marker) :
    Linked (fun l => x.Branches m ∧ l = x.elseTarget) (written σ (x.steps m)) := by
  rw [steps]
  cases hk : m.kind with
  | entry => exact x.linked_entry _
  | test => exact (x.linked_test _).mono fun l h => ⟨⟨hk, h.1⟩, h.2⟩
  | elseBranch =>
    dsimp only
    rw [written_else]
    cases x.cycle.pendingElse with
    | none => exact .nil
    | some l =>
      have hnil : Linked (fun l => x.Branches m ∧ l = x.elseTarget) [] := .nil
      exact hnil.append_merge List.not_mem_nil fun k => .inr
  | duration =>
    dsimp only [durationSteps]
    split <;> exact .of_no_names (by simp [insns, Insn.Names, Insn.target?])
  | exit => exact x.linked_exit _
  | reset => exact .of_no_names (by simp [insns])

theorem framed_steps (m : Marker) : Framed (written σ (x.steps m)) := by
  by_cases hm : m.kind = .duration
  · rw [steps, hm]
    dsimp only [durationSteps]
    split <;> exact .of_isMark rfl
  · exact (x.phrased_steps hm).framed σ

/-! ### Sample branches -/

/-- Gates compare the level; only sample branches and exits test a flag. -/
theorem ifZero_notMem_guard (vs : List Var) (given : Option Label) (n : Nat) (l : Label) :
    .jump .ifZero l ∉ written σ (x.guard vs given n).1 := by
  have hchecks (skip next : Label) (bound : Bool) (cs : List Check) :
      .jump .ifZero l ∉ written σ (Gate.checkSteps x.levelField skip next bound cs) := by
    induction cs generalizing bound with
    | nil => exact List.not_mem_nil
    | cons k cs ih =>
      cases k with
      | skip => exact List.not_mem_cons_of_ne_of_not_mem (by simp) (ih bound)
      | nextIfBelow c | skipIfAtMost c =>
        rw [Gate.checkSteps, written_append, written_append]
        refine List.not_mem_append (List.not_mem_append ?_ ?_) (ih true)
        · cases bound <;> simp [Gate.pushLevel, insns]
        · rw [Gate.compare]
          split <;> simp [insns]
  have hranges (skip : Label) (bound : Bool) (k : Nat) (rs : List SkipRange) :
      .jump .ifZero l ∉ written σ (Gate.rangeSteps x.levelField skip bound k rs) := by
    induction rs generalizing bound k with
    | nil => exact List.not_mem_nil
    | cons r rs ih =>
      rw [Gate.written_rangeSteps_cons, written_append, written_merge]
      exact List.not_mem_append (List.not_mem_append (hchecks _ _ _ _) (by simp)) (ih _ _)
  cases hg : x.tracking.gate with
  | openGate =>
    rw [x.guard_openGate hg]
    exact List.not_mem_nil
  | skipping rs =>
    rw [x.written_skipping hg]
    refine List.not_mem_append (fun h => ?_) (hranges _ _ _ _)
    exact x.not_names_of_mem_defineAll h l (.inr rfl)

variable {x} {m : Marker} {l : Label}

theorem branch_infix (h : x.Branches m) :
    [.load .int (σ.slot .sampleHit), .jump .ifZero x.elseTarget] <:+: written σ (x.steps m) := by
  obtain ⟨hm, hsampled, hbound⟩ := h
  rw [steps, hm]
  dsimp only
  rw [x.testSteps_of_sampled hsampled, branch, if_pos hbound]
  refine ⟨written σ (x.testsTo ⟨x.nextLabel⟩ (x.nextLabel + 2)),
    written σ (x.sampledMeasure (m.hasTag .timed) ++ Step.merge ⟨x.nextLabel⟩), ?_⟩
  simp [insns, elseTarget, Var.type]

theorem branches_of_ifZero (hm : m.kind = .test) (h : .jump .ifZero l ∈ written σ (x.steps m)) :
    x.Branches m ∧ l = x.elseTarget := by
  have hmerge (k : Label) : .jump .ifZero l ∉ written σ (Step.merge k) := by simp
  have hclock (k : Label) : .jump .ifZero l ∉ written σ (x.clockMeasure k) := fun h => by
    rw [clockMeasure, written_append, written_append, List.mem_append, List.mem_append] at h
    rcases h with (h | h) | h
    · exact x.not_names_of_mem_define h l (.inr rfl)
    · exact x.ifZero_notMem_guard _ _ _ l h
    · exact x.not_names_of_mem_measure (by simp [insns, Insn.Names, Insn.target?]) h l (.inr rfl)
  rw [steps, hm] at h
  dsimp only at h
  cases hsampled : x.tracking.isSampled with
  | true =>
    rw [x.testSteps_of_sampled hsampled, written_append, written_append, List.mem_append,
      List.mem_append] at h
    rcases h with (h | h) | h
    · change _ ∈ written σ (x.branch _) at h
      rw [branch] at h
      split at h
      next hbound =>
        dsimp only at h
        rw [written_append, List.mem_append] at h
        refine ⟨⟨hm, hsampled, hbound⟩, ?_⟩
        rcases h with h | h
        · exact absurd h (x.ifZero_notMem_guard [] (some _) _ l)
        · simpa [insns, elseTarget] using h
      next => cases h
    · exact absurd (.inr rfl) (x.not_names_of_mem_sampledMeasure h l)
    · exact absurd h (hmerge _)
  | false =>
    rw [testSteps] at h
    dsimp only at h
    rw [if_neg (by simp [hsampled])] at h
    split at h
    · rw [written_append, List.mem_append] at h
      refine absurd h (not_or.2 ⟨?_, hmerge _⟩)
      split
      · exact List.not_mem_nil
      · exact hclock _
    · cases h

theorem elseTarget_notMem (h : x.Branches m) : .label x.elseTarget ∉ written σ (x.steps m) := by
  obtain ⟨hm, hsampled, -⟩ := h
  intro hl
  rw [steps, hm] at hl
  dsimp only at hl
  rw [x.testSteps_of_sampled hsampled, written_append, written_append, List.mem_append,
    List.mem_append] at hl
  rcases hl with (hl | hl) | hl
  · exact Nat.not_succ_le_self _ (x.le_of_label_mem_branch hl)
  · exact x.not_names_of_mem_sampledMeasure hl _ (.inl rfl)
  · simp [elseTarget] at hl

end Context

end MethodProbes
