import MethodProbes.Proofs.Session.Turns

/-!
# Code up to the names of slots and labels

What an expander writes depends on the numbers of slots and labels only as names.  From a state in
which all names are changed it writes the same code with the names changed, if the new slots and labels
that it takes are changed in step.
-/
namespace MethodProbes

open Step

/-- The function moves the numbers from `n` on to those from `m` on. -/
def Shifts (f : Nat → Nat) (n m : Nat) : Prop := ∀ k, f (n + k) = m + k

namespace Shifts

variable {f : Nat → Nat} {n m : Nat}

theorem eq (h : Shifts f n m) : f n = m := h 0

theorem add (h : Shifts f n m) (j : Nat) : Shifts f (n + j) (m + j) := fun k => by
  rw [Nat.add_assoc, h, Nat.add_assoc]

end Shifts

/-- The function `f` up to `n`, and from there on the one that moves `n` to `m`. -/
def spliceAt (f : Nat → Nat) (n m k : Nat) : Nat := if k < n then f k else m + (k - n)

theorem spliceAt_of_lt {f : Nat → Nat} {n m k : Nat} (h : k < n) : spliceAt f n m k = f k := if_pos h

theorem shifts_spliceAt (f : Nat → Nat) (n m : Nat) : Shifts (spliceAt f n m) n m := fun k => by
  rw [spliceAt, if_neg (Nat.not_lt.2 (Nat.le_add_right n k)), Nat.add_sub_cancel_left]

theorem Shifts.slot_rename {f : Nat → Nat} {n m : Nat} (h : Shifts f n m) :
    (⟨n⟩ : Slot).rename f = ⟨m⟩ := congrArg Slot.mk h.eq

theorem Shifts.label_rename {f : Nat → Nat} {n m : Nat} (h : Shifts f n m) :
    (⟨n⟩ : Label).rename f = ⟨m⟩ := congrArg Label.mk h.eq

namespace Insn

variable {r : Renaming} {i : Insn} {l : Label}

theorem rename_eq_load_iff {ty : ValueType} {s : Slot} :
    i.rename r = load ty s ↔ ∃ q, i = load ty q ∧ q.rename r.slot = s := by
  cases i <;> simp [rename, and_assoc]

theorem rename_eq_jump_iff {c : Cond} :
    i.rename r = jump c l ↔ ∃ k, i = jump c k ∧ k.rename r.label = l := by
  cases i <;> simp [rename, and_assoc]

theorem rename_eq_label_iff : i.rename r = label l ↔ ∃ k, i = label k ∧ k.rename r.label = l := by
  cases i <;> simp [rename]

theorem rename_eq_frame_iff : i.rename r = frame l ↔ ∃ k, i = frame k ∧ k.rename r.label = l := by
  cases i <;> simp [rename]

end Insn

def Step.rename (r : Renaming) : Step → Step
  | emit i => emit (i.rename r)
  | await l => await (l.rename r.label)
  | s => s

theorem Step.map_rename_merge (r : Renaming) (l : Label) :
    (merge l).map (rename r) = merge (l.rename r.label) := rfl

namespace Cycle

variable (r : Renaming) (c : Cycle)

@[simp] theorem slot?_rename (v : Var) :
    (c.rename r).slot? v = (c.slot? v).map (Slot.rename r.slot) := by
  cases v <;> rfl

@[simp] theorem isBound_rename (v : Var) : (c.rename r).isBound v = c.isBound v := by
  simp [isBound]

@[simp] theorem rename_bind (v : Var) (s : Slot) :
    (c.bind v s).rename r = (c.rename r).bind v (s.rename r.slot) := by
  cases v <;> rfl

end Cycle

def Renaming.trans (r r' : Renaming) : Renaming := ⟨r'.slot ∘ r.slot, r'.label ∘ r.label⟩

section
variable (r r' : Renaming)

theorem Insn.rename_rename (i : Insn) : (i.rename r).rename r' = i.rename (r.trans r') := by
  cases i <;> rfl

theorem Step.rename_rename (s : Step) : (s.rename r).rename r' = s.rename (r.trans r') := by
  cases s with
  | emit i => exact congrArg emit (i.rename_rename r r')
  | _ => rfl

theorem Step.map_rename_rename (ss : List Step) :
    (ss.map (rename r)).map (rename r') = ss.map (rename (r.trans r')) := by
  rw [List.map_map]
  exact List.map_congr_left fun s _ => s.rename_rename r r'

theorem Cycle.rename_rename (c : Cycle) : (c.rename r).rename r' = c.rename (r.trans r') := by
  simp only [rename, Option.map_map]
  rfl

theorem Expander.rename_rename (x : Expander) :
    (x.rename r).rename r' = x.rename (r.trans r') := by
  simp only [rename, x.cycle.rename_rename]

end

namespace Gate

variable (r : Renaming)

theorem map_rename_pushLevel (field : String) (bound : Bool) :
    (pushLevel field bound).map (Step.rename r) = pushLevel field bound := by
  cases bound <;> rfl

theorem map_rename_compare (n : Int32) (c d : Cond) (l : Label) :
    (compare n c d l).map (Step.rename r) = compare n c d (l.rename r.label) := by
  rw [compare, compare]
  split <;> rfl

theorem map_rename_checkSteps (field : String) (skip next : Label) (bound : Bool)
    (cs : List Check) : (checkSteps field skip next bound cs).map (Step.rename r) =
      checkSteps field (skip.rename r.label) (next.rename r.label) bound cs := by
  induction cs generalizing bound with
  | nil => rfl
  | cons k cs ih =>
    cases k with
    | skip =>
      simp only [checkSteps, List.map_cons, ih]
      rfl
    | _ =>
      simp only [checkSteps, List.map_append, map_rename_pushLevel, map_rename_compare, ih]

theorem map_rename_rangeSteps (field : String) (skip : Label) (bound : Bool) {n m : Nat}
    (h : Shifts r.label n m) (rs : List SkipRange) :
    (rangeSteps field skip bound n rs).map (Step.rename r) =
      rangeSteps field (skip.rename r.label) bound m rs := by
  induction rs generalizing bound n m with
  | nil => rfl
  | cons range rs ih =>
    simp only [rangeSteps, List.map_append, List.map_cons, map_rename_checkSteps, map_rename_merge,
      h.label_rename, ih _ (h.add 1)]
    rfl

end Gate

namespace Context

def rename (r : Renaming) (n : Nat) (x : Context) : Context :=
  { x with cycle := x.cycle.rename r, nextLabel := n }

variable {r : Renaming} {x : Context} {n m : Nat}

section
variable (r x m)

@[simp] theorem tracking_rename : (x.rename r m).tracking = x.tracking := rfl

@[simp] theorem nextLabel_rename : (x.rename r m).nextLabel = m := rfl

@[simp] theorem measured_rename : (x.rename r m).cycle.measured = x.cycle.measured := rfl

@[simp] theorem pendingElse_rename : (x.rename r m).cycle.pendingElse =
    x.cycle.pendingElse.map (Label.rename r.label) := rfl

@[simp] theorem isBound_rename (v : Var) :
    (x.rename r m).cycle.isBound v = x.cycle.isBound v :=
  Cycle.isBound_rename r x.cycle v

theorem map_rename_define (v : Var) :
    (x.define v).map (Step.rename r) = (x.rename r m).define v := by
  simp only [define, isBound_rename]
  split <;> rfl

theorem map_rename_defineAll (vs : List Var) :
    (vs.flatMap x.define).map (Step.rename r) = vs.flatMap (x.rename r m).define := by
  simp only [List.map_flatMap, x.map_rename_define r m]

end

theorem guard_rename (vs : List Var) (given : Option Label) (h : Shifts r.label n m) (k : Nat) :
    (x.rename r k).guard vs (given.map (Label.rename r.label)) m =
      ((x.guard vs given n).1.map (Step.rename r),
        (x.guard vs given n).2.map (Label.rename r.label)) := by
  simp only [guard, tracking_rename, isBound_rename]
  cases x.tracking.gate with
  | openGate => rfl
  | skipping rs =>
    cases given with
    | some skip =>
      simp only [Option.map_some, List.map_append, Gate.map_rename_rangeSteps r _ _ _ h,
        x.map_rename_defineAll r k]
      rfl
    | none =>
      simp only [Option.map_some, Option.map_none, List.map_append, List.map_cons,
        Gate.map_rename_rangeSteps r _ _ _ (h.add 1), x.map_rename_defineAll r k, h.label_rename]
      rfl

theorem gated_rename (vs : List Var) (h : Shifts r.label x.nextLabel m) (code : List Step) :
    (x.rename r m).gated vs (code.map (Step.rename r)) =
      (x.gated vs code).map (Step.rename r) := by
  have hguard := x.guard_rename vs none h m
  rw [Option.map_none] at hguard
  rw [gated, gated, nextLabel_rename, hguard]
  rcases x.guard vs none x.nextLabel with ⟨tests, _ | skip⟩
  · simp
  · simp only [Option.map_some, Option.elim_some, List.map_append]
    rfl

theorem testsTo_rename (h : Shifts r.label n m) (skip : Label) (k : Nat) :
    (x.rename r k).testsTo (skip.rename r.label) m =
      (x.testsTo skip n).map (Step.rename r) := by
  have hguard := x.guard_rename [] (some skip) h k
  rw [testsTo, testsTo, ← Option.map_some, hguard]

theorem entrySteps_rename (h : Shifts r.label x.nextLabel m) :
    (x.rename r m).entrySteps = x.entrySteps.map (Step.rename r) := by
  have hgated (vs : List Var) (code : List Step) (hcode : code.map (Step.rename r) = code) :
      (x.rename r m).gated vs code = (x.gated vs code).map (Step.rename r) := by
    rw [← x.gated_rename vs h, hcode]
  simp only [entrySteps, isBound_rename, tracking_rename]
  cases x.tracking.sampling? with
  | some call =>
    cases x.tracking.timed with
    | true =>
      simp only [List.map_append, x.map_rename_define r m]
      split
      · rfl
      · rw [← hgated _ _ rfl]
        rfl
    | false =>
      dsimp only
      split
      · rfl
      · rw [← hgated _ _ rfl]
        rfl
  | none =>
    cases x.tracking.timed with
    | true =>
      dsimp only
      split
      · rfl
      · rw [List.map_append, x.map_rename_define r m, ← hgated _ _ rfl]
    | false => rfl

theorem measure_rename (now : List Step) (hnow : now.map (Step.rename r) = now) :
    (x.rename r m).measure now = (x.measure now).map (Step.rename r) := by
  simp only [measure, isBound_rename]
  split
  · simp only [List.map_append, hnow]
    rfl
  · rfl

theorem branch_rename (h : Shifts r.label x.nextLabel m) (done : Label) :
    (x.rename r m).branch (done.rename r.label) = (x.branch done).map (Step.rename r) := by
  simp only [branch, isBound_rename, nextLabel_rename]
  split
  · simp only [List.map_append, ← testsTo_rename (h.add 2) done m,
      ← (h.add 1).label_rename]
    rfl
  · rfl

theorem clockMeasure_rename (h : Shifts r.label x.nextLabel m) (done : Label) :
    (x.rename r m).clockMeasure (done.rename r.label) =
      (x.clockMeasure done).map (Step.rename r) := by
  simp only [clockMeasure, nextLabel_rename, List.map_append, x.map_rename_define r m,
    ← testsTo_rename (h.add 1) done m]
  rw [measure_rename _ rfl]

theorem testSteps_rename (h : Shifts r.label x.nextLabel m) (timedTag : Bool) :
    (x.rename r m).testSteps timedTag = (x.testSteps timedTag).map (Step.rename r) := by
  have hasks : (x.rename r m).measure ((x.rename r m).callWithId .getEndTs) =
      (x.measure (x.callWithId .getEndTs)).map (Step.rename r) := measure_rename _ rfl
  simp only [testSteps, nextLabel_rename, tracking_rename, measured_rename, ← h.label_rename,
    branch_rename h, clockMeasure_rename h, hasks]
  cases x.tracking.isSampled <;> cases x.tracking.timed <;> cases timedTag <;>
    cases x.cycle.measured <;> simp [Step.rename, map_rename_merge]

theorem elseSteps_rename : (x.rename r m).elseSteps = x.elseSteps.map (Step.rename r) := by
  simp only [elseSteps, pendingElse_rename]
  cases x.cycle.pendingElse <;> rfl

theorem durationSteps_rename :
    (x.rename r m).durationSteps = x.durationSteps.map (Step.rename r) := by
  simp only [durationSteps, measured_rename, isBound_rename]
  split <;> rfl

theorem exitSteps_rename (h : Shifts r.label x.nextLabel m) :
    (x.rename r m).exitSteps = x.exitSteps.map (Step.rename r) := by
  simp only [exitSteps, tracking_rename, isBound_rename, nextLabel_rename, ← h.label_rename]
  split <;> rfl

theorem steps_rename (h : Shifts r.label x.nextLabel m) (k : Marker) :
    (x.rename r m).steps k = (x.steps k).map (Step.rename r) := by
  rw [steps, steps]
  cases k.kind with
  | entry => exact entrySteps_rename h
  | test => exact testSteps_rename h _
  | elseBranch => exact elseSteps_rename
  | duration => exact durationSteps_rename
  | exit => exact exitSteps_rename h
  | reset => rfl

end Context

namespace Renaming

/-- The renaming moves what the first buffer hands out next to what the second one hands out next. -/
structure Carries (r : Renaming) (b b' : Buffer) : Prop where
  slot : Shifts r.slot b.nextSlot b'.nextSlot
  label : Shifts r.label b.nextLabel b'.nextLabel

/-- What is added from `a` to `b` is added from `a'` to `b'` under other names. -/
structure Copies (r : Renaming) (a b a' b' : Buffer) : Prop where
  carries : r.Carries b b'
  code : ∃ code, b.code = a.code ++ code ∧ b'.code = a'.code ++ code.map (Insn.rename r)

variable {r : Renaming} {a b c a' b' c' : Buffer}

theorem Carries.copies (h : r.Carries b b') : r.Copies b b b' b' :=
  ⟨h, [], (List.append_nil _).symm, (List.append_nil _).symm⟩

theorem Carries.emit (h : r.Carries b b') (i : Insn) :
    r.Copies b (b.emit i) b' (b'.emit (i.rename r)) :=
  ⟨⟨h.slot, h.label⟩, [i], b.code_emit i, b'.code_emit _⟩

theorem Carries.newLabel (h : r.Carries b b') : r.Copies b b.newLabel.2 b' b'.newLabel.2 :=
  ⟨⟨h.slot, h.label.add 1⟩, [], (List.append_nil _).symm, (List.append_nil _).symm⟩

theorem Carries.reserve (h : r.Carries b b') (ty : ValueType) :
    r.Carries (b.reserve ty) (b'.reserve ty) :=
  ⟨h.slot.add ty.width, h.label⟩

theorem Copies.trans (h : r.Copies a b a' b') (h' : r.Copies b c b' c') : r.Copies a c a' c' where
  carries := h'.carries
  code := by
    obtain ⟨code, hb, hb'⟩ := h.code
    obtain ⟨rest, hc, hc'⟩ := h'.code
    exact ⟨code ++ rest, by rw [hc, hb, List.append_assoc],
      by rw [hc', hb', List.map_append, List.append_assoc]⟩

end Renaming

namespace Step

variable {r : Renaming} {b b' : Buffer} {c : Cycle} {q q' : Progress}

theorem take_rename (hb : r.Carries b b') {s : Step} (h : s.take ⟨b, c⟩ = (none, q))
    (h' : (s.rename r).take ⟨b', c.rename r⟩ = (none, q')) :
    q'.cycle = q.cycle.rename r ∧ r.Copies b q.buffer b' q'.buffer := by
  cases s with
  | emit i =>
    cases h
    cases h'
    exact ⟨rfl, hb.emit i⟩
  | newLabel =>
    cases h
    cases h'
    exact ⟨rfl, hb.newLabel⟩
  | await | settle | measured | reset =>
    cases h
    cases h'
    exact ⟨rfl, hb.copies⟩
  | load v =>
    simp only [rename, take, Cycle.slot?_rename] at h h'
    cases hv : c.slot? v with
    | none =>
      rw [hv] at h h'
      cases h
      cases h'
      exact ⟨rfl, hb.copies⟩
    | some s =>
      rw [hv] at h h'
      cases h
      cases h'
      exact ⟨rfl, hb.emit (.load v.type s)⟩
  | store v =>
    have hslot : (c.rename r).slot? v = (c.slot? v).map (Slot.rename r.slot) :=
      c.slot?_rename r v
    rcases take_store_cases b c v with ⟨s, hv, ht⟩ | ⟨hv, ht⟩ | ⟨-, e, ht⟩ <;>
      cases h.symm.trans ht <;> rw [hv] at hslot <;>
      rcases take_store_cases b' (c.rename r) v with ⟨s', hv', ht'⟩ | ⟨hv', ht'⟩ | ⟨-, e', ht'⟩ <;>
      cases h'.symm.trans ht' <;> cases hslot.symm.trans hv'
    · exact ⟨(c.rename_bind r v s).symm, hb.emit (.store v.type s)⟩
    · rw [← hb.slot.slot_rename]
      exact ⟨(c.rename_bind r v _).symm, ((hb.reserve _).emit (.store v.type _)).carries,
        [.store v.type ⟨b.nextSlot⟩], by simp, by simp [Insn.rename]⟩

/-- Steps write the same under other names, if there is room for them in both buffers. -/
theorem takeAll_rename (hb : r.Carries b b') {ss : List Step} (h : takeAll ⟨b, c⟩ ss = (none, q))
    (h' : takeAll ⟨b', c.rename r⟩ (ss.map (rename r)) = (none, q')) :
    q'.cycle = q.cycle.rename r ∧ r.Copies b q.buffer b' q'.buffer := by
  induction ss generalizing b b' c with
  | nil =>
    cases h
    cases h'
    exact ⟨rfl, hb.copies⟩
  | cons s ss ih =>
    rw [List.map_cons] at h'
    rcases hs : s.take ⟨b, c⟩ with ⟨_ | e, ⟨b₁, c₁⟩⟩
    · rcases hs' : (s.rename r).take ⟨b', c.rename r⟩ with ⟨_ | e', ⟨b₁', c₁'⟩⟩
      · rw [takeAll_cons_none hs] at h
        rw [takeAll_cons_none hs'] at h'
        obtain ⟨hcycle, hfirst⟩ := take_rename hb hs hs'
        cases hcycle
        obtain ⟨hcycle, hrest⟩ := ih hfirst.carries h h'
        exact ⟨hcycle, hfirst.trans hrest⟩
      · rw [takeAll_cons_some hs'] at h'
        cases h'
    · rw [takeAll_cons_some hs] at h
      cases h

theorem take_of_le (hle : b.nextSlot ≤ b'.nextSlot) {s : Step}
    (h : (s.rename r).take ⟨b', c.rename r⟩ = (none, q')) :
    ∃ q, s.take ⟨b, c⟩ = (none, q) ∧ q.buffer.nextSlot ≤ q'.buffer.nextSlot := by
  cases s with
  | emit | newLabel | await | settle | measured | reset =>
    cases h
    exact ⟨_, rfl, hle⟩
  | load v =>
    simp only [rename, take, Cycle.slot?_rename] at h ⊢
    cases hv : c.slot? v <;> rw [hv] at h <;> cases h <;> exact ⟨_, rfl, hle⟩
  | store v =>
    simp only [rename, take, Cycle.slot?_rename] at h ⊢
    cases hv : c.slot? v with
    | some s =>
      rw [hv] at h
      cases h
      exact ⟨_, rfl, hle⟩
    | none =>
      rw [hv] at h
      simp only [Option.map_none, Buffer.storeInto] at h ⊢
      rcases Nat.lt_or_ge slotSpace (b'.nextSlot + v.type.width) with hlt | hroom
      · rw [Buffer.storeNew_of_lt hlt] at h
        cases h
      · rw [Buffer.storeNew_of_le hroom] at h
        rw [Buffer.storeNew_of_le (Nat.le_trans (Nat.add_le_add_right hle _) hroom)]
        cases h
        exact ⟨_, rfl, Nat.add_le_add_right hle _⟩

theorem takeAll_of_le (hb : r.Carries b b') (hle : b.nextSlot ≤ b'.nextSlot) {ss : List Step}
    (h : takeAll ⟨b', c.rename r⟩ (ss.map (rename r)) = (none, q')) :
    ∃ q, takeAll ⟨b, c⟩ ss = (none, q) ∧ q.buffer.nextSlot ≤ q'.buffer.nextSlot := by
  induction ss generalizing b b' c with
  | nil =>
    cases h
    exact ⟨_, rfl, hle⟩
  | cons s ss ih =>
    rw [List.map_cons] at h
    rcases hs' : (s.rename r).take ⟨b', c.rename r⟩ with ⟨_ | e', ⟨b₁', c₁'⟩⟩
    · rw [takeAll_cons_none hs'] at h
      obtain ⟨⟨b₁, c₁⟩, hs, hle⟩ := take_of_le hle hs'
      obtain ⟨hcycle, hfirst⟩ := take_rename hb hs hs'
      cases hcycle
      rw [takeAll_cons_none hs]
      exact ih hfirst.carries hle h
    · rw [takeAll_cons_some hs'] at h
      cases h

end Step

namespace Expander

variable {r : Renaming} {x : Expander} {m : Marker} {b b' : Buffer}

theorem steps_context_rename (x : Expander) (id : Nat) (hb : r.Carries b b') :
    ((x.rename r).context id b'.nextLabel).steps m =
      ((x.context id b.nextLabel).steps m).map (Step.rename r) :=
  Context.steps_rename (x := x.context id b.nextLabel) hb.label m

theorem expand_rename (hb : r.Carries b b') (h : (x.expand m b).error = none)
    (h' : ((x.rename r).expand m b').error = none) :
    ((x.rename r).expand m b').expander = (x.expand m b).expander.rename r ∧
      r.Copies b (x.expand m b).buffer b' ((x.rename r).expand m b').buffer := by
  have heffective : (x.rename r).effectiveId m = x.effectiveId m := rfl
  rcases x.expand_cases m b with ⟨e, -, he⟩ | ⟨id, e, q, hid, hq, he⟩
  · rw [he] at h
    cases h
  rcases (x.rename r).expand_cases m b' with ⟨e', -, he'⟩ | ⟨id', e', q', hid', hq', he'⟩
  · rw [he'] at h'
    cases h'
  cases hid.symm.trans (heffective ▸ hid')
  rw [x.steps_context_rename id hb] at hq'
  rw [he] at h ⊢
  rw [he'] at h' ⊢
  cases Option.map_eq_none_iff.1 h
  cases Option.map_eq_none_iff.1 h'
  obtain ⟨hcycle, hcopies⟩ := takeAll_rename hb hq hq'
  refine ⟨?_, hcopies⟩
  dsimp only [rename] at hcycle ⊢
  rw [hcycle]

/-- A marker whose code finds room has room for it further down. -/
theorem expand_of_le (hb : r.Carries b b') (hle : b.nextSlot ≤ b'.nextSlot)
    (h : ((x.rename r).expand m b').error = none) :
    (x.expand m b).error = none ∧
      (x.expand m b).buffer.nextSlot ≤ ((x.rename r).expand m b').buffer.nextSlot := by
  have heffective : (x.rename r).effectiveId m = x.effectiveId m := rfl
  rcases (x.rename r).expand_cases m b' with ⟨e', -, he'⟩ | ⟨id, e', q', hid, hq', he'⟩
  · rw [he'] at h
    cases h
  rw [he'] at h ⊢
  cases Option.map_eq_none_iff.1 h
  rw [x.steps_context_rename id hb] at hq'
  obtain ⟨q, hq, hle⟩ := takeAll_of_le hb hle hq'
  rw [heffective] at hid
  simp only [expand, hid, hq]
  exact ⟨rfl, hle⟩

end Expander

end MethodProbes
