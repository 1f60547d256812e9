import MethodProbes.Proofs.Expansion.Coherent

/-!
# How often a marker asks

The code of a marker asks the world by calls and by reads of the global level.  An entry makes one
call, a test that measures one more, and a guard reads the level if it compares it and the cycle has
not read it before.
-/
namespace MethodProbes

open Step

def Insn.asks : Insn → Bool
  | invoke _ | readLevel _ => true
  | _ => false

def Questions (p : Insn → Bool) : Prop := ∀ i, i.asks = false → p i = false

namespace Step

def emits (p : Insn → Bool) : Step → Bool
  | emit i => p i
  | _ => false

variable {p : Insn → Bool}

theorem countP_written (hp : Questions p) (σ : Layout) (ss : List Step) :
    (written σ ss).countP p = ss.countP (emits p) := by
  induction ss with
  | nil => rfl
  | cons s ss ih =>
    rw [written_cons, List.countP_append, ih, List.countP_cons, Nat.add_comm]
    congr 1
    cases s with
    | emit i => rw [insns, List.countP_singleton]; rfl
    | load v => simp [insns, emits, hp (.load _ _) rfl]
    | store v => simp [insns, emits, hp (.store _ _) rfl]
    | _ => rfl

theorem countP_eq_zero (hp : Questions p) {ss : List Step}
    (h : ∀ i, .emit i ∈ ss → i.asks = false) : ss.countP (emits p) = 0 := by
  refine List.countP_eq_zero.2 fun s hs => ?_
  cases s with
  | emit i => simp [emits, hp i (h i hs)]
  | _ => simp [emits]

theorem countP_merge (hp : Questions p) (l : Label) : (merge l).countP (emits p) = 0 :=
  countP_eq_zero hp (by simp [merge, Insn.asks])

end Step

namespace Gate

variable {p : Insn → Bool} {field : String} {skip next : Label} {bound : Bool}

theorem countP_pushLevel (hp : Questions p) :
    (pushLevel field bound).countP (emits p) = (!bound && p (.readLevel field)).toNat := by
  cases bound with
  | true => rfl
  | false => cases h : p (.readLevel field) <;> simp [pushLevel, emits, h, hp (.dup .int) rfl]

theorem countP_compare (hp : Questions p) (n : Int32) (c d : Cond) (l : Label) :
    (compare n c d l).countP (emits p) = 0 := by
  apply countP_eq_zero hp
  rw [compare]
  split <;> simp [Insn.asks]

theorem countP_checkSteps (hp : Questions p) (r : SkipRange) :
    (checkSteps field skip next bound r.checks).countP (emits p) =
      (r.comparesLevel && !bound && p (.readLevel field)).toNat := by
  have hgoto : emits p (.emit (.jump .always skip)) = false := hp _ rfl
  obtain ⟨_ | lo, _ | hi⟩ := r <;>
    simp [SkipRange.checks, SkipRange.comparesLevel, checkSteps, countP_pushLevel hp, countP_compare hp,
      hgoto]

/-- The ranges read the level at most once. -/
theorem countP_rangeSteps (hp : Questions p) (n : Nat) (rs : List SkipRange) :
    (rangeSteps field skip bound n rs).countP (emits p) =
      (rs.any SkipRange.comparesLevel && !bound && p (.readLevel field)).toNat := by
  induction rs generalizing bound n with
  | nil => rfl
  | cons r rs ih =>
    rw [rangeSteps, List.countP_append, List.countP_append, List.countP_cons, countP_checkSteps hp,
      countP_merge hp, ih, List.any_cons]
    cases r.comparesLevel <;> cases bound <;> cases p (.readLevel field) <;> simp [emits]

end Gate

namespace Context

variable {p : Insn → Bool} {x : Context}

theorem asks_of_mem_define {v : Var} {i : Insn} (h : .emit i ∈ x.define v) : i.asks = false := by
  rw [define] at h
  split at h
  · cases h
  · obtain rfl : i = .push (.zero v.type) := by simpa using h
    rfl

theorem countP_define (hp : Questions p) (v : Var) : (x.define v).countP (emits p) = 0 :=
  countP_eq_zero hp fun _ => asks_of_mem_define

theorem countP_guard (hp : Questions p) (vs : List Var) (given : Option Label) (n : Nat) :
    (x.guard vs given n).1.countP (emits p) = (x.tracking.gate.comparesLevel &&
      !x.cycle.isBound .level && p (.readLevel x.levelField)).toNat := by
  cases hg : x.tracking.gate with
  | openGate =>
    rw [x.guard_openGate hg]
    rfl
  | skipping rs =>
    have hdefine : (vs.flatMap x.define).countP (emits p) = 0 := countP_eq_zero hp fun i hi => by
      obtain ⟨v, -, hi⟩ := List.mem_flatMap.1 hi
      exact asks_of_mem_define hi
    have hgiven : (given.elim [.newLabel] fun _ => []).countP (emits p) = 0 := by
      cases given <;> rfl
    rw [x.guard_skipping hg, List.countP_append, List.countP_append, hdefine, hgiven,
      Gate.countP_rangeSteps hp, Nat.zero_add]
    rfl

theorem countP_callWithId (hp : Questions p) (c : ProbeCall) :
    (x.callWithId c).countP (emits p) = (p (.invoke c.callee)).toNat := by
  cases h : p (.invoke c.callee) <;> simp [callWithId, emits, h, hp (.push _) rfl]

theorem countP_entryCode (hp : Questions p) (c : ProbeCall) :
    (x.entryCode c).countP (emits p) = (p (.invoke c.callee)).toNat := by
  rw [entryCode]
  split
  · rw [List.countP_append, countP_callWithId hp]
    simp [emits, hp (.dup _) rfl, hp .longToInt rfl]
  · rw [List.countP_append, countP_callWithId hp]
    rfl
  · cases h : p (.invoke c.callee) <;> simp [emits, h]

theorem countP_define_if (hp : Questions p) (q : Bool) (v : Var) :
    (if q then x.define v else []).countP (emits p) = 0 := by
  split
  · exact countP_define hp v
  · rfl

theorem countP_skip (hp : Questions p) (l : Option Label) :
    (l.elim [] Step.merge).countP (emits p) = 0 := by
  cases l with
  | none => rfl
  | some l => exact countP_merge hp l

theorem countP_entrySteps (hp : Questions p) (hT : x.tracking.Sound) (h : ¬ x.cycle.Entered)
    {call : ProbeCall} (hcall : x.tracking.call? = some call) :
    x.entrySteps.countP (emits p) = (x.tracking.gate.comparesLevel &&
      !x.cycle.isBound .level && p (.readLevel x.levelField)).toNat +
        (p (.invoke call.callee)).toNat := by
  rw [entrySteps_of_fresh hT h hcall, gated_eq, List.countP_append, List.countP_append,
    List.countP_append, countP_define_if hp, countP_skip hp, countP_guard hp, countP_entryCode hp,
    Nat.zero_add, Nat.add_zero]

theorem countP_measure (hp : Questions p) {now : List Step} {n : Nat}
    (hnow : now.countP (emits p) = n) :
    (x.measure now).countP (emits p) = if x.cycle.isBound .entryTs then n else 0 := by
  rw [measure]
  split <;> simp [emits, hnow, hp (.sub _) rfl, hp (.push _) rfl]

/-- The branch of a sampled cycle finds the level that the entry has read. -/
theorem countP_branch (hp : Questions p) (hx : x.cycle.Coherent x.tracking) (done : Label) :
    (x.branch done).countP (emits p) = 0 := by
  rw [branch]
  split
  next hb =>
    have hguard : (x.testsTo done (x.nextLabel + 2)).countP (emits p) = 0 := by
      rw [testsTo, countP_guard hp]
      cases hg : x.tracking.gate.comparesLevel with
      | true => simp [hx.level (.inr hb) hg]
      | false => rfl
    have hjump (l : Label) : p (.jump .ifZero l) = false := hp _ rfl
    rw [List.countP_append, List.countP_append, hguard]
    simp [emits, hjump]
  next => rfl

/-- A sampled test asks for the end if it measures behind an entry. -/
theorem countP_testSteps_of_sampled (hp : Questions p) (hx : x.cycle.Coherent x.tracking)
    (hs : x.tracking.isSampled = true) (tag : Bool) :
    (x.testSteps tag).countP (emits p) = (x.tracking.timed && tag && !x.cycle.measured &&
      x.cycle.isBound .entryTs && p (.invoke ProbeCall.getEndTs.callee)).toNat := by
  have hmeasure := countP_measure (x := x) hp (countP_callWithId (x := x) hp .getEndTs)
  have hsampled : (x.sampledMeasure tag).countP (emits p) = (x.tracking.timed && tag &&
      !x.cycle.measured && x.cycle.isBound .entryTs &&
        p (.invoke ProbeCall.getEndTs.callee)).toNat := by
    rw [sampledMeasure]
    cases x.tracking.timed && tag <;> cases x.cycle.measured <;>
      cases hb : x.cycle.isBound .entryTs <;> simp [hmeasure, hb]
  rw [x.testSteps_of_sampled hs, List.countP_append, List.countP_append, List.countP_cons,
    countP_branch hp hx, hsampled, countP_merge hp]
  simp [emits]

/-- A test of a method that is not sampled asks the clock if it measures behind an entry. -/
theorem countP_testSteps_of_not_sampled (hp : Questions p) (hs : x.tracking.isSampled = false)
    (tag : Bool) : (x.testSteps tag).countP (emits p) =
      if x.tracking.timed && tag && !x.cycle.measured then
        (x.tracking.gate.comparesLevel && !x.cycle.isBound .level &&
          p (.readLevel x.levelField)).toNat +
        (x.cycle.isBound .entryTs && p (.invoke ProbeCall.nanoTime.callee)).toNat
      else 0 := by
  have hnow : ([.emit (.invoke ProbeCall.nanoTime.callee)] : List Step).countP (emits p) =
      (p (.invoke ProbeCall.nanoTime.callee)).toNat := by
    cases h : p (.invoke ProbeCall.nanoTime.callee) <;> simp [emits, h]
  have hclock (done : Label) : (x.clockMeasure done).countP (emits p) =
      (x.tracking.gate.comparesLevel && !x.cycle.isBound .level &&
        p (.readLevel x.levelField)).toNat +
      (x.cycle.isBound .entryTs && p (.invoke ProbeCall.nanoTime.callee)).toNat := by
    rw [clockMeasure, List.countP_append, List.countP_append, countP_define hp, testsTo,
      countP_guard hp, countP_measure hp hnow, Nat.zero_add]
    cases x.cycle.isBound .entryTs <;> rfl
  rw [x.testSteps_of_not_sampled hs]
  cases x.tracking.timed && tag with
  | false => rfl
  | true =>
    cases x.cycle.measured with
    | true => simp [countP_merge hp, emits]
    | false => simp [hclock, countP_merge hp, emits]

theorem countP_exitSteps (hp : Questions p) : x.exitSteps.countP (emits p) =
    if x.tracking.sampler = some .adaptive ∧ x.cycle.isBound .sampleHit then
      (p (.invoke ProbeCall.updateEndTs.callee)).toNat
    else 0 := by
  have hjump (l : Label) : p (.jump .ifZero l) = false := hp _ rfl
  rw [exitSteps]
  split
  · rw [List.countP_append, List.countP_append, countP_callWithId hp, countP_merge hp]
    simp [emits, hjump]
  · rfl

theorem countP_steps_eq_zero (hp : Questions p) {m : Marker}
    (hm : m.kind = .elseBranch ∨ m.kind = .duration ∨ m.kind = .reset) :
    (x.steps m).countP (emits p) = 0 := by
  apply countP_eq_zero hp
  rw [steps]
  rcases hm with hm | hm | hm <;> rw [hm]
  · cases h : x.cycle.pendingElse <;> simp [elseSteps, h, Step.merge, Insn.asks]
  · dsimp only [durationSteps]
    split <;> simp [Insn.asks]
  · simp

end Context

end MethodProbes
