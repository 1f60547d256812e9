import MethodProbes.Proofs.Session.EntryMeaning

/-!
# What the code of a test means

The test of a sampled invocation goes on, and measures if it is to; that of an invocation which is not
sampled leaves for the else target.  A method that is not sampled measures by the clock.  At levels that
the gate does not admit, a test calls nothing.
-/
namespace MethodProbes

open Step Machine History

/-- A run has called nothing and has left the memory as it was. -/
structure Machine.Idles (mem : Memory) (s : Machine) : Prop where
  calls : s.calls = []
  memory : s.memory = mem

namespace Turn

structure BranchMeaning (t : Turn) (x y : Expander) (id : Int32) (due : Prop) (f : Slot)
    (mem : Memory) (L : Int32) (s : Machine) : Prop where
  skipped : ¬ x.tracking.Admits L → s.going = none ∧ s.Idles mem
  /-- An invocation that is not sampled goes to the target that the next else marker places. -/
  missed : x.tracking.Admits L → mem.read .int f = .int 0 →
    ∃ l, s.going = some l ∧ t.after.pending? t.index = some l ∧ s.Idles mem
  hit : x.tracking.Admits L → mem.read .int f ≠ .int 0 → s.going = none ∧ (¬ due → s.Idles mem) ∧
    (due → ∃ d ts now, y.cycle.slot? .duration = some d ∧ x.cycle.Holds mem .entryTs (.long ts) ∧
      s.CalledOnce .getEndTs id (.long now) ∧ s.memory = mem.write d (.long (now - ts)))

structure FlaglessMeaning (y : Expander) (due : Prop) (mem : Memory) (s : Machine) : Prop where
  going : s.going = none
  calls : s.calls = []
  idle : ¬ due → s.memory = mem
  zero : due → ∃ d, y.cycle.slot? .duration = some d ∧ s.memory = mem.write d (.long 0)

/-- What a test comes to that is to measure by the clock, with the duration in slot `d`. -/
structure ClockMeaning (t : Turn) (x y : Expander) (id : Int32) (mem : Memory) (L : Int32)
    (s : Machine) (d : Slot) : Prop where
  going : s.going = none
  /-- If the gate does not let it measure, the duration is what it was, or zero if it is new. -/
  skipped : ¬ x.tracking.Admits L → s.calls = [] ∧ s.memory.read .long d =
    if x.cycle.isBound .duration then mem.read .long d else .long 0
  measured : x.tracking.Admits L → x.cycle.isBound .entryTs = true →
    ∃ ts now, x.cycle.Holds mem .entryTs (.long ts) ∧ s.CalledOnce .nanoTime id (.long now) ∧
      s.memory.read .long d = .long (now - ts)
  unentered : x.tracking.Admits L → x.cycle.isBound .entryTs = false →
    s.calls = [] ∧ s.memory.read .long d = .long 0
  compared : x.tracking.gate.comparesLevel = true → y.cycle.isBound .level = true
  level : ∀ r, y.cycle.slot? .level = some r → s.memory.read .int r = .int L
  /-- Other words change only in the slots that are handed out with the code. -/
  others : ∀ j, ¬ d.Covers .long j → (∀ a ∈ t.allotted, ¬ a.1.Covers a.2 j) → s.memory j = mem j

/-- What running the code of a test comes to at level `L`, from the memory `mem`.  The expander is `x`
before the expansion and `y` behind it, and `due` says that the test is to measure. -/
structure TestMeaning (t : Turn) (x y : Expander) (id : Int32) (due : Prop) (mem : Memory)
    (L : Int32) (s : Machine) : Prop where
  branch : x.tracking.isSampled = true → ∀ f, x.cycle.slot? .sampleHit = some f →
    t.BranchMeaning x y id due f mem L s
  flagless : x.tracking.isSampled = true → x.cycle.slot? .sampleHit = none →
    FlaglessMeaning y due mem s
  idle : x.tracking.isSampled = false → ¬ due → s.going = none ∧ s.Idles mem
  clock : x.tracking.isSampled = false → due →
    ∃ d, y.cycle.slot? .duration = some d ∧ t.ClockMeaning x y id mem L s d

end Turn

namespace Context

variable {x : Context} {w : World} {σ : Layout} {m : Marker} {tag : Bool} {mem : Memory}
  {s t : Machine} {L : Int32}

theorem exists_test_sees (hx : x.cycle.Coherent x.tracking) (hσ : σ.Fits x.cycle) (tag : Bool)
    (w : World) (mem : Memory) :
    ∃ s, exec w (written σ (x.testSteps tag)) (start mem) = some s ∧ s.stack = [] ∧
      ∀ L, Sees x.cycle mem s L → x.TestEffect σ tag L (start mem) s ∧
        (x.Gated tag → x.tracking.gate.comparesLevel = true → s.memory.get σ .level = .int L) := by
  obtain ⟨s, hs, ⟨L', hj, hlevel, heffect⟩ | ⟨hno, heffect⟩⟩ :=
    x.exists_test_effect (w := w) (σ := σ) hx tag (going_start mem)
  · refine ⟨s, hs, heffect.keeps.stack, fun L hL =>
      ⟨heffect.of_skips_iff (hj.skips_iff hσ hL), fun _ hcmp => ?_⟩⟩
    rw [hlevel hcmp, hj.level_eq hσ hL hcmp]
  · exact ⟨s, hs, (heffect 0).keeps.stack, fun L _ => ⟨heffect L, fun h => absurd h hno⟩⟩

/-- A test that does not take the time by the clock keeps the level, if it stores it at all. -/
theorem Keeps.level_of_store (hx : x.cycle.Coherent x.tracking) (hk : x.Keeps σ s t)
    (hsampled : x.tracking.isSampled = true ∨ ¬ x.DurationDue tag)
    (hs : .store .level ∈ x.testSteps tag) : t.memory.get σ .level = s.memory.get σ .level := by
  rcases of_store_level_test hs with hb | ⟨hno, hdue⟩
  · exact hk.level (hx.level (.inr hb) (comparesLevel_of_store_test hs))
  · rcases hsampled with hsampled | hidle
    · exact absurd (hno.symm.trans hsampled) Bool.false_ne_true
    · exact absurd hdue hidle

/-- A test that does not take the time by the clock changes no variable but the duration. -/
theorem Keeps.get_of_store (hx : x.cycle.Coherent x.tracking) (hk : x.Keeps σ s t)
    (hm : m.kind = .test)
    (hsampled : x.tracking.isSampled = true ∨ ¬ x.DurationDue (m.hasTag .timed)) {v : Var}
    (hs : .store v ∈ x.steps m) (hv : v ≠ .duration) : t.memory.get σ v = s.memory.get σ v := by
  have hstore : .store v ∈ x.testSteps (m.hasTag .timed) := by
    rwa [steps, hm] at hs
  rcases (store_mem_steps (by simp [hm]) hs).2 with rfl | ⟨rfl, -⟩
  · exact hk.level_of_store hx hsampled hstore
  · exact absurd rfl hv

/-- What a measurement has called and from which time it has subtracted. -/
theorem Measures.calledOnce {c : ProbeCall} {v : Int64} {es : History}
    (h : x.Measures σ c (start mem) s v es) :
    ∃ ts now, mem.get σ .entryTs = .long ts ∧ s.CalledOnce c x.methodId (.long now) ∧
      v = now - ts := by
  obtain ⟨st, sub, call, ts, now, rfl, hst, -, hsub, -, -, hcall, hts, hargs, hres, hv⟩ := h.entries
  refine ⟨ts, now, hts, ⟨call, ?_, hcall, hargs, hres⟩, hv⟩
  rw [calls_of_notes h.noted]
  simp [hst, hsub, hcall, Insn.isCall]

theorem Quiet.calls (h : x.Quiet σ (start mem) s) : s.calls = [] :=
  calls_of_notes (h.notes.trans (List.nil_append _).symm)

section
variable (hx : x.cycle.Coherent x.tracking) (hm : m.kind = .test)
  (hrun : exec w (written σ (x.steps m)) (start mem) = some s)

include hx hm hrun

/-- A quiet test that does not take the time by the clock is idle. -/
theorem Quiet.idles (hq : x.Quiet σ (start mem) s)
    (hsampled : x.tracking.isSampled = true ∨ ¬ x.DurationDue (m.hasTag .timed)) : s.Idles mem := by
  refine ⟨hq.calls, memory_eq_of_kept hrun fun v hv => ?_⟩
  by_cases hne : v = .duration
  · rw [hne]
    exact hq.duration
  · exact hq.toKeeps.get_of_store hx hm hsampled hv hne

/-- A test of a sampled method stores nothing but the duration. -/
theorem Keeps.memory_eq_write (hk : x.Keeps σ (start mem) s) (hsampled : x.tracking.isSampled = true)
    {v : Int64} (hv : s.memory.get σ .duration = .long v) :
    s.memory = mem.write (σ.slot .duration) (.long v) :=
  memory_eq_set hrun rfl hv fun _ hs hne => hk.get_of_store hx hm (.inl hsampled) hs hne

/-- A test that is not sampled and is not to measure is idle. -/
theorem TestEffect.idles (h : x.TestEffect σ (m.hasTag .timed) L (start mem) s)
    (hsampled : x.tracking.isSampled = false) (hidle : ¬ x.DurationDue (m.hasTag .timed)) :
    s.going = none ∧ s.Idles mem := by
  cases h with
  | rests going quiet => exact ⟨going, quiet.idles hx hm hrun (.inr hidle)⟩
  | leaves _ _ bound => exact absurd (hsampled.symm.trans (hx.sampled bound)) Bool.false_ne_true
  | zeroes _ _ due => exact absurd due hidle
  | measures _ _ due => exact absurd due hidle

end

end Context

namespace Turn.Writes

variable {t : Turn} {x y : Expander} {m : Marker} {id : Nat} {σ : Layout} {w : World} {mem : Memory}
  {s : Machine} {L : Int32}

section
variable (h : t.Writes x m id σ y) (hm : m.kind = .test) (hx : x.cycle.Coherent x.tracking)
  (hrun : exec w (written σ ((t.context x id).steps m)) (start mem) = some s)
  (heffect : (t.context x id).TestEffect σ (m.hasTag .timed) L (start mem) s)

include h hm in
theorem slot?_duration (hdue : (t.context x id).DurationDue (m.hasTag .timed)) :
    y.cycle.slot? .duration = some (σ.slot .duration) := by
  refine h.slot?_of_store ?_
  rw [Context.steps, hm]
  exact Context.store_duration_mem_testSteps (Context.measured_mem_testSteps.2 hdue)

include h hm hx hrun heffect in
theorem branch_meaning (hsampled : x.tracking.isSampled = true) {f : Slot}
    (hf : x.cycle.slot? .sampleHit = some f) :
    t.BranchMeaning x y (.ofNat id) ((t.context x id).DurationDue (m.hasTag .timed)) f mem L s := by
  have hbound : (t.context x id).cycle.isBound .sampleHit = true := by
    rw [Cycle.isBound, show (t.context x id).cycle.slot? .sampleHit = _ from hf]
    rfl
  have hflag : mem.get σ .sampleHit = mem.read .int f := h.expansion.fits.get hf mem
  have hidles (hq : (t.context x id).Quiet σ (start mem) s) : s.Idles mem :=
    hq.idles hx hm hrun (.inl hsampled)
  have hskips := x.tracking.skips_gate_iff L
  cases heffect with
  | rests going quiet idle hit =>
    refine ⟨fun _ => ⟨going, hidles quiet⟩, fun hadm hmiss => ?_, fun hadm _ =>
      ⟨going, fun _ => hidles quiet, fun hdue => ?_⟩⟩
    · exact absurd (hflag.trans hmiss) (hit hbound fun h => hskips.1 h hadm)
    · exact absurd hadm (hskips.1 (idle hdue).1)
  | leaves going quiet _ passes miss =>
    refine ⟨fun hadm => absurd (hskips.2 hadm) passes, fun _ _ => ⟨_, going, ?_, hidles quiet⟩,
      fun _ hhit => absurd (hflag.symm.trans miss) hhit⟩
    rw [h.pending?_after, Context.pendingElse_steps, hm]
    exact if_pos ⟨hsampled, hbound⟩
  | zeroes _ _ _ unbound => exact absurd (unbound.symm.trans hbound) Bool.false_ne_true
  | @measures c _ _ going keeps due passes entered _ hit call measures =>
    refine ⟨fun hadm => absurd (hskips.2 hadm) passes,
      fun _ hmiss => absurd (hflag.trans hmiss) (hit hbound),
      fun _ _ => ⟨going, fun hno => absurd due hno, fun _ => ?_⟩⟩
    obtain rfl : c = .getEndTs := call.trans (if_pos hsampled)
    obtain ⟨ts, now, hts, hcalled, rfl⟩ := measures.calledOnce
    exact ⟨_, ts, now, h.slot?_duration hm due, Cycle.holds_of_get h.expansion.fits entered hts,
      hcalled, keeps.memory_eq_write hx hm hrun hsampled measures.value⟩

include h hm hx hrun heffect in
theorem flagless_meaning (hsampled : x.tracking.isSampled = true)
    (hf : x.cycle.slot? .sampleHit = none) :
    FlaglessMeaning y ((t.context x id).DurationDue (m.hasTag .timed)) mem s := by
  have hfree : (t.context x id).cycle.isBound .sampleHit = false := by
    rw [Cycle.isBound, show (t.context x id).cycle.slot? .sampleHit = _ from hf]
    rfl
  cases heffect with
  | rests going quiet idle =>
    refine ⟨going, quiet.calls, fun _ => (quiet.idles hx hm hrun (.inl hsampled)).memory,
      fun hdue => ?_⟩
    rcases (idle hdue).2 with hb | ⟨hno, -⟩
    · exact absurd (hfree.symm.trans hb) Bool.false_ne_true
    · exact absurd (hno.symm.trans hsampled) Bool.false_ne_true
  | leaves _ _ bound => exact absurd (hfree.symm.trans bound) Bool.false_ne_true
  | zeroes going keeps due _ _ zeroes stored noted =>
    refine ⟨going, (calls_of_notes noted).trans zeroes.filter_isCall, fun hno => absurd due hno,
      fun _ => ⟨_, h.slot?_duration hm due, keeps.memory_eq_write hx hm hrun hsampled ?_⟩⟩
    rw [zeroes.value, if_neg stored]
  | measures _ _ _ _ _ bound =>
    exact absurd ((hfree.symm.trans bound).trans hsampled) Bool.false_ne_true

include h hm in
theorem isBound_level (hsampled : x.tracking.isSampled = false)
    (hdue : (t.context x id).DurationDue (m.hasTag .timed))
    (hcmp : x.tracking.gate.comparesLevel = true) : y.cycle.isBound .level = true := by
  have hr : .reset ∉ (t.context x id).steps m :=
    ((t.context x id).scoped_steps (by simp [hm])).reset_notMem
  rw [h.cycle, isBound_afterAll σ hr]
  cases hb : (t.context x id).cycle.isBound .level with
  | true => exact .inr rfl
  | false =>
    refine .inl ?_
    rw [Context.steps, hm]
    dsimp only
    rw [hdue.2.1]
    exact Context.store_level_mem_testSteps hsampled hdue.1 hdue.2.2 hcmp hb

include h hm hrun in
/-- A test changes no word but those of the duration and those of new slots. -/
theorem memory_test (hk : (t.context x id).Keeps σ (start mem) s) {j : Nat}
    (hj : ¬ (σ.slot .duration).Covers .long j) (hnew : ∀ a ∈ t.allotted, ¬ a.1.Covers a.2 j) :
    s.memory j = mem j := by
  refine h.memory_eq_of_kept hrun hnew fun v hs hb hcovers => ?_
  rcases (Context.store_mem_steps (by simp [hm]) hs).2 with rfl | ⟨rfl, -⟩
  · exact hk.level hb
  · exact absurd hcovers hj

include h hm hx hrun heffect in
theorem clock_meaning (hsampled : x.tracking.isSampled = false)
    (hdue : (t.context x id).DurationDue (m.hasTag .timed)) (hL : Sees x.cycle mem s L)
    (hlevel : x.tracking.gate.comparesLevel = true → s.memory.get σ .level = .int L) :
    t.ClockMeaning x y (.ofNat id) mem L s (σ.slot .duration) := by
  have hskips := x.tracking.skips_gate_iff L
  have hflag : ¬ (t.context x id).cycle.isBound .sampleHit = true := fun hb =>
    Bool.false_ne_true (hsampled.symm.trans (hx.sampled hb))
  have hread {r : Slot} (hr : y.cycle.slot? .level = some r) : s.memory.read .int r = .int L := by
    refine h.read_level (by simp [hm]) hrun hL (fun hs => hlevel ?_) hr
    rw [Context.steps, hm] at hs
    exact Context.comparesLevel_of_store_test hs
  have hbound := h.isBound_level hm hsampled hdue
  have hothers (j : Nat) := h.memory_test (j := j) hm hrun heffect.keeps
  cases heffect with
  | rests going quiet idle =>
    obtain ⟨hskip, hb | ⟨-, hb⟩⟩ := idle hdue
    · exact absurd hb hflag
    have hno (hadm : x.tracking.Admits L) : False := hskips.1 hskip hadm
    exact ⟨going, fun _ => ⟨quiet.calls, quiet.duration.trans (if_pos hb).symm⟩,
      fun hadm => (hno hadm).elim, fun hadm => (hno hadm).elim, hbound, fun _ => hread, hothers⟩
  | leaves _ _ bound => exact absurd bound hflag
  | zeroes going _ _ _ why zeroes stored noted =>
    have hcalls : s.calls = [] := (calls_of_notes noted).trans zeroes.filter_isCall
    have hzero : s.memory.read .long (σ.slot .duration) = .long 0 :=
      zeroes.value.trans (if_neg stored)
    refine ⟨going, fun hadm => ⟨hcalls, ?_⟩, fun hadm hts => ?_, fun _ _ => ⟨hcalls, hzero⟩, hbound,
      fun _ => hread, hothers⟩
    · rcases why with hs | ⟨-, hb⟩ | ⟨hpass, -⟩
      · exact absurd (hsampled.symm.trans hs) Bool.false_ne_true
      · exact hzero.trans (if_neg (Bool.eq_false_iff.1 hb)).symm
      · exact absurd (hskips.2 hadm) hpass
    · rcases why with hs | ⟨hskip, -⟩ | ⟨-, hno⟩
      · exact absurd (hsampled.symm.trans hs) Bool.false_ne_true
      · exact absurd hadm (hskips.1 hskip)
      · exact absurd (hno.symm.trans hts) Bool.false_ne_true
  | @measures c _ _ going _ _ passes entered _ _ call measures =>
    refine ⟨going, fun hadm => absurd (hskips.2 hadm) passes, fun _ _ => ?_, fun _ hno => ?_, hbound,
      fun _ => hread, hothers⟩
    · obtain rfl : c = .nanoTime := call.trans (if_neg (Bool.eq_false_iff.1 hsampled))
      obtain ⟨ts, now, hts, hcalled, rfl⟩ := measures.calledOnce
      exact ⟨ts, now, Cycle.holds_of_get h.expansion.fits entered hts, hcalled, measures.value⟩
    · exact absurd (hno.symm.trans entered) Bool.false_ne_true

end

end Turn.Writes

namespace Session

variable {expanders : List (Nat × Settings)} {firstSlot : UInt16} {as : List (Nat × Action)}

/-- Whatever the expanders of a session were asked before, a test has code with this meaning, if its
expander had its records first and its expansions have succeeded. -/
theorem test_meaning {t : Turn} (ht : t.before = (opened expanders firstSlot).actAll as)
    (hr : RecordsFirst t.index as)
    (hs : ∀ u ∈ (opened expanders firstSlot).turns as, u.index = t.index → u.Succeeds) {m : Marker}
    (ha : t.action = .expand m) (he : t.error? = none) {x : Expander} (hx : t.expander? = some x)
    {id : Nat} (hid : x.effectiveId m = .ok id) (hm : m.kind = .test) :
    ∃ y, t.after.expanders[t.index]? = some y ∧ ∀ w mem, ∃ s, Reaches t.emitted w (start mem) s ∧
      s.Over t.emitted ∧ s.stack = [] ∧ ∀ L, Sees x.cycle mem s L →
        t.TestMeaning x y (.ofNat id) ((t.context x id).DurationDue (m.hasTag .timed)) mem L s := by
  obtain ⟨id', σ, y, hw, -, hc, -⟩ := exists_writes_of_recordsFirst ht hr hs hx ha he
  obtain rfl : id' = id := Except.ok.inj (hw.expansion.id_eq.symm.trans hid)
  refine ⟨y, hw.expander_after, fun w mem => ?_⟩
  let z : Context := t.context x id'
  have hsteps : z.steps m = z.testSteps (m.hasTag .timed) := by rw [Context.steps, hm]
  obtain ⟨s, hrun, hst, hsees⟩ :=
    Context.exists_test_sees (x := z) hc hw.expansion.fits (m.hasTag .timed) w mem
  have hrun' : exec w (written σ (z.steps m)) (start mem) = some s := hsteps ▸ hrun
  obtain ⟨hreach, hover⟩ := hw.reaches_over hrun'
  refine ⟨s, hreach, hover, hst, fun L hL => ?_⟩
  obtain ⟨heffect, hlevel⟩ := hsees L hL
  refine ⟨fun hsampled f hf => hw.branch_meaning hm hc hrun' heffect hsampled hf,
    fun hsampled hf => hw.flagless_meaning hm hc hrun' heffect hsampled hf,
    fun hsampled hidle => heffect.idles hc hm hrun' hsampled hidle,
    fun hsampled hdue => ⟨_, hw.slot?_duration hm hdue, hw.clock_meaning hm hc hrun' heffect hsampled
      hdue hL (hlevel (.inr ⟨hsampled, hdue⟩))⟩⟩

/-- A sampled invocation is measured, one that is not leaves for the else target, and at level 5 nothing
happens. -/
theorem test_meaning_sampled :
    let entry := ((Marker.ofKind .entry).withFlag "timed").withSampler (some .const)
      |>.withTag "level" "[1,3]"
    let test := (Marker.ofKind .test).withFlag "timed"
    let as := [(0, Action.record entry), (0, .expand entry)]
    let t : Turn := ⟨(opened [(7, {})] 0).actAll as, 0, .expand test⟩
    t.error? = none ∧ ∃ x, t.expander? = some x ∧ x.cycle.slot? .sampleHit = some ⟨4⟩ ∧
      x.cycle.slot? .level = some ⟨5⟩ ∧ ∀ w mem, ∃ s, Reaches t.emitted w (start mem) s ∧
        s.Over t.emitted ∧
          (mem.read .int ⟨5⟩ = .int 2 → mem.read .int ⟨4⟩ = .int 1 →
            ∃ ts now, x.cycle.Holds mem .entryTs (.long ts) ∧ s.CalledOnce .getEndTs 7 (.long now) ∧
              s.memory = mem.write ⟨0⟩ (.long (now - ts))) ∧
          (mem.read .int ⟨5⟩ = .int 2 → mem.read .int ⟨4⟩ = .int 0 →
            s.going = t.after.pending? 0 ∧ s.Idles mem) ∧
          (mem.read .int ⟨5⟩ = .int 5 → s.going = none ∧ s.Idles mem) := by
  intro entry test as t
  let x : Expander := t.before.expanders.get ⟨0, by decide⟩
  have he : t.error? = none := by decide
  have hflag : x.cycle.slot? .sampleHit = some ⟨4⟩ := by decide
  have hslot : x.cycle.slot? .level = some ⟨5⟩ := by decide
  have hs : ∀ u ∈ (opened [(7, {})] 0).turns as, u.index = 0 → u.Succeeds :=
    fun u hu _ => Turn.succeeds_of_all (by decide) hu
  have hid : x.effectiveId test = .ok 7 := rfl
  obtain ⟨y, hy, hruns⟩ := test_meaning (t := t) rfl (by decide) hs rfl he rfl hid rfl
  have hduration : y.cycle.slot? .duration = some ⟨0⟩ := by
    have hafter : t.after.expanders[0]?.map (·.cycle.slot? .duration) = some (some ⟨0⟩) := by decide
    rw [hy] at hafter
    exact Option.some.inj hafter
  refine ⟨he, x, rfl, hflag, hslot, fun w mem => ?_⟩
  obtain ⟨s, hreach, hover, -, hmeaning⟩ := hruns w mem
  have hbranch {L : Int32} (hL : mem.read .int ⟨5⟩ = .int L) :=
    (hmeaning L (sees_of_slot hslot hL s)).branch (by decide) _ hflag
  refine ⟨s, hreach, hover, fun hL hhit => ?_, fun hL hmiss => ?_, fun hL => ?_⟩
  · obtain ⟨-, -, hmeasured⟩ := (hbranch hL).hit (by decide) (by simp [hhit])
    obtain ⟨d, ts, now, hd, hts, hcalled, hmem⟩ := hmeasured ⟨rfl, rfl, rfl⟩
    cases hd.symm.trans hduration
    exact ⟨ts, now, hts, hcalled, hmem⟩
  · obtain ⟨l, hgo, hpending, hidles⟩ := (hbranch hL).missed (by decide) hmiss
    exact ⟨hgo.trans hpending.symm, hidles⟩
  · exact (hbranch hL).skipped (by decide)

end Session

end MethodProbes
