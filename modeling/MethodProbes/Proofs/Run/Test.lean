import MethodProbes.Proofs.Run.Entry

/-!
# Running a test

A test at a level that the gate passes leaves for its else target if the invocation is not sampled,
and measures the time since the entry otherwise.
-/
namespace MethodProbes

open Step Machine History

namespace Context

section
variable (x : Context) {w : World} {σ : Layout}

/-- The entry of the cycle has decided at level `L`, and later gates of the cycle will too. -/
def Decided (σ : Layout) (m : Memory) (L : Int32) : Prop :=
  x.tracking.gate.comparesLevel = true →
    x.cycle.isBound .level = true ∧ m.get σ .level = .int L

variable {x} in
theorem Decided.skips_iff {m : Memory} {L L' : Int32} (h : x.Decided σ m L)
    (h' : x.tracking.gate.comparesLevel = true → x.cycle.isBound .level = true →
      m.get σ .level = .int L') : x.tracking.gate.Skips L' ↔ x.tracking.gate.Skips L := by
  cases hc : x.tracking.gate.comparesLevel with
  | true =>
    obtain ⟨hb, hL⟩ := h hc
    cases (h' hc hb).symm.trans hL
    exact Iff.rfl
  | false =>
    rw [Tracking.gate, Gate.skips_of_not_comparesLevel hc, Gate.skips_of_not_comparesLevel hc]

/-- A marker that is no entry keeps what the entry has left. -/
structure Keeps (σ : Layout) (s t : Machine) : Prop where
  stack : t.stack = s.stack
  entryTs : t.memory.get σ .entryTs = s.memory.get σ .entryTs
  sampleHit : t.memory.get σ .sampleHit = s.memory.get σ .sampleHit
  level : x.cycle.isBound .level = true → t.memory.get σ .level = s.memory.get σ .level

variable {x} in
theorem Keeps.trans {s t u : Machine} (h : x.Keeps σ s t) (h' : x.Keeps σ t u) :
    x.Keeps σ s u :=
  ⟨h'.stack.trans h.stack, h'.entryTs.trans h.entryTs, h'.sampleHit.trans h.sampleHit,
    fun hb => (h'.level hb).trans (h.level hb)⟩

variable {x} in
theorem Keeps.of_alike {d : Slot} {s t : Machine} (h : Alike d s t) : x.Keeps σ s t := by
  constructor
  · exact h.stack
  all_goals simp only [h.memory, implies_true]

/-- The machine has kept the duration too, and has done nothing that is noted. -/
structure Quiet (σ : Layout) (s t : Machine) : Prop extends x.Keeps σ s t where
  duration : t.memory.get σ .duration = s.memory.get σ .duration
  notes : notes (σ.slot .duration) t.history = notes (σ.slot .duration) s.history

variable {x} in
theorem Quiet.trans {s t u : Machine} (h : x.Quiet σ s t) (h' : x.Quiet σ t u) : x.Quiet σ s u :=
  ⟨h.toKeeps.trans h'.toKeeps, h'.duration.trans h.duration, h'.notes.trans h.notes⟩

variable {x} in
theorem Quiet.of_alike {s t : Machine} (h : Alike (σ.slot .duration) s t) : x.Quiet σ s t :=
  ⟨.of_alike h, by rw [h.memory], h.notes⟩

theorem exists_quiet_guard {s : Machine} (hs : s.going = none) {given : Option Label} {n : Nat}
    (hgiven : ∀ k ∈ given, k.id < n) :
    ∃ L t, exec w (written σ (x.guard [] given n).1) s = some t ∧
      x.Guarded σ [] (x.guard [] given n).2 L s t ∧ x.Judges σ L s t ∧ x.Quiet σ s t := by
  obtain ⟨L, t, ht, hg, hj, hd, hn⟩ := x.exists_silent_guard (w := w) (σ := σ) hs
    List.not_mem_nil List.not_mem_nil hgiven
  refine ⟨L, t, ht, hg, hj, ⟨hg.stack, ?_, ?_, fun hb => ?_⟩, hd, hn⟩
  · rw [hg.get .entryTs (by simp), if_neg (by simp)]
  · rw [hg.get .sampleHit (by simp), if_neg (by simp)]
  · rw [(hg.bound hb).1, (hg.bound hb).2]

theorem exists_measure_zero (hb : x.cycle.isBound .entryTs = false) (now : List Step) {s : Machine}
    (hs : s.going = none) :
    ∃ e t, exec w (written σ (x.measure now)) s = some t ∧ t.going = none ∧ x.Keeps σ s t ∧
      Zeroes σ [e] s t ∧ notes (σ.slot .duration) t.history =
        e :: notes (σ.slot .duration) s.history := by
  obtain ⟨pc, st, m, h, _⟩ := s
  obtain rfl : _ = none := hs
  have hcode : written σ (x.measure now) =
      [.push (.long 0), .store .long (σ.slot .duration)] := by
    simp [measure, hb, insns, Var.type]
  have hget (v : Var) : (m.set σ .duration (.long 0)).get σ v =
      if v = .duration then .long 0 else m.get σ v := Memory.get_set m σ rfl
  rw [hcode]
  refine ⟨⟨pc + 1, .store .long (σ.slot .duration), [.long 0], []⟩, _,
    exec_push.trans (exec_store rfl), rfl, ⟨rfl, ?_, ?_, fun _ => ?_⟩, ⟨by simp, ?_⟩, ?_⟩
  · exact (hget .entryTs).trans (if_neg (by simp))
  · exact (hget .sampleHit).trans (if_neg (by simp))
  · exact (hget .level).trans (if_neg (by simp))
  · exact (hget .duration).trans (if_pos rfl)
  · rw [notes_cons_of_tells (by simp [Insn.tells]), notes_cons_of_not_tells rfl]

/-- What is noted of a measurement: the store of a duration, the subtraction and the call before. -/
structure Measures (σ : Layout) (c : ProbeCall) (s t : Machine) (v : Int64)
    (es : History) : Prop where
  value : t.memory.get σ .duration = .long v
  entries : ∃ st sub call ts now, es = [st, sub, call] ∧
    st.insn = .store .long (σ.slot .duration) ∧ st.popped = [.long v] ∧
    sub.insn = .sub .long ∧ sub.popped = [.long ts, .long now] ∧ sub.pushed = [.long v] ∧
    call.insn = .invoke c.callee ∧ s.memory.get σ .entryTs = .long ts ∧
    call.popped = c.arguments x.methodId ∧ call.pushed = [.long now] ∧ v = now - ts
  noted : notes (σ.slot .duration) t.history = es ++ notes (σ.slot .duration) s.history

variable {x} in
/-- What comes before and after a measurement does not matter if it is not noted. -/
theorem Measures.of_quiet {c : ProbeCall} {v : Int64} {es : History} {r s t u : Machine}
    (h : x.Measures σ c s t v es) (hq : x.Quiet σ r s) (ha : Alike (σ.slot .duration) t u) :
    x.Measures σ c r u v es := by
  refine ⟨by rw [ha.memory, h.value], ?_, by rw [ha.notes, h.noted, hq.notes]⟩
  rw [← hq.entryTs]
  exact h.entries

def AsksTime (w : World) (σ : Layout) (now : List Step) (c : ProbeCall) : Prop :=
  ∀ s : Machine, s.going = none → ∃ e v t, exec w (written σ now) s = some t ∧ t.going = none ∧
    t.stack = .long v :: s.stack ∧ t.memory = s.memory ∧ e.insn = .invoke c.callee ∧
    e.popped = c.arguments x.methodId ∧ e.pushed = [.long v] ∧
    notes (σ.slot .duration) t.history = e :: notes (σ.slot .duration) s.history

theorem asksTime_getEndTs : x.AsksTime w σ (x.callWithId .getEndTs) .getEndTs := by
  rintro ⟨pc, st, m, h, _⟩ hs
  obtain rfl : _ = none := hs
  exact ⟨⟨pc + 1, .invoke _, [.int x.methodId], [_]⟩, w.long _, _,
    exec_push.trans (exec_invoke_id rfl rfl), rfl, rfl, rfl, rfl, rfl, rfl, rfl⟩

theorem asksTime_nanoTime :
    x.AsksTime w σ [.emit (.invoke ProbeCall.nanoTime.callee)] .nanoTime := by
  rintro ⟨pc, st, m, h, _⟩ hs
  obtain rfl : _ = none := hs
  exact ⟨⟨pc, .invoke _, [], [_]⟩, w.long _, _, exec_invoke rfl rfl, rfl, rfl, rfl, rfl, rfl, rfl,
    rfl⟩

theorem exists_measure (hb : x.cycle.isBound .entryTs = true) {now : List Step} {c : ProbeCall}
    (hnow : x.AsksTime w σ now c) {s : Machine} (hs : s.going = none) :
    ∃ v es t, exec w (written σ (x.measure now)) s = some t ∧ t.going = none ∧ x.Keeps σ s t ∧
      x.Measures σ c s t v es := by
  obtain ⟨e, v, ⟨pc, st, m, h, _⟩, hu, hgo, hst, hm, he, hargs, hres, hn⟩ := hnow s hs
  obtain rfl : _ = none := hgo
  obtain rfl : st = .long v :: s.stack := hst
  obtain rfl : m = s.memory := hm
  obtain ⟨ts, hts⟩ := Const.exists_long (s.memory.type_get σ .entryTs)
  have hcode : written σ (x.measure now) = written σ now ++
      [.load .long (σ.slot .entryTs), .sub .long, .store .long (σ.slot .duration)] := by
    simp [measure, hb, insns, Var.type]
  have hload : s.memory.read .long (σ.slot .entryTs) = .long ts := hts
  have hget (u : Var) : (s.memory.set σ .duration (.long (v - ts))).get σ u =
      if u = .duration then .long (v - ts) else s.memory.get σ u := Memory.get_set _ σ rfl
  let ld : Entry := ⟨pc, .load .long (σ.slot .entryTs), [], [.long ts]⟩
  let sub : Entry := ⟨pc + 1, .sub .long, [.long ts, .long v], [.long (v - ts)]⟩
  let st : Entry := ⟨pc + 2, .store .long (σ.slot .duration), [.long (v - ts)], []⟩
  have hrun : exec w [.load .long (σ.slot .entryTs), .sub .long,
      .store .long (σ.slot .duration)] ⟨pc, .long v :: s.stack, s.memory, h, none⟩ =
      some ⟨pc + 3, s.stack, s.memory.set σ .duration (.long (v - ts)), st :: sub :: ld :: h,
        none⟩ := by
    rw [exec_load, hload, exec_sub_long, exec_store rfl]
    rfl
  rw [hcode]
  refine ⟨v - ts, [st, sub, e], _, (exec_append_of hu _).trans hrun, rfl,
    ⟨rfl, ?_, ?_, fun _ => ?_⟩, ⟨?_, ?_, ?_⟩⟩
  · exact (hget .entryTs).trans (if_neg (by simp))
  · exact (hget .sampleHit).trans (if_neg (by simp))
  · exact (hget .level).trans (if_neg (by simp))
  · exact (hget .duration).trans (if_pos rfl)
  · exact ⟨st, sub, e, ts, v, rfl, rfl, rfl, rfl, rfl, rfl, he, hts, hargs, hres, rfl⟩
  · rw [notes_cons_of_tells (by simp [st, Insn.tells]), notes_cons_of_tells rfl,
      notes_cons_of_not_tells rfl, hn]
    rfl

/-- What a test does if its guard decides at level `L`. -/
inductive TestEffect (σ : Layout) (tag : Bool) (L : Int32) (s t : Machine) : Prop
  | rests (going : t.going = none) (quiet : x.Quiet σ s t)
    (idle : x.DurationDue tag → x.tracking.gate.Skips L ∧
      (x.cycle.isBound .sampleHit = true ∨
        x.tracking.isSampled = false ∧ x.cycle.isBound .duration = true))
    (hit : x.cycle.isBound .sampleHit = true → ¬ x.tracking.gate.Skips L →
      s.memory.get σ .sampleHit ≠ .int 0)
  | leaves (going : t.going = some ⟨x.nextLabel + 1⟩) (quiet : x.Quiet σ s t)
    (bound : x.cycle.isBound .sampleHit = true) (passes : ¬ x.tracking.gate.Skips L)
    (miss : s.memory.get σ .sampleHit = .int 0)
  | zeroes {zs : History} (going : t.going = none) (keeps : x.Keeps σ s t)
    (due : x.DurationDue tag) (unbound : x.cycle.isBound .sampleHit = false)
    (why : x.tracking.isSampled = true ∨
      x.tracking.gate.Skips L ∧ x.cycle.isBound .duration = false ∨
      ¬ x.tracking.gate.Skips L ∧ x.cycle.isBound .entryTs = false)
    (zeroes : Zeroes σ zs s t) (stored : zs ≠ [])
    (noted : notes (σ.slot .duration) t.history = zs ++ notes (σ.slot .duration) s.history)
  | measures {c : ProbeCall} {v : Int64} {es : History} (going : t.going = none)
    (keeps : x.Keeps σ s t) (due : x.DurationDue tag) (passes : ¬ x.tracking.gate.Skips L)
    (entered : x.cycle.isBound .entryTs = true)
    (bound : x.cycle.isBound .sampleHit = x.tracking.isSampled)
    (hit : x.cycle.isBound .sampleHit = true → s.memory.get σ .sampleHit ≠ .int 0)
    (call : c = if x.tracking.isSampled then .getEndTs else .nanoTime)
    (measures : x.Measures σ c s t v es)

variable {x} in
/-- Only the decision counts, not the level. -/
theorem TestEffect.of_skips_iff {tag : Bool} {L L' : Int32} {s t : Machine}
    (h : x.TestEffect σ tag L s t) (hL : x.tracking.gate.Skips L ↔ x.tracking.gate.Skips L') :
    x.TestEffect σ tag L' s t := by
  cases h with
  | rests going quiet idle hit =>
    exact .rests going quiet (fun h => (idle h).imp_left hL.1) fun hb hL' => hit hb (mt hL.1 hL')
  | leaves going quiet bound passes miss =>
    exact .leaves going quiet bound (mt hL.2 passes) miss
  | zeroes going keeps due unbound why zeroes stored noted =>
    exact .zeroes going keeps due unbound
      (why.imp_right (Or.imp (And.imp_left hL.1) (And.imp_left (mt hL.2)))) zeroes stored noted
  | measures going keeps due passes entered bound hit call measures =>
    exact .measures going keeps due (mt hL.2 passes) entered bound hit call measures

variable {x} in
theorem TestEffect.keeps {tag : Bool} {L : Int32} {s t : Machine} (h : x.TestEffect σ tag L s t) :
    x.Keeps σ s t := by
  cases h with
  | rests going quiet => exact quiet.toKeeps
  | leaves going quiet => exact quiet.toKeeps
  | zeroes going keeps => exact keeps
  | measures going keeps => exact keeps

theorem label_notMem_sampledMeasure (tag : Bool) (l : Label) :
    .label l ∉ written σ (x.sampledMeasure tag) := by
  rw [sampledMeasure]
  split
  · split
    · simp
    · rw [measure]
      split <;> simp [callWithId, insns]
  · simp

theorem exists_branch {d : Slot} {s : Machine} (hs : s.going = none) {v : Int32}
    (hv : s.memory.get σ .sampleHit = .int v) (l : Label) :
    ∃ t, exec w [.load .int (σ.slot .sampleHit), .jump .ifZero l] s = some t ∧ Alike d s t ∧
      t.going = if v = 0 then some l else none := by
  obtain ⟨pc, st, m, h, _⟩ := s
  obtain rfl : _ = none := hs
  have hread : m.read .int (σ.slot .sampleHit) = .int v := hv
  refine ⟨⟨pc + 2, st, m, ⟨pc + 1, .jump .ifZero l, [.int v], []⟩ ::
    ⟨pc, .load .int (σ.slot .sampleHit), [], [.int v]⟩ :: h, if v = 0 then some l else none⟩,
    ?_, ⟨rfl, rfl, rfl⟩, rfl⟩
  rw [exec_load, hread, exec_jump_one rfl]
  simp [Cond.holds]

theorem exists_test_unentered (hm : x.tracking.isSampled = true)
    (hb : x.cycle.isBound .sampleHit = false) (hts : x.cycle.isBound .entryTs = false) (tag : Bool)
    {s : Machine} (hs : s.going = none) :
    ∃ t, exec w (written σ (x.testSteps tag)) s = some t ∧ ∀ L, x.TestEffect σ tag L s t := by
  have hbranch : x.branch ⟨x.nextLabel⟩ = [] := by simp [branch, hb]
  have hcode : written σ (x.testSteps tag) = written σ (x.sampledMeasure tag) ++
      [.label ⟨x.nextLabel⟩, .frame ⟨x.nextLabel⟩] := by
    simp [x.testSteps_of_sampled hm tag, hbranch, insns]
  by_cases hdue : x.DurationDue tag
  · obtain ⟨e, u, hu, hgo, hk, hz, hn⟩ := x.exists_measure_zero (w := w) (σ := σ) hts
      (x.callWithId .getEndTs) hs
    obtain ⟨t, ht, hat, hgo⟩ := exists_done (w := w) (d := σ.slot .duration) hgo
    refine ⟨t, ?_, fun L => .zeroes hgo (hk.trans (.of_alike hat)) hdue hb (.inl hm)
      ⟨hz.store, ?_⟩ (List.cons_ne_nil e []) ?_⟩
    · rw [hcode, x.sampledMeasure_of_due hdue, exec_append_of hu, ht]
    · rw [hat.memory, hz.value]
    · rw [hat.notes, hn]
      rfl
  · obtain ⟨t, ht, hat, hgo⟩ := exists_done (w := w) (d := σ.slot .duration) hs
    refine ⟨t, ?_, fun L => .rests hgo (.of_alike hat) (absurd · hdue) fun h => ?_⟩
    · rw [hcode, x.sampledMeasure_of_not_due hdue]
      exact ht
    · simp [hb] at h

/-- A sampled invocation is measured, unless it was before or no time is asked for. -/
theorem exists_hit_measure (hx : x.cycle.Coherent x.tracking) (hm : x.tracking.isSampled = true)
    (hb : x.cycle.isBound .sampleHit = true) (tag : Bool) {L : Int32} {s u : Machine}
    (hL : ¬ x.tracking.gate.Skips L) (hit : s.memory.get σ .sampleHit ≠ .int 0)
    (hgo : u.going = none) (hq : x.Quiet σ s u) :
    ∃ t, exec w (written σ (x.sampledMeasure tag) ++ [.label ⟨x.nextLabel⟩, .frame ⟨x.nextLabel⟩])
      u = some t ∧ x.TestEffect σ tag L s t := by
  by_cases hdue : x.DurationDue tag
  · have hts : x.cycle.isBound .entryTs = true :=
      hx.entry (.inr hb) _ (Tracking.mem_entryVars.2 (.inl ⟨rfl, hdue.1⟩))
    obtain ⟨v, es, a, hrun, hgo, hka, hms⟩ :=
      x.exists_measure (w := w) (σ := σ) hts x.asksTime_getEndTs hgo
    obtain ⟨t, ht, hat, hgo⟩ := exists_done (w := w) (d := σ.slot .duration) hgo
    refine ⟨t, ?_, .measures hgo ((hq.toKeeps.trans hka).trans (.of_alike hat)) hdue hL hts
      (hb.trans hm.symm) (fun _ => hit) ?_ (hms.of_quiet hq hat)⟩
    · rw [x.sampledMeasure_of_due hdue, exec_append_of hrun, ht]
    · rw [if_pos hm]
  · obtain ⟨t, ht, hat, hgo⟩ := exists_done (w := w) (d := σ.slot .duration) hgo
    refine ⟨t, ?_, .rests hgo (hq.trans (.of_alike hat)) (absurd · hdue) fun _ _ => hit⟩
    rw [x.sampledMeasure_of_not_due hdue]
    exact ht

theorem exists_test_sampled (hx : x.cycle.Coherent x.tracking) (hm : x.tracking.isSampled = true)
    (hb : x.cycle.isBound .sampleHit = true) (tag : Bool) {s : Machine} (hs : s.going = none) :
    ∃ L t, exec w (written σ (x.testSteps tag)) s = some t ∧ x.Judges σ L s t ∧
      x.TestEffect σ tag L s t := by
  have hcode : written σ (x.testSteps tag) =
      written σ (x.guard [] (some ⟨x.nextLabel⟩) (x.nextLabel + 2)).1 ++
        ([.load .int (σ.slot .sampleHit), .jump .ifZero ⟨x.nextLabel + 1⟩] ++
          (written σ (x.sampledMeasure tag) ++
            [.label ⟨x.nextLabel⟩, .frame ⟨x.nextLabel⟩])) := by
    simp [x.testSteps_of_sampled hm, branch, hb, insns, testsTo, Var.type]
  have hgiven : ∀ k ∈ some (⟨x.nextLabel⟩ : Label), k.id < x.nextLabel + 2 := by simp
  obtain ⟨L, u, hu, hg, hj, hqu⟩ := x.exists_quiet_guard (w := w) (σ := σ) hs hgiven
  have hgo := hg.going
  rw [hcode, exec_append_of hu]
  by_cases hL : x.tracking.gate.Skips L
  · rw [if_pos hL, x.guard_snd_of_skips hL] at hgo
    -- the gate skips to the end of the code
    have hno : .label ⟨x.nextLabel⟩ ∉ [.load .int (σ.slot .sampleHit),
        .jump .ifZero ⟨x.nextLabel + 1⟩] ++ written σ (x.sampledMeasure tag) :=
      List.not_mem_append (by simp) (x.label_notMem_sampledMeasure tag _)
    obtain ⟨t, ht, hat, hgo⟩ := exists_skip (w := w) (d := σ.slot .duration) hgo hno
    refine ⟨L, t, ?_, hj.behind (suffix_history_exec ht), .rests hgo (hqu.trans (.of_alike hat))
      (fun _ => ⟨hL, .inl hb⟩) fun _ h => absurd hL h⟩
    rw [← List.append_assoc]
    exact ht
  · rw [if_neg hL] at hgo
    obtain ⟨v, hv⟩ := Const.exists_int (s.memory.type_get σ .sampleHit)
    obtain ⟨a, ha, haa, hgo⟩ := exists_branch (w := w) (σ := σ) (d := σ.slot .duration)
      hgo (hqu.sampleHit.trans hv) ⟨x.nextLabel + 1⟩
    have hqa : x.Quiet σ s a := hqu.trans (.of_alike haa)
    have hja : x.Judges σ L s a := hj.behind (suffix_history_exec ha)
    rw [exec_append_of ha]
    by_cases hz : v = 0
    · rw [if_pos hz] at hgo
      have hno : .label ⟨x.nextLabel + 1⟩ ∉ written σ (x.sampledMeasure tag) ++
          [.label ⟨x.nextLabel⟩, .frame ⟨x.nextLabel⟩] :=
        List.not_mem_append (x.label_notMem_sampledMeasure tag _) (by simp)
      obtain ⟨t, ht, hat, hgo⟩ := exists_pass (w := w) (d := σ.slot .duration) hgo hno
      exact ⟨L, t, ht, hja.behind (suffix_history_exec ht),
        .leaves hgo (hqa.trans (.of_alike hat)) hb hL (hz ▸ hv)⟩
    · rw [if_neg hz] at hgo
      have hit : s.memory.get σ .sampleHit ≠ .int 0 := by simpa [hv] using hz
      obtain ⟨t, ht, heffect⟩ := x.exists_hit_measure hx hm hb tag hL hit hgo hqa
      exact ⟨L, t, ht, hja.behind (suffix_history_exec ht), heffect⟩

/-! ### Tests of methods that are not sampled -/

theorem label_notMem_clock (l : Label) : .label l ∉
    written σ (x.measure [.emit (.invoke ProbeCall.nanoTime.callee)]) := by
  rw [measure]
  split <;> simp [insns]

theorem eq_duration_of_store_clock {l : Label} {ty : ValueType} {r : Slot}
    (h : .store ty r ∈ written σ (x.measure [.emit (.invoke ProbeCall.nanoTime.callee)]) ++
      [.label l, .frame l]) : ty = .long ∧ r = σ.slot .duration := by
  rw [measure] at h
  split at h <;> simpa [insns, Var.type] using h

theorem exists_test_idle (hx : x.cycle.Coherent x.tracking) (hm : x.tracking.isSampled = false)
    {tag : Bool} (hdue : ¬ x.DurationDue tag) {s : Machine} (hs : s.going = none) :
    ∃ t, exec w (written σ (x.testSteps tag)) s = some t ∧ ∀ L, x.TestEffect σ tag L s t := by
  have hcode : x.testSteps tag = [.newLabel] ∨
      x.testSteps tag = .newLabel :: Step.merge ⟨x.nextLabel⟩ := by
    rw [x.testSteps_of_not_sampled hm]
    simp only [Bool.and_eq_true]
    split
    next ht =>
      have hmd : x.cycle.measured = true := by simpa [DurationDue, ht.1, ht.2] using hdue
      simp [hmd]
    next => exact .inl rfl
  obtain ⟨t, ht, hat, hgo⟩ : ∃ t, exec w (written σ (x.testSteps tag)) s = some t ∧
      Alike (σ.slot .duration) s t ∧ t.going = none := by
    rcases hcode with h | h
    · rw [h]
      exact ⟨s, rfl, ⟨rfl, rfl, rfl⟩, hs⟩
    · rw [h]
      exact exists_done hs
  refine ⟨t, ht, fun L => .rests hgo (.of_alike hat) (absurd · hdue) fun hb => ?_⟩
  have hsampled := hx.sampled hb
  simp [hm] at hsampled

theorem written_clock (hm : x.tracking.isSampled = false) (ht : x.tracking.timed = true)
    (hmd : x.cycle.measured = false) : written σ (x.testSteps true) =
      written σ (x.define .duration) ++
        (written σ (x.guard [] (some ⟨x.nextLabel⟩) (x.nextLabel + 1)).1 ++
          (written σ (x.measure [.emit (.invoke ProbeCall.nanoTime.callee)]) ++
            [.label ⟨x.nextLabel⟩, .frame ⟨x.nextLabel⟩])) := by
  simp [testSteps, hm, ht, hmd, clockMeasure, testsTo, insns]

/-- The clock measures the time since the entry, if the cycle has one. -/
theorem exists_clock_measure (hx : x.cycle.Coherent x.tracking)
    (hm : x.tracking.isSampled = false) {tag : Bool} (hdue : x.DurationDue tag)
    (hb : x.cycle.isBound .sampleHit = false) {L : Int32} (hL : ¬ x.tracking.gate.Skips L)
    {zs : History} {s u : Machine} (hgo : u.going = none) (hk : x.Keeps σ s u)
    (hz : Zeroes σ zs s u)
    (hn : notes (σ.slot .duration) u.history = zs ++ notes (σ.slot .duration) s.history)
    (hdef : zs ≠ [] ↔ x.cycle.isBound .duration = false) :
    ∃ t, exec w (written σ (x.measure [.emit (.invoke ProbeCall.nanoTime.callee)]) ++
      [.label ⟨x.nextLabel⟩, .frame ⟨x.nextLabel⟩]) u = some t ∧ x.TestEffect σ tag L s t := by
  cases hts : x.cycle.isBound .entryTs with
  | true =>
    -- the entry has given the duration a slot, so nothing was defined
    obtain rfl : zs = [] := by
      by_contra hne
      exact Bool.false_ne_true ((hdef.1 hne).symm.trans (hx.duration (.inl hts) hdue.1))
    have hq : x.Quiet σ s u := ⟨hk, hz.value.trans (if_pos rfl), hn⟩
    obtain ⟨v, es, a, ha, hgo, hka, hms⟩ :=
      x.exists_measure (w := w) (σ := σ) hts x.asksTime_nanoTime hgo
    obtain ⟨t, ht, hat, hgo⟩ := exists_done (w := w) (d := σ.slot .duration) hgo
    refine ⟨t, ?_, .measures hgo ((hk.trans hka).trans (.of_alike hat)) hdue hL hts
      (hb.trans hm.symm) (fun h => ?_) ?_ (hms.of_quiet hq hat)⟩
    · rw [exec_append_of ha, ht]
    · simp [hb] at h
    · rw [hm, if_neg Bool.false_ne_true]
  | false =>
    obtain ⟨e, a, ha, hgo, hka, hza, hna⟩ := x.exists_measure_zero (w := w) (σ := σ) hts
      [.emit (.invoke ProbeCall.nanoTime.callee)] hgo
    obtain ⟨t, ht, hat, hgo⟩ := exists_done (w := w) (d := σ.slot .duration) hgo
    have hne : e :: zs ≠ [] := List.cons_ne_nil e zs
    have hzt : Zeroes σ (e :: zs) s t := by
      refine ⟨fun d hd => ?_, ?_⟩
      · exact (List.mem_cons.1 hd).elim (fun h => h ▸ hza.store e List.mem_cons_self) (hz.store d)
      · rw [hat.memory, hza.value, if_neg (List.cons_ne_nil e []), if_neg hne]
    refine ⟨t, ?_, .zeroes hgo ((hk.trans hka).trans (.of_alike hat)) hdue hb
      (.inr (.inr ⟨hL, hts⟩)) hzt hne ?_⟩
    · rw [exec_append_of ha, ht]
    · rw [hat.notes, hna, hn]
      rfl

/-- A test that measures by the clock, behind the gate of its cycle. -/
theorem exists_test_clock (hx : x.cycle.Coherent x.tracking) (hm : x.tracking.isSampled = false)
    {tag : Bool} (hdue : x.DurationDue tag) {s : Machine} (hs : s.going = none) :
    ∃ L t, exec w (written σ (x.testSteps tag)) s = some t ∧ x.Judges σ L s t ∧
      (x.tracking.gate.comparesLevel = true → t.memory.get σ .level = .int L) ∧
      x.TestEffect σ tag L s t := by
  have hb : x.cycle.isBound .sampleHit = false :=
    Bool.eq_false_iff.2 fun h => Bool.false_ne_true (hm.symm.trans (hx.sampled h))
  obtain ⟨zs, u, hu, hgo, hst, hvar, hz, hn, hdef⟩ :=
    x.exists_define_duration (w := w) (σ := σ) hs
  have hku : x.Keeps σ s u :=
    ⟨hst, hvar .entryTs (by simp), hvar .sampleHit (by simp), fun _ => hvar .level (by simp)⟩
  have hgiven : ∀ k ∈ some (⟨x.nextLabel⟩ : Label), k.id < x.nextLabel + 1 := by simp
  obtain ⟨L, v, hv, hg, hj, hqv⟩ := x.exists_quiet_guard (w := w) (σ := σ) hgo hgiven
  have hjs : x.Judges σ L s v :=
    hj.before hu (fun i => x.readsLevel_of_mem_define) (hvar .level (by simp))
  have hkv : x.Keeps σ s v := hku.trans hqv.toKeeps
  have hzv : Zeroes σ zs s v := ⟨hz.store, hqv.duration.trans hz.value⟩
  have hnv := hqv.notes.trans hn
  have hgo := hg.going
  -- what comes behind the guard stores nothing but the duration
  have hlevel {t : Machine} (h : exec w (written σ
      (x.measure [.emit (.invoke ProbeCall.nanoTime.callee)]) ++
        [.label ⟨x.nextLabel⟩, .frame ⟨x.nextLabel⟩]) v = some t)
      (hc : x.tracking.gate.comparesLevel = true) : t.memory.get σ .level = .int L := by
    refine (read_exec h fun ty r hr => ?_).trans (hg.level hc)
    obtain ⟨rfl, rfl⟩ := x.eq_duration_of_store_clock hr
    exact σ.apart .duration .level (by simp)
  obtain ⟨ht, rfl, hmd⟩ := hdue
  rw [x.written_clock hm ht hmd, exec_append_of hu, exec_append_of hv]
  by_cases hL : x.tracking.gate.Skips L
  · rw [if_pos hL, x.guard_snd_of_skips hL] at hgo
    obtain ⟨t, hrun, hat, hgo⟩ := exists_skip (w := w) (d := σ.slot .duration) hgo
      (x.label_notMem_clock (σ := σ) _)
    refine ⟨L, t, hrun, hjs.behind (suffix_history_exec hrun), hlevel hrun, ?_⟩
    have hkt : x.Keeps σ s t := hkv.trans (.of_alike hat)
    by_cases hne : zs = []
    · subst hne
      have hbound : x.cycle.isBound .duration = true :=
        Bool.eq_false_imp_eq_true.1 fun h => absurd rfl (hdef.2 h)
      refine .rests hgo ⟨hkt, ?_, ?_⟩ (fun _ => ⟨hL, .inr ⟨hm, hbound⟩⟩) fun h => ?_
      · rw [hat.memory, hzv.value, if_pos rfl]
      · rw [hat.notes, hnv]
        rfl
      · simp [hb] at h
    · refine .zeroes hgo hkt ⟨ht, rfl, hmd⟩ hb (.inr (.inl ⟨hL, hdef.1 hne⟩)) ⟨hz.store, ?_⟩ hne ?_
      · rw [hat.memory, hzv.value]
      · rw [hat.notes, hnv]
  · rw [if_neg hL] at hgo
    obtain ⟨t, hrun, heffect⟩ :=
      x.exists_clock_measure hx hm ⟨ht, rfl, hmd⟩ hb hL hgo hkv hzv hnv hdef
    exact ⟨L, t, hrun, hjs.behind (suffix_history_exec hrun), hlevel hrun, heffect⟩

/-- What running a test comes to, at the level that its guard decides by if it has one. -/
theorem exists_test_effect (hx : x.cycle.Coherent x.tracking) (tag : Bool) {s : Machine}
    (hs : s.going = none) :
    ∃ t, exec w (written σ (x.testSteps tag)) s = some t ∧
      ((∃ L, x.Judges σ L s t ∧
          (x.tracking.gate.comparesLevel = true → t.memory.get σ .level = .int L) ∧
          x.TestEffect σ tag L s t) ∨
        ¬ x.Gated tag ∧ ∀ L, x.TestEffect σ tag L s t) := by
  rw [Gated]
  cases hm : x.tracking.isSampled with
  | true =>
    cases hb : x.cycle.isBound .sampleHit with
    | true =>
      obtain ⟨L, t, ht, hj, heffect⟩ := x.exists_test_sampled (w := w) (σ := σ) hx hm hb tag hs
      refine ⟨t, ht, .inl ⟨L, hj, fun hc => ?_, heffect⟩⟩
      have hlevel := hx.level (.inr hb) hc
      exact (heffect.keeps.level hlevel).trans (hj.bound hlevel)
    | false =>
      have hts : x.cycle.isBound .entryTs = false := Bool.eq_false_iff.2 fun hts => by
        have hbound := hx.entry (.inl hts) _ (Tracking.mem_entryVars.2 (.inr ⟨rfl, hm⟩))
        simp [hb] at hbound
      obtain ⟨t, ht, heffect⟩ := x.exists_test_unentered (w := w) (σ := σ) hm hb hts tag hs
      exact ⟨t, ht, .inr ⟨by simp, heffect⟩⟩
  | false =>
    by_cases hdue : x.DurationDue tag
    · obtain ⟨L, t, ht, heffect⟩ := x.exists_test_clock (w := w) (σ := σ) hx hm hdue hs
      exact ⟨t, ht, .inl ⟨L, heffect⟩⟩
    · obtain ⟨t, ht, heffect⟩ := x.exists_test_idle (w := w) (σ := σ) hx hm hdue hs
      refine ⟨t, ht, .inr ⟨fun h => ?_, heffect⟩⟩
      rcases h with h | h
      · exact Bool.false_ne_true (hm.symm.trans (hx.sampled h))
      · exact hdue h.2

/-! ### Tests behind an entry -/

inductive TestRun (σ : Layout) (tag : Bool) (L : Int32) (s t : Machine) : Prop
  | rest {zs : History} (going : t.going = none) (zeroes : Zeroes σ zs s t)
    (noted : notes (σ.slot .duration) t.history = zs ++ notes (σ.slot .duration) s.history)
    (defined : .store .duration ∈ x.testSteps tag →
      x.cycle.isBound .duration = true ∨ zs ≠ [])
    (unmeasured : zs ≠ [] → x.cycle.measured = false)
    (hit : x.cycle.isBound .sampleHit = true → ¬ x.tracking.gate.Skips L →
      s.memory.get σ .sampleHit ≠ .int 0)
  | left (going : t.going = some ⟨x.nextLabel + 1⟩)
    (bound : x.cycle.isBound .sampleHit = true) (passes : ¬ x.tracking.gate.Skips L)
    (miss : s.memory.get σ .sampleHit = .int 0)
    (kept : t.memory.get σ .duration = s.memory.get σ .duration)
    (noted : notes (σ.slot .duration) t.history = notes (σ.slot .duration) s.history)
  | measured {c : ProbeCall} {v : Int64} {es : History} (going : t.going = none)
    (entered : x.cycle.Entered) (passes : ¬ x.tracking.gate.Skips L)
    (timed : x.tracking.timed = true)
    (unmeasured : x.cycle.measured = false) (marked : .measured ∈ x.testSteps tag)
    (hit : x.cycle.isBound .sampleHit = true → s.memory.get σ .sampleHit ≠ .int 0)
    (call : c = if x.tracking.isSampled then .getEndTs else .nanoTime)
    (measures : x.Measures σ c s t v es)

variable {x} in
/-- In an entered cycle a test does the same at every level with the same decision. -/
theorem TestEffect.run (hx : x.cycle.Coherent x.tracking) {tag : Bool} {L L' : Int32}
    {s t : Machine} (h : x.TestEffect σ tag L s t)
    (hL : x.cycle.Entered → (x.tracking.gate.Skips L ↔ x.tracking.gate.Skips L')) :
    x.TestRun σ tag L' s t := by
  cases h with
  | rests going quiet idle hit =>
    have hz : Zeroes σ [] s t := ⟨by simp, by rw [if_pos rfl, quiet.duration]⟩
    refine .rest going hz quiet.notes (fun hs => .inl ?_) (absurd rfl) fun hb hL' =>
      hit hb (mt (hL (.inr hb)).1 hL')
    have hdue := due_of_store_duration hs
    rcases (idle hdue).2 with hb | hb
    · exact hx.duration (.inr hb) hdue.1
    · exact hb.2
  | leaves going quiet bound passes miss =>
    exact .left going bound (mt (hL (.inr bound)).2 passes) miss quiet.duration quiet.notes
  | zeroes going _ due unbound _ zeroes stored noted =>
    refine .rest going zeroes noted (fun _ => .inr stored) (fun _ => due.2.2) fun hb => ?_
    simp [unbound] at hb
  | measures going _ due passes entered _ hit call measures =>
    exact .measured going (.inl entered) (mt (hL (.inl entered)).2 passes) due.1 due.2.2
      (measured_mem_testSteps.2 due) hit call measures

theorem exists_test_run (hx : x.cycle.Coherent x.tracking) (tag : Bool) {L : Int32} {s : Machine}
    (hs : s.going = none) (hd : x.cycle.Entered → x.Decided σ s.memory L) :
    ∃ t, exec w (written σ (x.testSteps tag)) s = some t ∧ x.Keeps σ s t ∧
      x.TestRun σ tag L s t := by
  obtain ⟨t, ht, ⟨L', hj, -, heffect⟩ | ⟨-, heffect⟩⟩ :=
    x.exists_test_effect (w := w) (σ := σ) hx tag hs
  · refine ⟨t, ht, heffect.keeps, heffect.run hx fun he => ?_⟩
    exact (hd he).skips_iff fun _ => hj.bound
  · exact ⟨t, ht, (heffect L).keeps, (heffect L).run hx fun _ => Iff.rfl⟩

end

end Context

end MethodProbes
