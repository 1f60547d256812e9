import MethodProbes.Proofs.Cycles.EntryCalls

/-!
# What duration markers push

The slot of the duration survives a reset.  A duration marker pushes what its own cycle has
measured, or zero, unless it loads a slot that was stored last in an earlier cycle.
-/
namespace MethodProbes

open Step Machine History

def Insn.storesIn (d : Slot) : Insn → Bool
  | store .long s => s == d
  | _ => false

theorem Insn.tells_of_storesIn {i : Insn} {d : Slot} (h : i.storesIn d = true) :
    i.tells d = true := by
  cases i with
  | store ty s =>
    cases ty with
    | long => exact h
    | int | bool => cases h
  | _ => cases h

namespace History

variable {d : Slot} {g h ns : History}

/-- The latest entry with a property is found among the new notes or else in the old history. -/
theorem find?_of_notes (hn : notes d g = ns ++ notes d h) {P : Entry → Bool}
    (hP : ∀ e, P e = true → e.insn.tells d = true) :
    g.find? P = (ns.find? P).or (h.find? P) := by
  rw [← List.head?_filter, filter_of_notes hn hP, List.head?_append, List.head?_filter,
    List.head?_filter]

end History

namespace ProbedMethod

variable (M : ProbedMethod)

def InCycle (k : Nat) (e : Entry) : Prop := (M.site? e.index).map Site.cycle = some k

/-- A test of cycle `k` has subtracted the time of entry. -/
def isMeasure (k : Nat) (e : Entry) : Bool := M.isAt .test k e && e.insn == .sub .long

/-- What a duration marker of cycle `k` is expected to push: the latest measurement of its cycle, or
zero without one. -/
def expected (k : Nat) (h : History) : List Const :=
  (h.find? (M.isMeasure k)).elim [.long 0] (·.pushed)

/-- A duration marker of cycle `k` loads a slot that an earlier cycle has stored a measurement in,
and this cycle has stored nothing. -/
def Stale (k : Nat) (h : History) (e : Entry) : Prop :=
  ∃ d c, e.insn = .load .long d ∧ h.find? (·.insn.storesIn d) = some c ∧ ¬ M.InCycle k c ∧
    c.popped ≠ [.long 0]

/-- The slot holds what was stored last: what this cycle has measured or zero, unless this cycle has
stored and measured nothing. -/
def Latest (k : Nat) (d : Slot) (s : Machine) : Prop :=
  ∃ c, s.history.find? (·.insn.storesIn d) = some c ∧ c.popped = [s.memory.read .long d] ∧
    (M.InCycle k c → M.expected k s.history = c.popped) ∧
    (¬ M.InCycle k c → s.history.find? (M.isMeasure k) = none)

def Reports (h : History) (e : Entry) : Prop :=
  ∀ i k, M.site? e.index = some ⟨i, .duration, k⟩ →
    (e.pushed = M.expected k h ↔ ¬ M.Stale k h e)

variable {M} {k : Nat} {e : Entry}

theorem isMeasure_iff :
    M.isMeasure k e = true ↔ M.isAt .test k e = true ∧ e.insn = .sub .long := by
  rw [isMeasure, Bool.and_eq_true, beq_iff_eq]

theorem tells_of_isMeasure {d : Slot} (h : M.isMeasure k e = true) : e.insn.tells d = true := by
  rw [(isMeasure_iff.1 h).2]
  rfl

end ProbedMethod

structure Point.Dated (M : ProbedMethod) (p : Point) : Prop where
  unmeasured : p.cycle.measured = false →
    p.machine.history.find? (M.isMeasure p.round) = none
  latest : ∀ d, p.cycle.slot? .duration = some d → M.Latest p.round d p.machine
  away : p.machine.going ≠ none → M.tracking.timed = true → p.cycle.isBound .duration = true

namespace ProbedMethod

variable {M : ProbedMethod} {w : World} {x : Context} {σ : Layout} {m : Marker} {i k : Nat}
  {s t : Machine}

/-- A visit notes no measurement, and of the duration it stores zeroes only. -/
structure Neutral (x : Context) (σ : Layout) (m : Marker) (s t : Machine) (ns : History) :
    Prop where
  noted : notes (σ.slot .duration) t.history = ns ++ notes (σ.slot .duration) s.history
  no_sub : ∀ e ∈ ns, e.insn ≠ .sub .long
  zero : ∀ e ∈ ns, e.insn.storesIn (σ.slot .duration) = true → e.popped = [.long 0]
  value : t.memory.get σ .duration =
    if ns.any (·.insn.storesIn (σ.slot .duration)) then .long 0 else s.memory.get σ .duration
  defined : .store .duration ∈ x.steps m → x.cycle.isBound .duration = true ∨
    ns.any (·.insn.storesIn (σ.slot .duration)) = true
  unmeasured : ns.any (·.insn.storesIn (σ.slot .duration)) = true → x.cycle.measured = false

theorem Neutral.of_silent
    (noted : notes (σ.slot .duration) t.history = notes (σ.slot .duration) s.history)
    (value : t.memory.get σ .duration = s.memory.get σ .duration)
    (defined : .store .duration ∈ x.steps m → x.cycle.isBound .duration = true) :
    Neutral x σ m s t [] :=
  ⟨noted, nofun, nofun, value, fun h => .inl (defined h), nofun⟩

theorem any_storesIn {zs : History} (hz : Context.Zeroes σ zs s t) :
    zs.any (·.insn.storesIn (σ.slot .duration)) = true ↔ zs ≠ [] := by
  cases zs with
  | nil => simp
  | cons e zs => simp [hz.store e List.mem_cons_self, Insn.storesIn]

theorem Neutral.of_zeroes {zs cs : History} (hz : Context.Zeroes σ zs s t)
    (hc : ∀ e ∈ cs, e.insn.isCall = true)
    (noted : notes (σ.slot .duration) t.history = cs ++ zs ++ notes (σ.slot .duration) s.history)
    (defined : .store .duration ∈ x.steps m → x.cycle.isBound .duration = true ∨ zs ≠ [])
    (unmeasured : zs ≠ [] → x.cycle.measured = false) : Neutral x σ m s t (cs ++ zs) := by
  have hcall {e : Entry} (he : e ∈ cs) : ∃ f, e.insn = .invoke f := by
    have hi := hc e he
    cases hins : e.insn with
    | invoke f => exact ⟨f, rfl⟩
    | _ =>
      rw [hins] at hi
      cases hi
  have hany : (cs ++ zs).any (·.insn.storesIn (σ.slot .duration)) = true ↔ zs ≠ [] := by
    rw [List.any_append, ← any_storesIn hz, Bool.or_eq_true, or_iff_right]
    rw [List.any_eq_true]
    rintro ⟨e, he, hs⟩
    obtain ⟨f, hf⟩ := hcall he
    rw [hf] at hs
    cases hs
  refine ⟨noted, fun e he => ?_, fun e he hs => ?_, ?_, fun h => ?_, fun h => unmeasured (hany.1 h)⟩
  · rcases List.mem_append.1 he with he | he
    · obtain ⟨f, hf⟩ := hcall he
      simp [hf]
    · simp [(hz.store e he).1]
  · rcases List.mem_append.1 he with he | he
    · obtain ⟨f, hf⟩ := hcall he
      rw [hf] at hs
      cases hs
    · exact (hz.store e he).2
  · rw [hz.value]
    by_cases hnil : zs = []
    · rw [if_pos hnil, if_neg fun h => hany.1 h hnil]
    · rw [if_neg hnil, if_pos (hany.2 hnil)]
  · exact (defined h).imp id hany.2

namespace Visit

theorem eq_of_reset (h : M.Visit w x σ m i k s t) (hm : m.kind = .reset) : t = s := by
  have hrun := h.run
  rw [Context.steps, hm] at hrun
  exact (Option.some.inj hrun).symm

theorem timed_of_store (hT : M.tracking.Sound) (h : M.Visit w x σ m i k s t)
    (hp : (x.before i k s).Sound M) (hs : .store .duration ∈ x.steps m) :
    M.tracking.timed = true := by
  have hr : .reset ∉ x.steps m := fun hr => by
    have hm : m.kind = .reset := Decidable.byContradiction fun hm => reset_notMem hm hr
    rw [Context.steps, hm] at hs
    simp at hs
  exact (h.sound hT hp).coherent.timed_of_duration ((isBound_afterAll σ hr _ _).2 (.inl hs))

theorem neutral_or_measures (hT : M.tracking.Sound) (h : M.Visit w x σ m i k s t)
    (hp : (x.before i k s).Sound M) (hd : (x.before i k s).Dated M) :
    (∃ ns, Neutral x σ m s t ns) ∨ m.kind = .test ∧ .measured ∈ x.steps m ∧
      ∃ c v es, x.Measures σ c s t v es := by
  have hx : x.cycle.Coherent x.tracking := h.tracking ▸ hp.coherent
  have htimed (hs : .store .duration ∈ x.steps m) : x.tracking.timed = true :=
    h.tracking ▸ h.timed_of_store hT hp hs
  have hother (hm : m.kind ≠ .entry) (hm' : m.kind ≠ .test) : .store .duration ∉ x.steps m :=
    fun hs => hm' (Context.store_mem_steps hm hs).1
  cases h.outcome with
  | passes going _ _ memory history =>
    refine .inl ⟨[], .of_silent (by rw [history]) (by rw [memory]) fun hs => ?_⟩
    exact hd.away (ne_of_eq_of_ne going (Option.some_ne_none _)) (h.timed_of_store hT hp hs)
  | arrives kind _ _ _ alike =>
    exact .inl ⟨[], .of_silent alike.notes (by rw [alike.memory])
      fun hs => absurd hs (hother (by simp [kind]) (by simp [kind]))⟩
  | @enters L zs _ _ _ enters =>
    have hdefined (hs : .store .duration ∈ x.steps m) :
        x.cycle.isBound .duration = true ∨ zs ≠ [] := by
      cases hb : x.cycle.isBound .duration with
      | true => exact .inl rfl
      | false => exact .inr (enters.defined.2 ⟨htimed hs, hb⟩)
    have hmeasured (hz : zs ≠ []) : x.cycle.measured = false :=
      Bool.eq_false_iff.2 fun hm => by simpa [hx.measured hm] using enters.defined.1 hz
    cases enters.run with
    | skipped _ _ noted =>
      exact .inl ⟨[] ++ zs, .of_zeroes enters.zeroes nofun noted hdefined hmeasured⟩
    | @called e _ _ _ insn _ _ _ _ _ noted =>
      exact .inl ⟨[e] ++ zs, .of_zeroes enters.zeroes (by simp [insn, Insn.isCall]) noted hdefined
        hmeasured⟩
  | tests kind going run =>
    have hsteps : x.steps m = x.testSteps (m.hasTag .timed) := by rw [Context.steps, kind]
    obtain ⟨L, hL⟩ := x.exists_decided hx σ s.memory
    cases (run L hL).2 with
    | @rest zs _ zeroes noted defined unmeasured =>
      exact .inl ⟨[] ++ zs, .of_zeroes zeroes nofun noted (hsteps ▸ defined) unmeasured⟩
    | left _ bound _ _ kept noted =>
      exact .inl ⟨[], .of_silent noted kept fun hs => hx.duration (.inr bound) (htimed hs)⟩
    | measured _ _ _ _ _ marked _ _ measures =>
      exact .inr ⟨kind, hsteps ▸ marked, _, _, _, measures⟩
  | exits kind _ _ run =>
    have hno := hother (by simp [kind]) (by simp [kind])
    cases run with
    | silent alike =>
      exact .inl ⟨[], .of_silent alike.notes (by rw [alike.memory]) fun hs => absurd hs hno⟩
    | @told e _ _ _ insn _ memory noted =>
      have hz : Context.Zeroes σ [] s t := ⟨nofun, by rw [memory, if_pos rfl]⟩
      exact .inl ⟨[e] ++ [], .of_zeroes hz (by simp [insn, Insn.isCall]) noted
        (fun hs => absurd hs hno) (absurd rfl)⟩
  | pushes kind _ _ memory history =>
    refine .inl ⟨[], .of_silent ?_ (by rw [memory])
      fun hs => absurd hs (hother (by simp [kind]) (by simp [kind]))⟩
    rw [history, notes_cons_of_not_tells]
    rw [Context.durationInsn]
    split <;> rfl
  | rests kind _ _ alike =>
    refine .inl ⟨[], .of_silent alike.notes (by rw [alike.memory]) fun hs => ?_⟩
    rcases kind with ⟨hm, hnil⟩ | hm | hm
    · rw [Context.steps, hm] at hs
      simp [hnil] at hs
    · exact absurd hs (hother (by simp [hm]) (by simp [hm]))
    · exact absurd hs (hother (by simp [hm]) (by simp [hm]))

theorem slot_duration (h : M.Visit w x σ m i k s t) (hm : m.kind ≠ .reset) {d : Slot}
    (hd : (x.behind σ m i k t).cycle.slot? .duration = some d) : σ.slot .duration = d :=
  h.fits_behind hm _ _ hd

theorem find?_measure_of_neutral {ns : History} (hn : Neutral x σ m s t ns) (j : Nat) :
    t.history.find? (M.isMeasure j) = s.history.find? (M.isMeasure j) := by
  have hnone : ns.find? (M.isMeasure j) = none := List.find?_eq_none.2 fun e he hm =>
    hn.no_sub e he (isMeasure_iff.1 hm).2
  rw [find?_of_notes hn.noted fun _ => tells_of_isMeasure, hnone, Option.none_or]

/-- Behind a neutral visit the slot holds what it held, or the zero that was stored. -/
theorem latest_of_neutral (h : M.Visit w x σ m i k s t)
    (hd : (x.before i k s).Dated M) (hm : m.kind ≠ .reset) {ns : History}
    (hn : Neutral x σ m s t ns) {d : Slot}
    (hslot : (x.behind σ m i k t).cycle.slot? .duration = some d) :
    M.Latest k d t := by
  obtain rfl := h.slot_duration hm hslot
  have hsame := find?_measure_of_neutral (M := M) hn k
  have hvalue : t.memory.read .long (σ.slot .duration) = _ := hn.value
  have hfind := find?_of_notes hn.noted fun e =>
    Insn.tells_of_storesIn (i := e.insn) (d := σ.slot .duration)
  rw [Latest, expected, hsame, hfind, hvalue]
  cases hany : ns.any (·.insn.storesIn (σ.slot .duration)) with
  | true =>
    obtain ⟨c, hc⟩ := Option.isSome_iff_exists.1 (List.find?_isSome.2 (List.any_eq_true.1 hany))
    have hmem := List.mem_of_find?_eq_some hc
    have hcycle : M.InCycle k c := by
      rw [InCycle, (h.site_noted hn.noted c hmem).2]
      rfl
    have hzero : c.popped = [.long 0] := hn.zero c hmem (by simpa using List.find?_some hc)
    have hnone : s.history.find? (M.isMeasure k) = none := hd.unmeasured (hn.unmeasured hany)
    refine ⟨c, by rw [hc, Option.some_or], by rw [hzero, if_pos rfl], fun _ => ?_,
      fun hno => absurd hcycle hno⟩
    rw [hnone, hzero]
    rfl
  | false =>
    have hnone : ns.find? (·.insn.storesIn (σ.slot .duration)) = none :=
      List.find?_eq_none.2 (List.any_eq_false.1 hany)
    have hbound : x.cycle.slot? .duration = some (σ.slot .duration) := by
      have hslot : (afterAll σ x.cycle (x.steps m)).slot? .duration = _ := hslot
      rw [slot?_afterAll σ (reset_notMem hm)] at hslot
      split at hslot
      next hs =>
        have hb : x.cycle.isBound .duration = true :=
          (hn.defined hs).resolve_right (by simp [hany])
        obtain ⟨r, hr⟩ := Option.isSome_iff_exists.1 hb
        have hr' : x.cycle.slot? .duration = some r := hr
        rw [h.fits _ _ hr', hr']
      next => exact hslot
    rw [hnone, Option.none_or]
    exact hd.latest _ hbound

theorem latest_of_measures (h : M.Visit w x σ m i k s t) (hm : m.kind = .test) {c : ProbeCall}
    {v : Int64} {es : History} (hms : x.Measures σ c s t v es) {d : Slot}
    (hslot : (x.behind σ m i k t).cycle.slot? .duration = some d) :
    M.Latest k d t := by
  obtain rfl := h.slot_duration (by simp [hm]) hslot
  obtain ⟨st, sub, call, ts, now, rfl, hst, hpop, hsub, -, hpush, -, -⟩ := hms.entries
  have hvalue : t.memory.read .long (σ.slot .duration) = .long v := hms.value
  have hsite := h.site_noted hms.noted
  simp only [List.mem_cons, List.not_mem_nil, or_false, forall_eq_or_imp, forall_eq] at hsite
  have hcycle : M.InCycle k st := by
    rw [InCycle, hsite.1.2]
    rfl
  refine ⟨st, ?_, by rw [hpop, hvalue], fun _ => ?_, fun hno => absurd hcycle hno⟩
  · rw [find?_of_notes hms.noted fun e =>
      Insn.tells_of_storesIn (i := e.insn) (d := σ.slot .duration)]
    simp [hst, Insn.storesIn]
  · have hmeasure : M.isMeasure k sub = true :=
      isMeasure_iff.2 ⟨isAt_iff.2 ⟨i, hm ▸ hsite.2.1.2⟩, hsub⟩
    have hno : M.isMeasure k st = false := Bool.eq_false_iff.2 fun h => by
      simp [(isMeasure_iff.1 h).2] at hst
    rw [expected, find?_of_notes hms.noted fun _ => tells_of_isMeasure]
    simp [hno, hmeasure, hpush, hpop]

/-- A reset keeps the slot, and the new cycle has stored and measured nothing. -/
theorem dated_of_reset (hp : (x.before i k s).Sound M) (hd : (x.before i k s).Dated M)
    (hm : m.kind = .reset) : (x.behind σ m i k s).Dated M := by
  have hcycle : (x.behind σ m i k s).cycle = x.cycle.reset := by
    rw [Context.behind, Context.steps, hm]
    rfl
  have hround : (x.behind σ m i k s).round = k + 1 := if_pos hm
  have hlater (e : Entry) (he : e ∈ s.history) : ¬ M.InCycle (k + 1) e := fun hin => by
    obtain ⟨r, hr, -, hle⟩ := hp.past e he
    rw [InCycle, hr] at hin
    have hcycle : r.cycle = k + 1 := Option.some.inj hin
    have hle : r.cycle ≤ k := hle
    omega
  have hnone : s.history.find? (M.isMeasure (k + 1)) = none :=
    List.find?_eq_none.2 fun e he hmeasure => by
      obtain ⟨j, hj⟩ := isAt_iff.1 (isMeasure_iff.1 hmeasure).1
      exact hlater e he (by rw [InCycle, hj]; rfl)
  refine ⟨fun _ => hround ▸ hnone, fun d hslot => ?_, fun hgo ht => ?_⟩
  · rw [hcycle, Cycle.slot?_reset, if_pos rfl] at hslot
    rw [hround]
    obtain ⟨c, hc, hpop, -⟩ := hd.latest d hslot
    exact ⟨c, hc, hpop, fun hin => absurd hin (hlater c (List.mem_of_find?_eq_some hc)),
      fun _ => hnone⟩
  · rw [hcycle, Cycle.isBound, Cycle.slot?_reset, if_pos rfl]
    exact hd.away hgo ht

/-- On its way to an else target a timed method has stored the duration before. -/
theorem away_bound (h : M.Visit w x σ m i k s t) (hp : (x.before i k s).Sound M)
    (hd : (x.before i k s).Dated M) (hgo : t.going ≠ none) (ht : M.tracking.timed = true) :
    x.cycle.isBound .duration = true := by
  cases h.outcome with
  | passes going => exact hd.away (ne_of_eq_of_ne going (Option.some_ne_none _)) ht
  | tests kind going run =>
    obtain ⟨L, hL⟩ := x.exists_decided (h.tracking ▸ hp.coherent) σ s.memory
    cases (run L hL).2 with
    | left _ bound => exact hp.coherent.duration (.inr bound) ht
    | rest here => exact absurd here hgo
    | measured here => exact absurd here hgo
  | arrives _ _ _ here => exact absurd here hgo
  | enters _ _ here => exact absurd here hgo
  | exits _ _ here => exact absurd here hgo
  | pushes _ _ here => exact absurd here hgo
  | rests _ _ here => exact absurd here hgo

theorem dated (hT : M.tracking.Sound) (h : M.Visit w x σ m i k s t)
    (hp : (x.before i k s).Sound M) (hd : (x.before i k s).Dated M) :
    (x.behind σ m i k t).Dated M := by
  by_cases hm : m.kind = .reset
  · obtain rfl := h.eq_of_reset hm
    exact dated_of_reset hp hd hm
  have hround : (x.behind σ m i k t).round = k := if_neg hm
  have hmeasured : (x.behind σ m i k t).cycle.measured = true ↔
      .measured ∈ x.steps m ∨ x.cycle.measured = true :=
    measured_afterAll σ (reset_notMem hm) _
  have haway (hgo : t.going ≠ none) (ht : M.tracking.timed = true) :
      (x.behind σ m i k t).cycle.isBound .duration = true :=
    isBound_behind hm (h.away_bound hp hd hgo ht)
  rcases h.neutral_or_measures hT hp hd with ⟨ns, hn⟩ | ⟨hkind, hmark, c, v, es, hms⟩
  · refine ⟨fun hfalse => ?_, fun d hslot => ?_, haway⟩
    · have hbefore : x.cycle.measured = false :=
        Bool.eq_false_iff.2 fun hb => Bool.eq_false_iff.1 hfalse (hmeasured.2 (.inr hb))
      rw [hround]
      exact (find?_measure_of_neutral hn k).trans (hd.unmeasured hbefore)
    · rw [hround]
      exact h.latest_of_neutral hd hm hn hslot
  · refine ⟨fun hfalse => ?_, fun d hslot => ?_, haway⟩
    · exact absurd (hmeasured.2 (.inl hmark)) (Bool.eq_false_iff.1 hfalse)
    · rw [hround]
      exact h.latest_of_measures hkind hms hslot

theorem reports_of_pushes (h : M.Visit w x σ m i k s t) (hp : (x.before i k s).Sound M)
    (hd : (x.before i k s).Dated M) {v : Const}
    (hv : v = if x.cycle.measured && x.cycle.isBound .duration then s.memory.get σ .duration
      else .long 0) {e : Entry} (hsite : M.site? e.index = some ⟨i, .duration, k⟩)
    (hins : e.insn = x.durationInsn σ) (hpush : e.pushed = [v]) : M.Reports s.history e := by
  intro j k' hsite'
  cases hsite.symm.trans hsite'
  rw [Context.durationInsn] at hins
  cases hb : x.cycle.measured && x.cycle.isBound .duration with
  | true =>
    rw [hb, if_pos rfl] at hv hins
    obtain ⟨d, hd'⟩ := Option.isSome_iff_exists.1 (Bool.and_eq_true_iff.1 hb).2
    have hslot : x.cycle.slot? .duration = some d := hd'
    obtain rfl := h.fits _ _ hslot
    obtain ⟨c, hc, hpop, hin, hout⟩ := hd.latest _ hslot
    have hpop : c.popped = [v] := hv ▸ hpop
    rw [hpush]
    by_cases hcycle : M.InCycle k c
    · have hexpected : M.expected k s.history = [v] := (hin hcycle).trans hpop
      apply iff_of_true hexpected.symm
      rintro ⟨d, c', hd, hc', hno, -⟩
      cases hins.symm.trans hd
      cases hc.symm.trans hc'
      exact hno hcycle
    · have hnone : s.history.find? (M.isMeasure k) = none := hout hcycle
      have hexpected : M.expected k s.history = [.long 0] := by
        rw [expected, hnone]
        rfl
      rw [hexpected, ← hpop]
      constructor
      · rintro hzero ⟨d, c', hd, hc', -, hne⟩
        cases hins.symm.trans hd
        cases hc.symm.trans hc'
        exact hne hzero
      · intro hfresh
        by_contra hne
        exact hfresh ⟨_, c, hins, hc, hcycle, hne⟩
  | false =>
    rw [hb] at hv hins
    have hmeasured : x.cycle.measured = false := Bool.eq_false_iff.2 fun hm => by
      have hbound : x.cycle.isBound .duration = true := hp.coherent.measured hm
      simp [hm, hbound] at hb
    have hnone : s.history.find? (M.isMeasure k) = none := hd.unmeasured hmeasured
    refine iff_of_true ?_ ?_
    · rw [hpush, expected, hnone, hv]
      rfl
    · rintro ⟨d, c, hload, -⟩
      cases hins.symm.trans hload

theorem reports (h : M.Visit w x σ m i k s t) (hp : (x.before i k s).Sound M)
    (hd : (x.before i k s).Dated M) (hs : s.history.Throughout M.Reports) :
    t.history.Throughout M.Reports := by
  by_cases hm : m.kind = .duration
  · cases h.outcome with
    | passes _ _ _ _ history => exact history ▸ hs
    | pushes _ _ _ _ history value =>
      obtain ⟨es, hes, hsite⟩ := h.exists_history
      have hnew : [_] = es :=
        List.append_cancel_right ((List.singleton_append.trans history.symm).trans hes)
      rw [history]
      refine hs.cons (h.reports_of_pushes hp hd value ?_ rfl rfl)
      exact hm ▸ hsite _ (hnew ▸ List.mem_singleton_self _)
    | arrives kind => simp [hm] at kind
    | enters kind => simp [hm] at kind
    | tests kind => simp [hm] at kind
    | exits kind => simp [hm] at kind
    | rests kind => simp [hm] at kind
  · obtain ⟨es, hes, hsite⟩ := h.exists_history
    rw [hes]
    apply hs.append
    intro e he pre j k' hsite'
    exact absurd (congrArg Site.kind (Option.some.inj ((hsite e he).symm.trans hsite'))) hm

end Visit

end ProbedMethod

theorem Point.dated_start (M : ProbedMethod) (m : Memory) : (start m).Dated M :=
  ⟨fun _ => rfl, nofun, fun h => absurd rfl h⟩

namespace Body

variable {b : Body} {settings : Settings} {firstSlot : UInt16} {M : ProbedMethod} {w : World}
  {m : Memory} {s : Machine} {e : Entry} {pre : History} {i k : Nat}

/-- In every run of a method, a duration marker pushes the latest measurement of its cycle, or zero
without one, except when it loads a slot that only an earlier cycle has stored a measurement in. -/
theorem duration_expected_iff (h : (b.attempt settings firstSlot).result = .ok M)
    (hr : Reaches M.code.toList w (start m) s) (he : e :: pre <:+ s.history)
    (hsite : M.site? e.index = some ⟨i, .duration, k⟩) :
    e.pushed = M.expected k pre ↔ ¬ M.Stale k pre e := by
  have hT := (exists_route h).1
  obtain ⟨q, -, hI, -, hsuffix, -⟩ := exists_point h (w := w) (m := m)
    (I := fun p _ => p.Dated M ∧ p.machine.history.Throughout M.Reports)
    (fun x σ m ms i k s t hv hp hI => ⟨hv.dated hT hp hI.1, hv.reports hp hI.1 hI.2⟩)
    ⟨Point.dated_start M m, throughout_nil _⟩ hr
  exact hI.2 e pre (he.trans hsuffix) i k hsite

/-- A level in the first cycle and none in the second. -/
theorem duration_expected_iff_twoCycles :
    let entry := (Marker.ofKind .entry).withFlag "timed"
    let test := (Marker.ofKind .test).withFlag "timed"
    let b : Body := ⟨"m", 7, [entry.withTag "level" "[1,3]", test, .ofKind .duration,
      .ofKind .reset, entry, test, .ofKind .duration]⟩
    let w : World := ⟨fun h => if h.length < 20 then 2 else 5, fun _ => 0, fun h => .ofNat h.length⟩
    ∃ M s e pre, (b.attempt {} 0).result = .ok M ∧
      Reaches M.code.toList w (start fun _ => 0) s ∧ e :: pre <:+ s.history ∧
        M.site? e.index = some ⟨6, .duration, 1⟩ ∧ M.Stale 1 pre e := by
  intro entry test b w
  obtain ⟨M, s, hM, hr, -, hP⟩ := exists_of_runsTo (b := b) (w := w)
    (P := fun M s => s.history.head?.any fun e => M.site? e.index = some ⟨6, .duration, 1⟩ ∧
      e.pushed ≠ M.expected 1 s.history.tail) (by decide)
  obtain ⟨e, he, hP⟩ := (Option.any_eq_true _ _).1 hP
  obtain ⟨hsite, hne⟩ := of_decide_eq_true hP
  have hsuffix : e :: s.history.tail <:+ s.history := ⟨[], List.cons_head?_tail he⟩
  refine ⟨M, s, e, s.history.tail, hM, hr, hsuffix, hsite, ?_⟩
  by_contra hfresh
  exact hne ((duration_expected_iff hM hr hsuffix hsite).2 hfresh)

/-- The gate skips the entry and the test of the second cycle, and the duration marker still pushes
what the first cycle has measured. -/
theorem duration_of_earlier_cycle :
    let entry := (Marker.ofKind .entry).withFlag "timed"
    let test := (Marker.ofKind .test).withFlag "timed"
    let b : Body := ⟨"m", 7, [entry.withTag "level" "[1,3]", test, .ofKind .reset, entry, test,
      .ofKind .duration]⟩
    let w : World := ⟨fun h => if h.length < 20 then 2 else 5, fun _ => 0, fun h => .ofNat h.length⟩
    ∃ M s e pre, (b.attempt {} 0).result = .ok M ∧
      Reaches M.code.toList w (start fun _ => 0) s ∧ e :: pre <:+ s.history ∧
        M.site? e.index = some ⟨5, .duration, 1⟩ ∧ M.expected 1 pre = [.long 0] ∧
          e.pushed = [.long 13] := by
  intro entry test b w
  obtain ⟨M, s, hM, hr, -, hP⟩ := exists_of_runsTo (b := b) (w := w)
    (P := fun M s => s.history.head?.any fun e => M.site? e.index = some ⟨5, .duration, 1⟩ ∧
      M.expected 1 s.history.tail = [.long 0] ∧ e.pushed = [.long 13]) (by decide)
  obtain ⟨e, he, hP⟩ := (Option.any_eq_true _ _).1 hP
  have hsuffix : e :: s.history.tail <:+ s.history := ⟨[], List.cons_head?_tail he⟩
  exact ⟨M, s, e, s.history.tail, hM, hr, hsuffix, of_decide_eq_true hP⟩

end Body

end MethodProbes
