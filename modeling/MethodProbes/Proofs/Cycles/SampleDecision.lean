import MethodProbes.Proofs.Cycles.EntryCalls
import MethodProbes.Proofs.Machine.Leaps

/-!
# Tests and exits follow the sample decision

The call of a cycle answers a flag, or a time of which the low 32 bits serve as the flag.  Tests
leave for their else target if the flag is zero, and exits tell the adaptive sampler if it is not.
-/
namespace MethodProbes

open Step Machine History

namespace ProbedMethod

variable (M : ProbedMethod)

def executed (j : Nat) (h : History) : History :=
  h.filter fun e => (M.site? e.index).map Site.marker = some j

/-- A jump has left the marker for a label that the marker does not place.  The only such label of a
test is its else target. -/
def Leaves (j : Nat) (h : History) : Prop :=
  ∃ e ∈ M.executed j h, ∃ l code, e.insn.leap? e.popped = some l ∧ M.segment? j = some code ∧
    .label l ∉ code

def Calls (j : Nat) (c : ProbeCall) (h : History) : Prop :=
  ∃ e ∈ M.executed j h, e.insn = .invoke c.callee

/-- A test leaves if the flag of the result is zero, and an exit tells the adaptive sampler if it is
not. -/
structure Follows (j : Nat) (r : Const) (h : History) : Prop where
  test : M.kind? j = some .test → M.executed j h ≠ [] → (M.Leaves j h ↔ r.flag = .int 0)
  exit : M.kind? j = some .exit → M.tracking.sampler = some .adaptive →
    (M.Calls j .updateEndTs h ↔ r.flag ≠ .int 0)

variable {M} {j : Nat} {r : Const} {g h : History}

theorem Follows.congr (hf : M.Follows j r h) (he : M.executed j g = M.executed j h) :
    M.Follows j r g := by
  refine ⟨fun hk hx => ?_, fun hk hs => ?_⟩
  · rw [Leaves, he]
    exact hf.test hk (he ▸ hx)
  · rw [Calls, he]
    exact hf.exit hk hs

end ProbedMethod

structure Point.Followed (M : ProbedMethod) (p : Point) : Prop where
  /-- On its way to an else target, the run knows that the invocation is not sampled. -/
  going : ∀ e r, p.Called M e r → p.machine.going ≠ none → r.flag = .int 0
  past : ∀ e ∈ p.machine.history, ∀ i k, M.site? e.index = some ⟨i, .entry, k⟩ →
    e.insn.isCall = true → ∀ r, e.pushed = [r] → ∀ j, i < j → j < p.marker → M.cycleOf j = k →
      M.Follows j r p.machine.history

namespace ProbedMethod.Visit

variable {M : ProbedMethod} {w : World} {x : Context} {σ : Layout} {m : Marker} {i k : Nat}
  {s t : Machine}

/-- A visit executes all of its marker that is ever executed. -/
theorem executed_eq (h : M.Visit w x σ m i k s t) (hp : (x.before i k s).Sound M) :
    ∃ es : History, t.history = es ++ s.history ∧ M.executed i t.history = es := by
  obtain ⟨es, hes, hsite⟩ := h.exists_history
  refine ⟨es, hes, ?_⟩
  have hnew : M.executed i es = es := List.filter_eq_self.2 fun e he => by simp [hsite e he]
  have hold : M.executed i s.history = [] := List.filter_eq_nil_iff.2 fun e he => by
    obtain ⟨r, hr, hlt, -⟩ := hp.past e he
    have hne : r.marker ≠ i := Nat.ne_of_lt hlt
    simpa [hr] using hne
  rw [hes, executed, List.filter_append]
  exact (congrArg₂ (· ++ ·) hnew hold).trans (List.append_nil es)

theorem executed_of_ne (h : M.Visit w x σ m i k s t) {j : Nat} (hj : j ≠ i) :
    M.executed j t.history = M.executed j s.history := by
  obtain ⟨es, hes, hsite⟩ := h.exists_history
  have hnil : M.executed j es = [] := List.filter_eq_nil_iff.2 fun e he => by
    simpa [hsite e he] using hj.symm
  rw [hes, executed, List.filter_append]
  exact congrArg (· ++ _) hnil

theorem calls_iff (h : M.Visit w x σ m i k s t) (hp : (x.before i k s).Sound M) {d : Slot}
    {ns : History} (hn : notes d t.history = ns ++ notes d s.history) {c : ProbeCall} :
    M.Calls i c t.history ↔ ∃ e ∈ ns, e.insn = .invoke c.callee := by
  obtain ⟨es, hes, hx⟩ := h.executed_eq hp
  rw [Calls, hx, ← notes_of_append hes hn]
  constructor
  · rintro ⟨e, he, hi⟩
    exact ⟨e, mem_notes.2 ⟨he, by rw [hi]; rfl⟩, hi⟩
  · rintro ⟨e, he, hi⟩
    exact ⟨e, (mem_notes.1 he).1, hi⟩

theorem leaves_iff (h : M.Visit w x σ m i k s t) (hp : (x.before i k s).Sound M)
    (hs : s.going = none) : M.Leaves i t.history ↔ t.going ≠ none := by
  obtain ⟨es, hes, hx⟩ := h.executed_eq hp
  constructor
  · rintro ⟨e, he, l, code, hl, hcode, hno⟩
    cases hcode.symm.trans h.segment
    rw [going_of_leap h.run hes (hx ▸ he) hl hno]
    nofun
  · intro hgo
    obtain ⟨l, hl⟩ := Option.ne_none_iff_exists'.1 hgo
    obtain ⟨hno, hs' | ⟨e, he, hle⟩⟩ := exists_leap_of_going x.forward_steps h.run hes hl
    · cases hs.symm.trans hs'
    · exact ⟨e, hx ▸ he, l, _, hle, h.segment, hno⟩

theorem called_before (hp : (x.before i k s).Sound M) (ho : (x.before i k s).OneCall M)
    (hsame : ∀ j, M.entryCalls j t.history = M.entryCalls j s.history) {e : Entry} {r : Const}
    (hc : (x.behind σ m i k t).Called M e r) : (x.before i k s).Called M e r := by
  have hcalls : M.entryCalls (m.kind.nextCycle k) s.history = [e] := hsame _ ▸ hc.calls
  by_cases hm : m.kind = .reset
  · rw [hm] at hcalls
    exact absurd (hcalls.symm.trans hp.entryCalls_next) (List.cons_ne_nil e [])
  · rw [MarkerKind.nextCycle, if_neg hm] at hcalls
    have he : e ∈ M.entryCalls k s.history := hcalls ▸ List.mem_singleton_self e
    obtain ⟨r', hr'⟩ := ho.current e he
    obtain rfl : r' = r := List.singleton_inj.1 (hr'.result.symm.trans hc.result)
    exact hr'

/-- The flag and the level that the markers behind a call decide by. -/
theorem exists_decision (h : M.Visit w x σ m i k s t) (hs : M.tracking.isSampled = true)
    {e : Entry} {r : Const} (hc : (x.before i k s).Called M e r) :
    x.cycle.isBound .sampleHit = true ∧ s.memory.get σ .sampleHit = r.flag ∧
      ∃ L, ¬ x.tracking.gate.Skips L ∧ x.Decided σ s.memory L := by
  have hhit := hc.hit hs
  obtain ⟨L, hL, hlevel⟩ := hc.passes
  rw [← h.tracking] at hL
  exact ⟨hhit.isBound, hhit.get h.fits, L, hL, h.decided hlevel⟩

/-- A run leaves for an else target only if the flag is zero. -/
theorem flag_of_going (h : M.Visit w x σ m i k s t) (hs : M.tracking.isSampled = true)
    (hp : (x.before i k s).Sound M) (ho : (x.before i k s).OneCall M)
    (hf : (x.before i k s).Followed M) {e : Entry} {r : Const}
    (hc : (x.behind σ m i k t).Called M e r) (hgo : t.going ≠ none) : r.flag = .int 0 := by
  cases h.outcome with
  | passes going _ _ _ history =>
    exact hf.going e r (called_before hp ho (fun j => by rw [history]) hc)
      (ne_of_eq_of_ne going (Option.some_ne_none _))
  | tests kind going run =>
    have hc := called_before hp ho (fun j => h.entryCalls_of_ne (by simp [kind])) hc
    obtain ⟨hb, hflag, L, hL, hd⟩ := h.exists_decision hs hc
    cases (run L fun _ => hd).2 with
    | left _ _ _ miss => exact hflag.symm.trans miss
    | rest here => exact absurd here hgo
    | measured here => exact absurd here hgo
  | arrives _ _ _ here => exact absurd here hgo
  | enters _ _ here => exact absurd here hgo
  | exits _ _ here => exact absurd here hgo
  | pushes _ _ here => exact absurd here hgo
  | rests _ _ here => exact absurd here hgo

theorem follows (h : M.Visit w x σ m i k s t) (hs : M.tracking.isSampled = true)
    (hp : (x.before i k s).Sound M) (hf : (x.before i k s).Followed M) {e : Entry} {r : Const}
    (hc : (x.before i k s).Called M e r) : M.Follows i r t.history := by
  obtain ⟨hb, hflag, L, hL, hd⟩ := h.exists_decision hs hc
  obtain ⟨es, hes, hx⟩ := h.executed_eq hp
  refine ⟨fun hkind hexec => ?_, fun hkind hsampler => ?_⟩
  · have hm : m.kind = .test := Option.some.inj (h.kind.symm.trans hkind)
    cases h.outcome with
    | passes _ _ _ _ history =>
      rw [history] at hes
      exact absurd (hx.trans (List.append_left_eq_self.1 hes.symm)) hexec
    | tests _ going run =>
      rw [h.leaves_iff hp going, ← hflag]
      cases (run L fun _ => hd).2 with
      | left gone _ _ miss => simp [gone, miss]
      | rest here _ _ _ _ hit => simp [here, hit hb hL]
      | measured here _ _ _ _ _ hit => simp [here, hit hb]
    | arrives kind => simp [hm] at kind
    | enters kind => simp [hm] at kind
    | exits kind => simp [hm] at kind
    | pushes kind => simp [hm] at kind
    | rests kind => simp [hm] at kind
  · have hm : m.kind = .exit := Option.some.inj (h.kind.symm.trans hkind)
    cases h.outcome with
    | passes going _ _ _ history =>
      rw [history] at hes
      have hnil : M.executed i t.history = [] := hx.trans (List.append_left_eq_self.1 hes.symm)
      have hzero : r.flag = .int 0 := hf.going e r hc
        (ne_of_eq_of_ne going (Option.some_ne_none _))
      simp [Calls, hnil, hzero]
    | exits _ _ _ run =>
      rw [← h.tracking] at hsampler
      rw [← hflag]
      cases run with
      | silent alike miss =>
        have hnone : notes _ t.history = [] ++ notes _ s.history := alike.notes
        rw [h.calls_iff hp hnone, miss hsampler hb]
        simp
      | @told e _ _ hit insn _ _ noted =>
        have hone : notes _ t.history = [e] ++ notes _ s.history := noted
        rw [h.calls_iff hp hone]
        simp [insn, hit]
    | arrives kind => simp [hm] at kind
    | enters kind => simp [hm] at kind
    | tests kind => simp [hm] at kind
    | pushes kind => simp [hm] at kind
    | rests kind => simp [hm] at kind

theorem followed (h : M.Visit w x σ m i k s t) (hs : M.tracking.isSampled = true)
    (hp : (x.before i k s).Sound M) (ho : (x.before i k s).OneCall M)
    (hf : (x.before i k s).Followed M) : (x.behind σ m i k t).Followed M := by
  refine ⟨fun e r hc hgo => h.flag_of_going hs hp ho hf hc hgo, ?_⟩
  intro e he i' k' hsite hcall r hr j hlt hj hcycle
  have hle : j ≤ i := Nat.lt_succ_iff.1 hj
  have hold : e ∈ s.history := by
    obtain ⟨es, hes, hmem⟩ := h.exists_history
    apply (List.mem_append.1 (hes ▸ he : e ∈ es ++ s.history)).resolve_left
    intro he
    have hmarker : i = i' :=
      congrArg Site.marker (Option.some.inj ((hmem e he).symm.trans hsite))
    omega
  by_cases hji : j = i
  · subst hji
    obtain rfl : k' = k := hcycle.symm.trans h.cycle
    have hmem : e ∈ M.entryCalls k' s.history :=
      List.mem_filter.2 ⟨hold, isEntryCall_iff.2 ⟨isAt_iff.2 ⟨i', hsite⟩, hcall⟩⟩
    obtain ⟨r', hr'⟩ := ho.current e hmem
    obtain rfl : r' = r := List.singleton_inj.1 (hr'.result.symm.trans hr)
    exact h.follows hs hp hf hr'
  · have hbefore : j < i := by omega
    exact (hf.past e hold i' k' hsite hcall r hr j hlt hbefore hcycle).congr (h.executed_of_ne hji)

end ProbedMethod.Visit

theorem Point.followed_start (M : ProbedMethod) (m : Memory) : (start m).Followed M :=
  ⟨fun _ _ _ h => absurd rfl h, nofun⟩

namespace Body

variable {b : Body} {settings : Settings} {firstSlot : UInt16} {M : ProbedMethod} {w : World}
  {m : Memory} {s : Machine} {e : Entry} {i j k : Nat}

/-- In every run of a sampled method, the tests and exits behind a call follow its result. -/
theorem follows_call (h : (b.attempt settings firstSlot).result = .ok M)
    (hs : M.tracking.isSampled = true) (hr : Reaches M.code.toList w (start m) s)
    (ho : s.Over M.code.toList) (he : e ∈ s.history) (hsite : M.site? e.index = some ⟨i, .entry, k⟩)
    (hcall : e.insn.isCall = true) {r : Const} (hres : e.pushed = [r]) (hij : i < j)
    (hcycle : M.cycleOf j = k) : M.Follows j r s.history := by
  have hT := (exists_route h).1
  obtain ⟨q, -, hI, hmarker, -, hover⟩ := exists_point h (w := w) (m := m)
    (I := fun p _ => p.OneCall M ∧ p.Followed M)
    (fun x σ m ms i k s t hv hp hI => ⟨hv.oneCall hT hp hI.1, hv.followed hs hp hI.1 hI.2⟩)
    ⟨Point.oneCall_start M m, Point.followed_start M m⟩ hr
  have hq : s = q.machine := hover ho
  subst hq
  have hlast {kind : MarkerKind} (hk : M.kind? j = some kind) : j < q.marker := by
    obtain ⟨r, hr, -⟩ := Option.map_eq_some_iff.1 hk
    exact hmarker ▸ (List.getElem?_eq_some_iff.1 hr).1
  have hfollows {kind : MarkerKind} (hk : M.kind? j = some kind) :
      M.Follows j r q.machine.history :=
    hI.2.past e he i k hsite hcall r hres j hij (hlast hk) hcycle
  exact ⟨fun hk => (hfollows hk).test hk, fun hk => (hfollows hk).exit hk⟩

/-- In every run of a sampled method, what an entry's call answers as a long is taken for zero by
the tests and exits behind it if its low 32 bits are zero.  They decide by the whole long if and only
if it is zero when these bits are. -/
theorem time_decides (h : (b.attempt settings firstSlot).result = .ok M)
    (hs : M.tracking.isSampled = true) (hr : Reaches M.code.toList w (start m) s)
    (ho : s.Over M.code.toList) (he : e ∈ s.history) (hsite : M.site? e.index = some ⟨i, .entry, k⟩)
    (hcall : e.insn.isCall = true) {r : Int64} (hres : e.pushed = [.long r]) (hij : i < j)
    (hcycle : M.cycleOf j = k) :
    (M.kind? j = some .test → M.executed j s.history ≠ [] →
      (M.Leaves j s.history ↔ r.toInt32 = 0) ∧
        ((M.Leaves j s.history ↔ r = 0) ↔ (r.toInt32 = 0 → r = 0))) ∧
    (M.kind? j = some .exit → M.tracking.sampler = some .adaptive →
      (M.Calls j .updateEndTs s.history ↔ r.toInt32 ≠ 0) ∧
        ((M.Calls j .updateEndTs s.history ↔ r ≠ 0) ↔ (r.toInt32 = 0 → r = 0))) := by
  have hf := follows_call h hs hr ho he hsite hcall hres hij hcycle
  have hflag : (Const.long r).flag = .int 0 ↔ r.toInt32 = 0 := by simp [Const.flag]
  have hzero : r = 0 → r.toInt32 = 0 := fun hr => hr ▸ rfl
  refine ⟨fun hk hx => ?_, fun hk ha => ?_⟩
  · have hleaves := (hf.test hk hx).trans hflag
    exact ⟨hleaves, by rw [hleaves]; exact ⟨Iff.mp, fun h => ⟨h, hzero⟩⟩⟩
  · have hcalls := (hf.exit hk ha).trans (not_congr hflag)
    refine ⟨hcalls, ?_⟩
    rw [hcalls, Ne, not_iff_not]
    exact ⟨Iff.mp, fun h => ⟨h, hzero⟩⟩

/-- The test goes on at a time of five. -/
theorem time_decides_five :
    let entry := ((Marker.ofKind .entry).withFlag "timed").withSampler (some .adaptive)
    let b : Body := ⟨"m", 7, [entry, (Marker.ofKind .test).withFlag "timed", .ofKind .elseBranch,
      .ofKind .exit]⟩
    let w : World := ⟨fun _ => 0, fun _ => 0, fun _ => 5⟩
    ∃ M s, (b.attempt {} 0).result = .ok M ∧ Reaches M.code.toList w (start fun _ => 0) s ∧
      s.Over M.code.toList ∧ ¬ M.Leaves 1 s.history ∧ M.Calls 3 .updateEndTs s.history := by
  intro entry b w
  let c : Entry := ⟨3, .invoke ProbeCall.hitTimedAdaptive.callee, [.int 7], [.long 5]⟩
  obtain ⟨M, s, hM, hr, ho, hP⟩ := exists_of_runsTo (b := b) (w := w)
    (P := fun M s => M.tracking.isSampled = true ∧ M.tracking.sampler = some .adaptive ∧
      c ∈ s.history ∧ M.site? 3 = some ⟨0, .entry, 0⟩ ∧
      M.kind? 1 = some .test ∧ M.cycleOf 1 = 0 ∧ M.executed 1 s.history ≠ [] ∧
      M.kind? 3 = some .exit ∧ M.cycleOf 3 = 0) (by decide)
  obtain ⟨hs, ha, hc, hsite, hk, hcycle, hx, hk', hcycle'⟩ := of_decide_eq_true hP
  have htest := time_decides hM hs hr ho hc hsite rfl rfl Nat.zero_lt_one hcycle
  have hexit := time_decides hM hs hr ho hc hsite rfl rfl (j := 3) (Nat.zero_lt_succ 2) hcycle'
  exact ⟨M, s, hM, hr, ho, mt (htest.1 hk hx).1.1 (by decide), (hexit.2 hk' ha).1.2 (by decide)⟩

/-- A time whose low 32 bits are zero is taken for no sample, by the test and by the exit. -/
theorem time_of_low_bits_zero :
    let entry := ((Marker.ofKind .entry).withFlag "timed").withSampler (some .adaptive)
    let b : Body := ⟨"m", 7, [entry, (Marker.ofKind .test).withFlag "timed", .ofKind .elseBranch,
      .ofKind .exit]⟩
    let w : World := ⟨fun _ => 0, fun _ => 0, fun _ => 4294967296⟩
    ∃ M s e, (b.attempt {} 0).result = .ok M ∧ M.tracking.timed = true ∧
      M.tracking.isSampled = true ∧ M.tracking.sampler = some .adaptive ∧
      Reaches M.code.toList w (start fun _ => 0) s ∧ s.Over M.code.toList ∧ e ∈ s.history ∧
      M.site? e.index = some ⟨0, .entry, 0⟩ ∧
      e.insn = .invoke ProbeCall.hitTimedAdaptive.callee ∧ e.pushed = [.long 4294967296] ∧
      M.kind? 1 = some .test ∧ M.executed 1 s.history ≠ [] ∧ M.Leaves 1 s.history ∧
      M.kind? 3 = some .exit ∧ ¬ M.Calls 3 .updateEndTs s.history := by
  intro entry b w
  let c : Entry := ⟨3, .invoke ProbeCall.hitTimedAdaptive.callee, [.int 7], [.long 4294967296]⟩
  obtain ⟨M, s, hM, hr, ho, hP⟩ := exists_of_runsTo (b := b) (w := w)
    (P := fun M s => M.tracking.timed = true ∧ M.tracking.isSampled = true ∧
      M.tracking.sampler = some .adaptive ∧ c ∈ s.history ∧ M.site? 3 = some ⟨0, .entry, 0⟩ ∧
      M.kind? 1 = some .test ∧ M.cycleOf 1 = 0 ∧ M.executed 1 s.history ≠ [] ∧
      M.kind? 3 = some .exit ∧ M.cycleOf 3 = 0) (by decide)
  obtain ⟨ht, hs, ha, hc, hsite, hk, hcycle, hx, hk', hcycle'⟩ := of_decide_eq_true hP
  have htest := follows_call hM hs hr ho hc hsite rfl rfl Nat.zero_lt_one hcycle
  have hexit := follows_call hM hs hr ho hc hsite rfl rfl (j := 3) (Nat.zero_lt_succ 2) hcycle'
  exact ⟨M, s, c, hM, ht, hs, ha, hr, ho, hc, hsite, rfl, rfl, hk, hx, (htest.test hk hx).2 rfl,
    hk', mt (hexit.exit hk' ha).1 (not_not_intro rfl)⟩

end Body

end MethodProbes
