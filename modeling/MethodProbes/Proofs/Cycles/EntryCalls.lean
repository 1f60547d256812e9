import MethodProbes.Proofs.Run.Journey

/-!
# The call of a cycle

The entries of a cycle make at most one call.  As long as the cycle lasts, its variables hold what
the call has answered, and the level at which the gate let it pass.
-/
namespace MethodProbes

open Step Machine History

def Insn.isCall : Insn → Bool
  | invoke _ => true
  | _ => false

theorem Insn.tells_of_isCall {d : Slot} {i : Insn} (h : i.isCall = true) : i.tells d = true := by
  cases i with
  | invoke f => rfl
  | _ => cases h

namespace Cycle

def Holds (c : Cycle) (m : Memory) (v : Var) (a : Const) : Prop :=
  ∃ s, c.slot? v = some s ∧ m.read v.type s = a

variable {c : Cycle} {m : Memory} {v : Var} {a : Const} {σ : Layout}

theorem Holds.get (h : c.Holds m v a) (hσ : σ.Fits c) : m.get σ v = a := by
  obtain ⟨s, hs, ha⟩ := h
  rw [hσ.get hs, ha]

theorem Holds.isBound (h : c.Holds m v a) : c.isBound v = true := by
  obtain ⟨s, hs, -⟩ := h
  simp [Cycle.isBound, hs]

theorem holds_of_get (hσ : σ.Fits c) (hb : c.isBound v = true) (ha : m.get σ v = a) :
    c.Holds m v a := by
  obtain ⟨s, hs⟩ := Option.isSome_iff_exists.1 hb
  exact ⟨s, hs, by rw [← hσ.get hs, ha]⟩

end Cycle

namespace Layout

theorem Fits.afterAll {σ : Layout} {c : Cycle} (h : σ.Fits c) {ss : List Step}
    (hr : .reset ∉ ss) : σ.Fits (Step.afterAll σ c ss) := fun v s hs => by
  rw [slot?_afterAll σ hr] at hs
  split at hs
  · exact Option.some.inj hs
  · exact h v s hs

end Layout

namespace ProbedMethod

variable (M : ProbedMethod)

def isAt (kind : MarkerKind) (k : Nat) (e : Entry) : Bool :=
  (M.site? e.index).any fun s => s.kind == kind && s.cycle == k

def isEntryCall (k : Nat) (e : Entry) : Bool := M.isAt .entry k e && e.insn.isCall

def entryCalls (k : Nat) (h : History) : History := h.filter (M.isEntryCall k)

variable {M} {kind : MarkerKind} {k : Nat} {e : Entry} {h : History}

theorem isAt_iff : M.isAt kind k e = true ↔ ∃ i, M.site? e.index = some ⟨i, kind, k⟩ := by
  rw [isAt, Option.any_eq_true_iff_get]
  constructor
  · rintro ⟨hs, h⟩
    obtain ⟨⟨i, _, _⟩, hi⟩ := Option.isSome_iff_exists.1 hs
    simp only [hi, Option.get_some, Bool.and_eq_true, beq_iff_eq] at h
    obtain ⟨rfl, rfl⟩ := h
    exact ⟨i, hi⟩
  · rintro ⟨i, hi⟩
    simp [hi]

theorem isEntryCall_iff :
    M.isEntryCall k e = true ↔ M.isAt .entry k e = true ∧ e.insn.isCall = true :=
  Bool.and_eq_true_iff

theorem tells_of_call {d : Slot} (h : M.isEntryCall k e = true) : e.insn.tells d = true :=
  Insn.tells_of_isCall (isEntryCall_iff.1 h).2

end ProbedMethod

theorem History.filter_of_notes {d : Slot} {g h ns : History}
    (hn : notes d g = ns ++ notes d h) {P : Entry → Bool}
    (hP : ∀ e, P e = true → e.insn.tells d = true) : g.filter P = ns.filter P ++ h.filter P := by
  rw [← filter_notes hP, hn, List.filter_append, filter_notes hP]

/-- The call of the cycle, its result, and what the variables hold of it. -/
structure Point.Called (M : ProbedMethod) (p : Point) (e : Entry) (r : Const) : Prop where
  entered : p.cycle.Entered
  calls : M.entryCalls p.round p.machine.history = [e]
  insn : ∃ call, M.tracking.call? = some call ∧ e.insn = .invoke call.callee
  result : e.pushed = [r]
  passes : ∃ L, ¬ M.tracking.gate.Skips L ∧
    (M.tracking.gate.comparesLevel = true → p.cycle.Holds p.machine.memory .level (.int L))
  time : M.tracking.timed = true → p.cycle.Holds p.machine.memory .entryTs r
  hit : M.tracking.isSampled = true → p.cycle.Holds p.machine.memory .sampleHit r.flag

theorem Point.Called.mem {M : ProbedMethod} {p : Point} {e : Entry} {r : Const}
    (h : p.Called M e r) : e ∈ M.entryCalls p.round p.machine.history :=
  h.calls ▸ List.mem_singleton_self e

/-- The entry of the cycle was passed by its gate's skip, and its variables are zero. -/
structure Point.Skipped (M : ProbedMethod) (p : Point) : Prop where
  calls : M.entryCalls p.round p.machine.history = []
  level : ∃ L, M.tracking.gate.Skips L ∧
    (M.tracking.gate.comparesLevel = true → p.cycle.Holds p.machine.memory .level (.int L))
  zero : ∀ v ∈ M.tracking.entryVars, p.cycle.Holds p.machine.memory v (.zero v.type)

/-- No cycle has more than one call, and the variables of this cycle tell of its call. -/
structure Point.OneCall (M : ProbedMethod) (p : Point) : Prop where
  single : ∀ k, (M.entryCalls k p.machine.history).length ≤ 1
  current : ∀ e ∈ M.entryCalls p.round p.machine.history, ∃ r, p.Called M e r

theorem Point.Sound.entryCalls_next {M : ProbedMethod} {p : Point} (hp : p.Sound M) :
    M.entryCalls (p.round + 1) p.machine.history = [] := by
  apply List.filter_eq_nil_iff.2
  intro e he hP
  obtain ⟨i, hi⟩ := ProbedMethod.isAt_iff.1 (ProbedMethod.isEntryCall_iff.1 hP).1
  obtain ⟨r, hr, -, hle⟩ := hp.past e he
  cases hr.symm.trans hi
  dsimp only at hle
  omega

theorem Point.oneCall_start (M : ProbedMethod) (m : Memory) : (start m).OneCall M :=
  ⟨fun _ => Nat.zero_le 1, nofun⟩

namespace ProbedMethod

variable {M : ProbedMethod} {w : World} {x : Context} {σ : Layout} {m : Marker} {i k : Nat}
  {s t : Machine}

namespace Visit

theorem reset_notMem (hm : m.kind ≠ .reset) : .reset ∉ x.steps m :=
  (x.scoped_steps hm).reset_notMem

theorem fits_behind (h : M.Visit w x σ m i k s t) (hm : m.kind ≠ .reset) :
    σ.Fits (x.behind σ m i k t).cycle := h.fits.afterAll (reset_notMem hm)

theorem site_noted (h : M.Visit w x σ m i k s t) {d : Slot} {ns : History}
    (hn : notes d t.history = ns ++ notes d s.history) :
    ∀ e ∈ ns, e ∈ t.history ∧ M.site? e.index = some ⟨i, m.kind, k⟩ := by
  obtain ⟨es, hes, hsite⟩ := h.exists_history
  intro e he
  have he : e ∈ es := (mem_notes.1 ((notes_of_append hes hn).symm ▸ he)).1
  exact ⟨hes ▸ List.mem_append_left _ he, hsite e he⟩

theorem entryCalls_of_ne (h : M.Visit w x σ m i k s t) {j : Nat} (hm : m.kind = .entry → j ≠ k) :
    M.entryCalls j t.history = M.entryCalls j s.history := by
  obtain ⟨es, hes, hsite⟩ := h.exists_history
  have hnil : M.entryCalls j es = [] := by
    apply List.filter_eq_nil_iff.2
    intro e he hP
    obtain ⟨i', hi'⟩ := isAt_iff.1 (isEntryCall_iff.1 hP).1
    have hsite := Option.some.inj ((hsite e he).symm.trans hi')
    exact hm (congrArg Site.kind hsite) (congrArg Site.cycle hsite).symm
  rw [hes, entryCalls, List.filter_append]
  exact congrArg (· ++ _) hnil

theorem entryCalls_of_notes {d : Slot} (hn : notes d t.history = notes d s.history) (j : Nat) :
    M.entryCalls j t.history = M.entryCalls j s.history :=
  filter_of_notes (hn.trans (List.nil_append _).symm) fun _ => tells_of_call

theorem entryCalls_or_enters (h : M.Visit w x σ m i k s t) :
    (∀ j, M.entryCalls j t.history = M.entryCalls j s.history) ∨
      m.kind = .entry ∧ ∃ L zs, x.Enters σ s t L zs := by
  cases h.outcome with
  | passes _ _ _ _ history => exact .inl fun j => by rw [history]
  | arrives kind => exact .inl fun _ => h.entryCalls_of_ne (by simp [kind])
  | enters kind _ _ enters => exact .inr ⟨kind, _, _, enters⟩
  | tests kind => exact .inl fun _ => h.entryCalls_of_ne (by simp [kind])
  | exits kind => exact .inl fun _ => h.entryCalls_of_ne (by simp [kind])
  | pushes kind => exact .inl fun _ => h.entryCalls_of_ne (by simp [kind])
  | rests _ _ _ alike => exact .inl (entryCalls_of_notes alike.notes)

theorem entryCalls_of_entered (h : M.Visit w x σ m i k s t) (he : x.cycle.Entered) (j : Nat) :
    M.entryCalls j t.history = M.entryCalls j s.history :=
  h.entryCalls_or_enters.elim (· j) fun ⟨_, _, _, henters⟩ => absurd he henters.fresh

/-- Behind its entry a cycle keeps what the entry has left. -/
theorem get_of_entered (h : M.Visit w x σ m i k s t) (hp : (x.before i k s).Sound M)
    (he : x.cycle.Entered) {v : Var} (hv : v ≠ .duration) (hb : x.cycle.isBound v = true) :
    t.memory.get σ v = s.memory.get σ v := by
  have hcoherent : x.cycle.Coherent x.tracking := h.tracking ▸ hp.coherent
  cases h.outcome with
  | passes _ _ _ memory => rw [memory]
  | arrives _ _ _ _ alike => rw [alike.memory]
  | enters _ _ _ enters => exact absurd he enters.fresh
  | tests _ _ run =>
    obtain ⟨L, hL⟩ := x.exists_decided hcoherent σ s.memory
    obtain ⟨hkeep, -⟩ := run L hL
    cases v with
    | entryTs => exact hkeep.entryTs
    | sampleHit => exact hkeep.sampleHit
    | duration => exact absurd rfl hv
    | level => exact hkeep.level hb
  | exits _ _ _ run =>
    cases run with
    | silent alike => rw [alike.memory]
    | told _ _ _ _ _ memory => rw [memory]
  | pushes _ _ _ memory => rw [memory]
  | rests _ _ _ alike => rw [alike.memory]

theorem isBound_behind (hm : m.kind ≠ .reset) {v : Var} (hb : x.cycle.isBound v = true) :
    (x.behind σ m i k t).cycle.isBound v = true :=
  (isBound_afterAll σ (reset_notMem hm) _ _).2 (.inr hb)

theorem entered_behind (hm : m.kind ≠ .reset) (he : x.cycle.Entered) :
    (x.behind σ m i k t).cycle.Entered :=
  he.imp (isBound_behind hm) (isBound_behind hm)

theorem holds_behind (h : M.Visit w x σ m i k s t) (hp : (x.before i k s).Sound M)
    (hm : m.kind ≠ .reset) (he : x.cycle.Entered) {v : Var} (hv : v ≠ .duration) {a : Const}
    (ha : x.cycle.Holds s.memory v a) : (x.behind σ m i k t).cycle.Holds t.memory v a := by
  apply Cycle.holds_of_get (h.fits_behind hm) (isBound_behind hm ha.isBound)
  rw [h.get_of_entered hp he hv ha.isBound, ha.get h.fits]

/-- The level that the entry has decided by is the one that later gates of the cycle see. -/
theorem decided (h : M.Visit w x σ m i k s t) {L : Int32}
    (hlevel : M.tracking.gate.comparesLevel = true → x.cycle.Holds s.memory .level (.int L)) :
    x.Decided σ s.memory L := fun hcmp =>
  have hL := hlevel (h.tracking ▸ hcmp)
  ⟨hL.isBound, hL.get h.fits⟩

theorem called_behind (h : M.Visit w x σ m i k s t) (hp : (x.before i k s).Sound M)
    (hm : m.kind ≠ .reset) {e : Entry} {r : Const} (hc : (x.before i k s).Called M e r) :
    (x.behind σ m i k t).Called M e r := by
  have hround : m.kind.nextCycle k = k := if_neg hm
  have he : x.cycle.Entered := hc.entered
  obtain ⟨L, hL, hlevel⟩ := hc.passes
  refine ⟨entered_behind hm he, ?_, hc.insn, hc.result, ⟨L, hL, fun hcmp => ?_⟩, fun ht => ?_,
    fun hs => ?_⟩
  · rw [Context.behind, hround, h.entryCalls_of_entered he]
    exact hc.calls
  · exact h.holds_behind (v := .level) hp hm he (by simp) (hlevel hcmp)
  · exact h.holds_behind (v := .entryTs) hp hm he (by simp) (hc.time ht)
  · exact h.holds_behind (v := .sampleHit) hp hm he (by simp) (hc.hit hs)

/-- The first entry of a cycle makes the one call of the cycle, or skips it. -/
theorem called_or_skipped (hT : M.tracking.Sound) (h : M.Visit w x σ m i k s t)
    (hp : (x.before i k s).Sound M) (ho : (x.before i k s).OneCall M) (hm : m.kind = .entry)
    {L : Int32} {zs : History} (he : x.Enters σ s t L zs) :
    (∃ e r, (x.behind σ m i k t).Called M e r) ∨ (x.behind σ m i k t).Skipped M := by
  obtain ⟨call, hcall⟩ := he.asks
  have hreset : m.kind ≠ .reset := by simp [hm]
  have hround : m.kind.nextCycle k = k := if_neg hreset
  have hfits : σ.Fits (x.behind σ m i k t).cycle := h.fits_behind hreset
  have hbehind : (x.behind σ m i k t).cycle = afterAll σ x.cycle x.entrySteps := by
    rw [Context.behind, Context.steps, hm]
  have hbound {v : Var} (hv : v ∈ M.tracking.entryVars) :
      (x.behind σ m i k t).cycle.isBound v = true := by
    rw [← h.tracking] at hT hv
    rw [hbehind]
    exact Context.isBound_of_fresh hT he.fresh hcall σ hv
  have hentered : (x.behind σ m i k t).cycle.Entered := by
    obtain ⟨v, hv⟩ := Tracking.exists_mem_entryVars hcall
    rw [h.tracking] at hv
    rcases Tracking.mem_entryVars.1 hv with ⟨rfl, -⟩ | ⟨rfl, -⟩
    · exact .inl (hbound hv)
    · exact .inr (hbound hv)
  have hnone : M.entryCalls k s.history = [] := List.eq_nil_iff_forall_not_mem.2 fun e hmem => by
    obtain ⟨r, hr⟩ := ho.current e hmem
    exact he.fresh hr.entered
  -- zeroes are no calls
  have hzs : M.entryCalls k zs = [] := List.filter_eq_nil_iff.2 fun e hmem => by
    simp [isEntryCall, (he.zeroes.store e hmem).1, Insn.isCall]
  have hcalls {ns : History} (hn : notes (σ.slot .duration) t.history =
      ns ++ notes (σ.slot .duration) s.history) :
      M.entryCalls (x.behind σ m i k t).round t.history = M.entryCalls k ns := by
    rw [Context.behind, hround, entryCalls, filter_of_notes hn fun _ => tells_of_call]
    exact (congrArg _ hnone).trans (List.append_nil _)
  have hL := he.level
  rw [h.tracking] at hL hcall
  have hlevel (hcmp : M.tracking.gate.comparesLevel = true) :
      (x.behind σ m i k t).cycle.Holds t.memory .level (.int L) :=
    Cycle.holds_of_get hfits ((h.sound hT hp).coherent.level hentered hcmp) (hL hcmp)
  cases he.run with
  | skipped skips vars noted =>
    rw [h.tracking] at skips vars
    exact .inr ⟨(hcalls noted).trans hzs, ⟨L, skips, hlevel⟩,
      fun v hv => Cycle.holds_of_get hfits (hbound hv) (vars v hv)⟩
  | @called e call r passes insn call_eq _ result time hit noted =>
    rw [h.tracking] at passes call_eq time hit
    have hcall : M.isEntryCall k e = true := by
      have hsite := (h.site_noted noted e List.mem_cons_self).2
      rw [hm] at hsite
      exact isEntryCall_iff.2 ⟨isAt_iff.2 ⟨i, hsite⟩, by rw [insn]; rfl⟩
    have hone : M.entryCalls k (e :: zs) = [e] := by
      rw [entryCalls, List.filter_cons_of_pos hcall]
      exact congrArg _ hzs
    refine .inl ⟨e, r, hentered, (hcalls noted).trans hone, ⟨call, call_eq, insn⟩, result,
      ⟨L, passes, hlevel⟩, fun ht => ?_, fun hs => ?_⟩
    · exact Cycle.holds_of_get hfits (hbound (Tracking.mem_entryVars.2 (.inl ⟨rfl, ht⟩))) (time ht)
    · exact Cycle.holds_of_get hfits (hbound (Tracking.mem_entryVars.2 (.inr ⟨rfl, hs⟩))) (hit hs)

theorem oneCall (hT : M.tracking.Sound) (h : M.Visit w x σ m i k s t)
    (hp : (x.before i k s).Sound M) (ho : (x.before i k s).OneCall M) :
    (x.behind σ m i k t).OneCall M := by
  rcases h.entryCalls_or_enters with hsame | ⟨hm, L, zs, henters⟩
  · refine ⟨fun j => hsame j ▸ ho.single j, fun e he => ?_⟩
    have he : e ∈ M.entryCalls (m.kind.nextCycle k) s.history := hsame _ ▸ he
    by_cases hm : m.kind = .reset
    · rw [hm] at he
      exact absurd (hp.entryCalls_next ▸ he) List.not_mem_nil
    · rw [MarkerKind.nextCycle, if_neg hm] at he
      obtain ⟨r, hr⟩ := ho.current e he
      exact ⟨r, h.called_behind hp hm hr⟩
  · have hround : (x.behind σ m i k t).round = k := if_neg (by simp [hm])
    have hcases := h.called_or_skipped hT hp ho hm henters
    constructor
    · intro j
      by_cases hj : j = k
      · subst hj
        rcases hcases with ⟨e, r, hc⟩ | hs
        · have hone : M.entryCalls j t.history = [e] := hround ▸ hc.calls
          exact Nat.le_of_eq (congrArg List.length hone)
        · have hnil : M.entryCalls j t.history = [] := hround ▸ hs.calls
          exact hnil ▸ Nat.zero_le 1
      · have hsame : M.entryCalls j t.history = _ := h.entryCalls_of_ne fun _ => hj
        exact hsame ▸ ho.single j
    · intro e he
      rcases hcases with ⟨e', r, hc⟩ | hs
      · rw [hc.calls] at he
        exact ⟨r, List.mem_singleton.1 he ▸ hc⟩
      · rw [hs.calls] at he
        cases he

end Visit

end ProbedMethod

end MethodProbes
