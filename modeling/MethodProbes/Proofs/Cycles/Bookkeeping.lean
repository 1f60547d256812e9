import MethodProbes.Proofs.Cycles.EntryKnown

/-!
# Measurements and end calls answer to an entry

A test subtracts only what the call of its cycle has answered, and the calls at the end of an
invocation are made only if the call of the cycle has sampled it.
-/
namespace MethodProbes

open Step Machine History

namespace ProbeCall

def isHit : ProbeCall → Bool
  | hit | hitAdaptive | hitTimed | hitTimedAdaptive => true
  | getEndTs | updateEndTs | nanoTime => false

def answersTime : ProbeCall → Bool
  | nanoTime | hitTimed | hitTimedAdaptive => true
  | hit | hitAdaptive | getEndTs | updateEndTs => false

theorem callee_inj {c d : ProbeCall} : c.callee = d.callee ↔ c = d :=
  ⟨fun h => name_inj.1 (congrArg Callee.name h), fun h => h ▸ rfl⟩

end ProbeCall

namespace Tracking

variable {t : Tracking} {call : ProbeCall}

theorem isHit_of_sampled (hT : t.Sound) (hs : t.isSampled = true) (h : t.call? = some call) :
    call.isHit = true := by
  obtain ⟨n, s, hsampling, -⟩ := sampling?_of_sampled hT hs
  rw [call?, hsampling] at h
  cases h
  cases s <;> cases t.timed <;> rfl

theorem answersTime_of_timed (hT : t.Sound) (ht : t.timed = true) (h : t.call? = some call) :
    call.answersTime = true := by
  cases hs : t.isSampled with
  | true =>
    obtain ⟨n, s, hsampling, -⟩ := sampling?_of_sampled hT hs
    rw [call?, hsampling, ht] at h
    cases h
    cases s <;> rfl
  | false =>
    rw [call?, sampling?_of_not_sampled hs, ht] at h
    cases h
    rfl

theorem not_end_of_call (hT : t.Sound) (h : t.call? = some call) :
    call ≠ .getEndTs ∧ call ≠ .updateEndTs := by
  obtain ⟨v, hv⟩ := exists_mem_entryVars h
  rcases mem_entryVars.1 hv with ⟨-, ht⟩ | ⟨-, hs⟩
  · have htime := answersTime_of_timed hT ht h
    constructor <;> rintro rfl <;> cases htime
  · have hhit := isHit_of_sampled hT hs h
    constructor <;> rintro rfl <;> cases hhit

end Tracking

theorem Const.isZero_of_flag_ne {r : Const} (h : r.flag ≠ .int 0) : r.isZero = false := by
  refine Bool.eq_false_iff.2 fun hz => h ?_
  cases r with
  | int v =>
    have hv : v = 0 := by simpa [isZero] using hz
    rw [flag, hv]
  | long v =>
    have hv : v = 0 := by simpa [isZero] using hz
    rw [flag, hv]
    rfl

namespace ProbedMethod

/-- The calls of entries that an instruction needs were made before it in its cycle. -/
structure Justified (M : ProbedMethod) (pre : History) (e : Entry) : Prop where
  sub : e.insn = .sub .long → ∃ i k, M.site? e.index = some ⟨i, .test, k⟩ ∧
    ∃ c ∈ M.entryCalls k pre, ∃ (call : ProbeCall) (ts now : Int64),
      c.insn = .invoke call.callee ∧ call.answersTime = true ∧ c.pushed = [.long ts] ∧
        e.popped = [.long ts, .long now]
  ends : e.insn = .invoke ProbeCall.getEndTs.callee ∨
      e.insn = .invoke ProbeCall.updateEndTs.callee → ∃ r, M.site? e.index = some r ∧
    ∃ c ∈ M.entryCalls r.cycle pre, ∃ (call : ProbeCall) (v : Const),
      c.insn = .invoke call.callee ∧ call.isHit = true ∧ c.pushed = [v] ∧ v.isZero = false

variable {M : ProbedMethod} {pre h : History} {e : Entry}

theorem Justified.of_ne (hs : e.insn ≠ .sub .long)
    (hc : ∀ c, e.insn = .invoke c → c ≠ ProbeCall.getEndTs.callee ∧
      c ≠ ProbeCall.updateEndTs.callee) : M.Justified pre e := by
  refine ⟨fun h => absurd h hs, ?_⟩
  rintro (h | h)
  · exact absurd rfl (hc _ h).1
  · exact absurd rfl (hc _ h).2

theorem Justified.of_store {ty : ValueType} {r : Slot} (h : e.insn = .store ty r) :
    M.Justified pre e := .of_ne (by simp [h]) (by simp [h])

theorem Justified.mono (hj : M.Justified pre e) (hs : pre <:+ h) : M.Justified h e := by
  have hmem {k : Nat} {c : Entry} (hc : c ∈ M.entryCalls k pre) : c ∈ M.entryCalls k h :=
    (hs.sublist.filter _).subset hc
  refine ⟨fun hi => ?_, fun hi => ?_⟩
  · obtain ⟨i, k, hsite, c, hc, hrest⟩ := hj.sub hi
    exact ⟨i, k, hsite, c, hmem hc, hrest⟩
  · obtain ⟨r, hsite, c, hc, hrest⟩ := hj.ends hi
    exact ⟨r, hsite, c, hmem hc, hrest⟩

namespace Visit

variable {w : World} {x : Context} {σ : Layout} {m : Marker} {ms : List Marker} {i k : Nat}
  {s t : Machine}

theorem justified_of_notes (h : M.Visit w x σ m i k s t) (hs : s.history.Throughout M.Justified)
    {d : Slot} {ns : History} (hn : notes d t.history = ns ++ notes d s.history)
    (hns : ∀ e ∈ ns, M.Justified s.history e) : t.history.Throughout M.Justified := by
  obtain ⟨es, hes, -⟩ := h.exists_history
  have hnoted := notes_of_append hes hn
  rw [hes]
  apply hs.append
  intro e he pre
  cases htells : e.insn.tells d with
  | true => exact (hns e (hnoted ▸ mem_notes.2 ⟨he, htells⟩)).mono (List.suffix_append pre _)
  | false =>
    refine .of_ne (fun hi => ?_) fun c hi => ?_
    · rw [hi] at htells
      cases htells
    · rw [hi] at htells
      cases htells

theorem justified_of_silent (h : M.Visit w x σ m i k s t) (hs : s.history.Throughout M.Justified)
    {d : Slot} (hn : notes d t.history = notes d s.history) : t.history.Throughout M.Justified :=
  h.justified_of_notes hs (hn.trans (List.nil_append _).symm) nofun

/-- The call of the cycle has sampled the invocation. -/
theorem exists_hit (hT : M.tracking.Sound) (h : M.Visit w x σ m i k s t)
    (hs : M.tracking.isSampled = true) {e : Entry} {r : Const}
    (hc : (x.before i k s).Called M e r) (hhit : s.memory.get σ .sampleHit ≠ .int 0) :
    ∃ c ∈ M.entryCalls k s.history, ∃ (call : ProbeCall) (v : Const),
      c.insn = .invoke call.callee ∧ call.isHit = true ∧ c.pushed = [v] ∧ v.isZero = false := by
  obtain ⟨call, hcall, hins⟩ := hc.insn
  have hflag : r.flag ≠ .int 0 := (hc.hit hs).get h.fits ▸ hhit
  exact ⟨e, hc.mem, call, r, hins, Tracking.isHit_of_sampled hT hs hcall, hc.result,
    Const.isZero_of_flag_ne hflag⟩

/-- A measurement subtracts what the call of the cycle has answered. -/
theorem justified_of_measures (hT : M.tracking.Sound) (h : M.Visit w x σ m i k s t)
    (hp : (x.before i k s).Sound M) (hm : m.kind = .test) {e : Entry} {r : Const}
    (hc : (x.before i k s).Called M e r) (ht : M.tracking.timed = true)
    (hhit : x.cycle.isBound .sampleHit = true → s.memory.get σ .sampleHit ≠ .int 0)
    {c : ProbeCall} (hcall : c = if M.tracking.isSampled then .getEndTs else .nanoTime) {v : Int64}
    {es : History} (hms : x.Measures σ c s t v es) : ∀ d ∈ es, M.Justified s.history d := by
  obtain ⟨st, sub, d, ts, now, hes, hst, -, hsub, hpop, -, hd, hts, -⟩ := hms.entries
  have hsite := h.site_noted hms.noted
  rw [hes] at hsite ⊢
  rw [hm] at hsite
  simp only [List.mem_cons, List.not_mem_nil, or_false, forall_eq_or_imp, forall_eq] at hsite ⊢
  refine ⟨.of_store hst, ⟨fun _ => ?_, fun hi => ?_⟩, ⟨fun hi => ?_, fun hi => ?_⟩⟩
  · obtain ⟨call, hcall, hins⟩ := hc.insn
    obtain rfl : r = .long ts := ((hc.time ht).get h.fits).symm.trans hts
    exact ⟨i, k, hsite.2.1.2, e, hc.mem, call, ts, now, hins,
      Tracking.answersTime_of_timed hT ht hcall, hc.result, hpop⟩
  · rw [hsub] at hi
    rcases hi with hi | hi <;> cases hi
  · rw [hd] at hi
    cases hi
  · refine ⟨_, hsite.2.2.2, ?_⟩
    cases hs : M.tracking.isSampled with
    | true =>
      have hb : x.cycle.isBound .sampleHit = true :=
        hp.coherent.entry hc.entered _ (Tracking.mem_entryVars.2 (.inr ⟨rfl, hs⟩))
      exact h.exists_hit hT hs hc (hhit hb)
    | false =>
      -- the clock is not an end call
      rw [hs] at hcall
      subst hcall
      rw [hd] at hi
      rcases hi with hi | hi
      · exact absurd (ProbeCall.callee_inj.1 (Insn.invoke.inj hi)) (by decide)
      · exact absurd (ProbeCall.callee_inj.1 (Insn.invoke.inj hi)) (by decide)

theorem justified (hT : M.tracking.Sound) (h : M.Visit w x σ m i k s t)
    (hp : (x.before i k s).Sound M) (ha : (x.before i k s).Aware M (m :: ms))
    (hs : s.history.Throughout M.Justified) : t.history.Throughout M.Justified := by
  cases h.outcome with
  | passes _ _ _ _ history => exact history ▸ hs
  | arrives _ _ _ _ alike => exact h.justified_of_silent hs alike.notes
  | enters _ _ _ enters =>
    have hzs {zs : History} (hz : Context.Zeroes σ zs s t) :
        ∀ e ∈ zs, M.Justified s.history e := fun e he => .of_store (hz.store e he).1
    cases enters.run with
    | skipped _ _ noted => exact h.justified_of_notes hs noted (hzs enters.zeroes)
    | called _ insn call_eq _ _ _ _ noted =>
      apply h.justified_of_notes hs noted
      intro e he
      rcases List.mem_cons.1 he with rfl | he
      · obtain ⟨hget, hupdate⟩ := Tracking.not_end_of_call hT (h.tracking ▸ call_eq)
        refine .of_ne (by simp [insn]) fun c hi => ?_
        obtain rfl := Insn.invoke.inj (insn.symm.trans hi)
        exact ⟨mt ProbeCall.callee_inj.1 hget, mt ProbeCall.callee_inj.1 hupdate⟩
      · exact hzs enters.zeroes e he
  | tests kind going run =>
    obtain ⟨L, hL⟩ := x.exists_decided (h.tracking ▸ hp.coherent) σ s.memory
    cases (run L hL).2 with
    | rest _ zeroes noted =>
      exact h.justified_of_notes hs noted fun e he => .of_store (zeroes.store e he).1
    | left _ _ _ _ _ noted => exact h.justified_of_silent hs noted
    | measured _ entered passes timed _ _ hit call measures =>
      obtain ⟨e, r, hc⟩ := h.called_of_passes (ha.here going entered) (hL entered) passes
      rw [h.tracking] at timed call
      exact h.justified_of_notes hs measures.noted
        (h.justified_of_measures hT hp kind hc timed hit call measures)
  | exits _ going _ run =>
    cases run with
    | silent alike => exact h.justified_of_silent hs alike.notes
    | @told e _ bound hit insn _ _ noted =>
      have hone : notes (σ.slot .duration) t.history = [e] ++ notes _ s.history := noted
      apply h.justified_of_notes hs hone
      intro d hd
      obtain rfl := List.mem_singleton.1 hd
      have hsampled := hp.coherent.sampled bound
      have hsite := (h.site_noted hone d hd).2
      refine ⟨fun hi => by simp [insn] at hi, fun _ => ⟨_, hsite, ?_⟩⟩
      rcases ha.here going (.inr bound) with ⟨e, r, hc⟩ | hskip
      · exact h.exists_hit hT hsampled hc hit
      · -- behind a skipped call the flag is zero
        have hzero := hskip.zero _ (Tracking.mem_entryVars.2 (.inr ⟨rfl, hsampled⟩))
        exact absurd (hzero.get h.fits) hit
  | pushes _ _ _ _ history =>
    apply h.justified_of_silent (d := σ.slot .duration) hs
    rw [history, notes_cons_of_not_tells]
    rw [Context.durationInsn]
    split <;> rfl
  | rests _ _ _ alike => exact h.justified_of_silent hs alike.notes

end Visit

end ProbedMethod

namespace Body

variable {b : Body} {settings : Settings} {firstSlot : UInt16} {M : ProbedMethod} {w : World}
  {m : Memory} {s : Machine} {e : Entry} {pre : History}

/-- In every run of a method whose else markers stand before resets, a subtraction takes off the
answer of the one call that entries of its cycle have made, and an end call is made only if a call
of an entry of its cycle has sampled the invocation. -/
theorem measures_and_ends_answer_entry (h : (b.attempt settings firstSlot).result = .ok M)
    (hms : ElseBeforeReset b.markers) (hr : Reaches M.code.toList w (start m) s)
    (he : e :: pre <:+ s.history) :
    (e.insn = .sub .long → ∃ i k, M.site? e.index = some ⟨i, .test, k⟩ ∧
      ∃ c ∈ pre, M.entryCalls k s.history = [c] ∧ ∃ (call : ProbeCall) (ts now : Int64),
        c.insn = .invoke call.callee ∧ call.answersTime = true ∧ c.pushed = [.long ts] ∧
          e.popped = [.long ts, .long now]) ∧
    (e.insn = .invoke ProbeCall.getEndTs.callee ∨ e.insn = .invoke ProbeCall.updateEndTs.callee →
      ∃ r, M.site? e.index = some r ∧ ∃ c ∈ pre, M.isEntryCall r.cycle c = true ∧
        ∃ (call : ProbeCall) (v : Const), c.insn = .invoke call.callee ∧ call.isHit = true ∧
          c.pushed = [v] ∧ v.isZero = false) := by
  have hT := (exists_route h).1
  obtain ⟨q, -, hI, -, hsuffix, -⟩ := exists_point h (w := w) (m := m)
    (I := fun p ms => p.OneCall M ∧ p.Aware M ms ∧ p.machine.history.Throughout M.Justified)
    (fun x σ m ms i k s t hv hp hI => ⟨hv.oneCall hT hp hI.1, hv.aware hT hp hI.1 hI.2.1,
      hv.justified hT hp hI.2.1 hI.2.2⟩)
    ⟨Point.oneCall_start M m, Point.aware_start hms, throughout_nil _⟩ hr
  obtain ⟨hone, -, hall⟩ := hI
  have hj := hall e pre (he.trans hsuffix)
  have hpre : pre <:+ s.history := (List.suffix_cons e pre).trans he
  constructor
  · intro hi
    obtain ⟨i, k, hsite, c, hc, hrest⟩ := hj.sub hi
    obtain ⟨hmem, hcall⟩ := List.mem_filter.1 hc
    have hc : c ∈ M.entryCalls k s.history := List.mem_filter.2 ⟨hpre.subset hmem, hcall⟩
    have hle : (M.entryCalls k s.history).length ≤ 1 :=
      Nat.le_trans (hsuffix.sublist.filter _).length_le (hone.single k)
    have hpos := List.length_pos_of_mem hc
    obtain ⟨d, hd⟩ := List.length_eq_one_iff.1 (by omega : (M.entryCalls k s.history).length = 1)
    obtain rfl : c = d := List.mem_singleton.1 (hd ▸ hc)
    exact ⟨i, k, hsite, c, hmem, hd, hrest⟩
  · intro hi
    obtain ⟨r, hsite, c, hc, hrest⟩ := hj.ends hi
    obtain ⟨hmem, hcall⟩ := List.mem_filter.1 hc
    exact ⟨r, hsite, c, hmem, hcall, hrest⟩

/-- The test of the second cycle subtracts what the entry of that cycle was answered. -/
theorem measures_and_ends_answer_entry_twoCycles :
    let entry := ((Marker.ofKind .entry).withFlag "timed").withSampler (some .const)
    let test := (Marker.ofKind .test).withFlag "timed"
    let b : Body := ⟨"m", 7, [entry, test, .ofKind .elseBranch, .ofKind .reset, entry, test,
      .ofKind .elseBranch]⟩
    let w : World := ⟨fun _ => 0, fun _ => 0, fun h => .ofNat h.length⟩
    ∃ M s, (b.attempt {} 0).result = .ok M ∧ Reaches M.code.toList w (start fun _ => 0) s ∧
      (∃ e pre, e :: pre <:+ s.history ∧ M.site? e.index = some ⟨5, .test, 1⟩ ∧
        ∃ c ∈ pre, M.entryCalls 1 s.history = [c] ∧ ∃ ts now : Int64, c.pushed = [.long ts] ∧
          e.insn = .sub .long ∧ e.popped = [.long ts, .long now]) ∧
      ∃ e pre, e :: pre <:+ s.history ∧ e.insn = .invoke ProbeCall.getEndTs.callee ∧
        ∃ r, M.site? e.index = some r ∧ ∃ c ∈ pre, M.isEntryCall r.cycle c = true ∧
          ∃ v, c.pushed = [v] ∧ v.isZero = false := by
  intro entry test b w
  obtain ⟨M, s, hM, hr, -, hP⟩ := exists_of_runsTo (b := b) (w := w)
    (P := fun M s =>
      ((s.history.find? (·.insn = .sub .long)).any fun e =>
        M.site? e.index = some ⟨5, .test, 1⟩) ∧
      (s.history.find? (·.insn = .invoke ProbeCall.getEndTs.callee)).isSome) (by decide)
  obtain ⟨hmeasure, hends⟩ := of_decide_eq_true hP
  obtain ⟨e, he, hsite⟩ := (Option.any_eq_true _ _).1 hmeasure
  obtain ⟨d, hd⟩ := Option.isSome_iff_exists.1 hends
  have hms : ElseBeforeReset b.markers := by decide
  have hsuffix {P : Entry → Bool} {e : Entry} (he : s.history.find? P = some e) :
      ∃ pre, e :: pre <:+ s.history := by
    obtain ⟨-, as, bs, hs, -⟩ := List.find?_eq_some_iff_append.1 he
    exact ⟨bs, as, hs.symm⟩
  obtain ⟨pre, hpre⟩ := hsuffix he
  obtain ⟨pre', hpre'⟩ := hsuffix hd
  have hsub : e.insn = .sub .long := by simpa using List.find?_some he
  have hend : d.insn = .invoke ProbeCall.getEndTs.callee := by simpa using List.find?_some hd
  obtain ⟨i, k, hk, c, hc, hone, call, ts, now, -, -, hts, hpop⟩ :=
    (measures_and_ends_answer_entry hM hms hr hpre).1 hsub
  cases (of_decide_eq_true hsite).symm.trans hk
  obtain ⟨r, hr', c', hc', hcall, call', v, -, -, hv, hz⟩ :=
    (measures_and_ends_answer_entry hM hms hr hpre').2 (.inl hend)
  exact ⟨M, s, hM, hr, ⟨e, pre, hpre, hk, c, hc, hone, ts, now, hts, hsub, hpop⟩,
    d, pre', hpre', hend, r, hr', c', hc', hcall, v, hv, hz⟩

end Body

end MethodProbes
