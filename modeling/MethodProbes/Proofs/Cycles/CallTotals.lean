import MethodProbes.Proofs.Cycles.Bookkeeping
import MethodProbes.Proofs.Cycles.CallCounts
import MethodProbes.Proofs.Expansion.Phrases

/-!
# What a method asks, in closed form

How often a method makes each of its calls and reads the level can be told from its markers: once for
each cycle with an entry, once for each cycle that measures behind an entry, once for each exit behind
an entry.
-/
namespace MethodProbes

open Step

/-! ### Calls -/

theorem Asks.callee_eq {call : ProbeCall} {ss : List Step} {f : Callee} (h : Asks call ss)
    (hf : .emit (.invoke f) ∈ ss) : f = call.callee := by
  cases h <;> simpa using hf

/-- Probe code calls nothing but the counters and the clock. -/
theorem Phrase.exists_call {p : List Step} {f : Callee} (h : Phrase p)
    (hf : .emit (.invoke f) ∈ p) : ∃ c : ProbeCall, f = c.callee := by
  cases h with
  | @note s h =>
    rw [← List.mem_singleton.1 hf] at h
    cases h
  | levelTest field bound n hc hd l =>
    rw [List.mem_append] at hf
    rcases hf with hf | hf
    · cases bound <;> simp [Gate.pushLevel] at hf
    · rw [Gate.compare] at hf
      split at hf <;> simp at hf
  | keep h | keepTimeAndFlag h | elapsed h => exact ⟨_, h.callee_eq (by simpa using hf)⟩
  | tell h => exact ⟨_, h.callee_eq hf⟩
  | merge | goto | constant | flagTest => simp [Step.merge] at hf

theorem Phrased.exists_call {ss : List Step} {f : Callee} (h : Phrased ss)
    (hf : .emit (.invoke f) ∈ ss) : ∃ c : ProbeCall, f = c.callee := by
  induction h with
  | nil => cases hf
  | append phrase _ ih => exact (List.mem_append.1 hf).elim phrase.exists_call ih

theorem Context.exists_call (x : Context) {σ : Layout} {m : Marker} {f : Callee}
    (hf : .invoke f ∈ written σ (x.steps m)) : ∃ c : ProbeCall, f = c.callee := by
  have hemit : .emit (.invoke f) ∈ x.steps m := by
    obtain ⟨s, hs, hf⟩ := List.mem_flatMap.1 hf
    cases s with
    | emit i => exact List.mem_singleton.1 hf ▸ hs
    | load v | store v => simp [insns] at hf
    | _ => cases hf
  by_cases hm : m.kind = .duration
  · rw [steps, hm] at hemit
    dsimp only [durationSteps] at hemit
    split at hemit <;> simp at hemit
  · exact (x.phrased_steps hm).exists_call hemit

namespace Tracking

variable {t : Tracking}

/-- A sampled method makes the call of its sampler, and those at the end. -/
theorem sum_callsIn_of_sampled (hT : t.Sound) (hs : t.isSampled = true) {s : Sampler}
    (hsampler : t.sampler = some s) (c : ProbeCall) (cycles : List (List Marker)) :
    (cycles.map (t.callsIn c)).sum =
      if c = s.hitCall t.timed then cycles.countP hasEntry
      else if c = .getEndTs then if t.timed then cycles.countP measuresAfterEntry else 0
      else if c = .updateEndTs then
        if s = .adaptive then (cycles.map exitsAfterEntry).sum else 0
      else 0 := by
  have hcall : t.call? = some (s.hitCall t.timed) := by
    obtain ⟨n, s', hsampling, hs'⟩ := sampling?_of_sampled hT hs
    cases hs'.symm.trans hsampler
    simp [call?, hsampling]
  have htest : t.testCall = .getEndTs := if_pos hs
  obtain ⟨hend, hupdate⟩ := not_end_of_call hT hcall
  rw [sum_callsIn, hcall, htest, hsampler, hs]
  by_cases hc : c = s.hitCall t.timed
  · simp [hc, hend.symm, hupdate]
  rw [if_neg hc, if_neg fun h => hc (Option.some.inj h).symm, Nat.zero_add]
  by_cases hend : c = .getEndTs
  · simp [hend]
  · rw [if_neg hend, if_neg fun h => hend h.2.symm, Nat.zero_add]
    by_cases hupdate : c = .updateEndTs <;> simp [hupdate]

/-- A method that is timed only asks the clock. -/
theorem sum_callsIn_of_timed (hs : t.isSampled = false) (ht : t.timed = true) (c : ProbeCall)
    (cycles : List (List Marker)) : (cycles.map (t.callsIn c)).sum =
      if c = .nanoTime then cycles.countP hasEntry + cycles.countP measuresAfterEntry else 0 := by
  have hcall : t.call? = some .nanoTime := by simp [call?, sampling?_of_not_sampled hs, ht]
  have htest : t.testCall = .nanoTime := if_neg (by simp [hs])
  rw [sum_callsIn, hcall, htest, hs, ht]
  by_cases hc : c = .nanoTime
  · simp [hc]
  · simp [hc, Ne.symm hc]

end Tracking

/-! ### Markers without questions -/

/-- In a method that is neither timed nor sampled only durations have code. -/
theorem Cycle.Reflects.written_of_idle {x : Context} {past : List Marker}
    (h : x.cycle.Reflects x.tracking past)
    (ht : x.tracking.timed = false) (hs : x.tracking.isSampled = false)
    (hp : x.cycle.pendingElse = none) (m : Marker) (σ : Layout) :
    written σ (x.steps m) = if m.kind = .duration then [.push (.long 0)] else [] := by
  rw [Context.steps]
  cases m.kind with
  | entry =>
    have hcall : x.tracking.call? = none := by
      rw [Tracking.call?, Tracking.sampling?_of_not_sampled hs, ht]
      rfl
    simp [Context.entrySteps_of_no_call hcall]
  | test => simp [x.testSteps_of_not_sampled hs, ht, insns]
  | elseBranch => simp [Context.elseSteps, hp]
  | duration => simp [Context.durationSteps, h.measured, ht, insns]
  | exit => simp [Context.exitSteps, h.sampleHit, hs]
  | reset => simp [insns]

namespace Route

variable {t : Tracking} {c : Cycle} {n : Nat} {ms pre : List Marker} {parts : List (List Insn)}
  {past : List Marker}

theorem flatten_of_idle (hT : t.Sound) (ht : t.timed = false) (hs : t.isSampled = false)
    (h : Route t c n ms parts) (hc : c.Reflects t past) (hp : c.pendingElse = none) :
    parts.flatten = List.replicate (ms.countP (·.kind = .duration)) (.push (.long 0)) := by
  induction h generalizing past with
  | nil => rfl
  | @cons x σ m ms parts htracking _ _ ih =>
    subst htracking
    have hpend : (afterAll σ x.cycle (x.steps m)).pendingElse = none := by
      rw [x.pendingElse_steps m]
      cases m.kind <;> simp [hs, hp]
    rw [List.flatten_cons, hc.written_of_idle ht hs hp, ih (hc.openCycle hT m σ) hpend]
    by_cases hm : m.kind = .duration
    · simp [hm, List.replicate_succ]
    · simp [hm]

theorem exists_call (h : Route t c n ms parts) {f : Callee} (hf : .invoke f ∈ parts.flatten) :
    ∃ c : ProbeCall, f = c.callee := by
  induction h with
  | nil => cases hf
  | @cons x σ m ms parts _ _ _ ih =>
    rw [List.flatten_cons, List.mem_append] at hf
    exact hf.elim x.exists_call ih

theorem exists_of_append {M : ProbedMethod} {i k j : Nat} (hT : t.Sound)
    (h : Route t c n (pre ++ ms) parts) (hc : c.Reflects t past)
    (ha : M.Ahead i k j (pre ++ ms) parts) :
    ∃ c' n' k' j' parts', Route t c' n' ms parts' ∧ c'.Reflects t (pre.foldl openCycle past) ∧
      M.Ahead (i + pre.length) k' j' ms parts' := by
  induction pre generalizing c n past i k j parts with
  | nil => exact ⟨c, n, k, j, parts, h, hc, ha⟩
  | cons m pre ih =>
    rw [List.cons_append] at h ha
    cases h with
    | @cons x σ _ _ parts htracking _ hrest =>
      subst htracking
      obtain ⟨c', n', k', j', parts', hroute, hreflects, hahead⟩ :=
        ih hrest (hc.openCycle hT m σ) ha.next
      refine ⟨c', n', k', j', parts', hroute, hreflects, ?_⟩
      rwa [List.length_cons, Nat.add_comm pre.length, ← Nat.add_assoc]

end Route

namespace Body

variable {b : Body} {settings : Settings} {firstSlot : UInt16} {M : ProbedMethod}

theorem exists_steps (h : (b.attempt settings firstSlot).result = .ok M)
    {pre post : List Marker} {m : Marker} (hms : b.markers = pre ++ m :: post) :
    ∃ (x : Context) (σ : Layout), x.tracking = M.tracking ∧
      x.cycle.Reflects x.tracking (pre.foldl openCycle []) ∧
        M.segment? pre.length = some (written σ (x.steps m)) := by
  obtain ⟨hT, parts, hroute, hahead, -⟩ := b.exists_route h
  rw [hms] at hroute hahead
  obtain ⟨c, n, k, j, parts, hroute, hc, hahead⟩ :=
    hroute.exists_of_append hT (Cycle.reflects_initial _) hahead
  cases hroute with
  | @cons x σ _ _ parts htracking _ hrest =>
    exact ⟨x, σ, htracking, htracking ▸ hc, by simpa using hahead.segment?_eq⟩

theorem segment?_of_entry_behind (h : (b.attempt settings firstSlot).result = .ok M)
    {pre mid post : List Marker} {e m : Marker} (hms : b.markers = pre ++ e :: mid ++ m :: post)
    (he : e.kind = .entry) (hm : m.kind = .entry) (hmid : ∀ k ∈ mid, k.kind ≠ .reset) :
    M.segment? (pre ++ e :: mid).length = some [] := by
  obtain ⟨x, σ, htracking, hx, hsegment⟩ := exists_steps h hms
  have hT : x.tracking.Sound := htracking ▸ (b.exists_route h).1
  have hentry : hasEntry ((pre ++ e :: mid).foldl openCycle []) = true := by
    have hreset : e.kind ≠ .reset := by simp [he]
    rw [List.foldl_append, foldl_openCycle_append _ _ (List.forall_mem_cons.2 ⟨hreset, hmid⟩)]
    simp [hasEntry, Marker.isEntry, he]
  rw [hsegment, Context.steps, hm]
  dsimp only
  rw [hx.entrySteps_eq_nil hT hentry]
  rfl

theorem countCalls_eq (h : (b.attempt settings firstSlot).result = .ok M) (c : ProbeCall) :
    countCalls M.code.toList c.name = ((cyclesOf b.markers).map (M.tracking.callsIn c)).sum := by
  obtain ⟨hT, parts, hroute, hahead, -⟩ := b.exists_route h
  have hcount := hroute.countP_calls hT (Cycle.reflects_initial _) c
  rw [Tracking.callsIn_nil, Nat.add_zero, cyclesFrom_empty] at hcount
  rw [countCalls, ← hcount, ← hahead.code, List.drop_zero]

theorem countP_isLevelRead_eq (h : (b.attempt settings firstSlot).result = .ok M) :
    M.code.toList.countP Insn.isLevelRead =
      ((cyclesOf b.markers).map M.tracking.levelReadsIn).sum := by
  obtain ⟨hT, parts, hroute, hahead, -⟩ := b.exists_route h
  have hcount := hroute.countP_isLevelRead hT (Cycle.reflects_initial _)
  rw [Tracking.levelReadsIn_nil, Nat.add_zero, cyclesFrom_empty] at hcount
  rw [← hcount, ← hahead.code, List.drop_zero]

/-- What a method asks, in terms of the cycles of its markers.  A sampled method makes the call of its
sampler once for each cycle with an entry, and a call at the end once for each cycle that measures
behind an entry.  A method that is timed only asks the clock at the same places, and one that is
neither does nothing but push zeroes.  A cycle with code behind a gate reads the level once. -/
theorem questions_closed_form (h : (b.attempt settings firstSlot).result = .ok M) :
    let t := M.tracking
    let code := M.code.toList
    let cycles := cyclesOf b.markers
    let entered := cycles.countP hasEntry
    let measured := cycles.countP measuresAfterEntry
    (∀ f, .invoke f ∈ code → ∃ c : ProbeCall, f = c.callee) ∧
    (t.isSampled = true → ∃ s, t.sampler = some s ∧ ∀ c : ProbeCall, countCalls code c.name =
      if c = s.hitCall t.timed then entered
      else if c = .getEndTs then if t.timed then measured else 0
      else if c = .updateEndTs then
        if s = .adaptive then (cycles.map exitsAfterEntry).sum else 0
      else 0) ∧
    (t.isSampled = false → t.timed = true → ∀ c : ProbeCall, countCalls code c.name =
      if c = .nanoTime then entered + measured else 0) ∧
    (t.isSampled = false → t.timed = false →
      code = List.replicate (b.markers.countP (·.kind = .duration)) (.push (.long 0))) ∧
    (∀ pre e mid m post, b.markers = pre ++ e :: mid ++ m :: post → e.kind = .entry →
      m.kind = .entry → (∀ k ∈ mid, k.kind ≠ .reset) →
        M.segment? (pre ++ e :: mid).length = some []) ∧
    (t.timed = true ∨ t.isSampled = true → t.gate.comparesLevel = true →
      code.countP Insn.isLevelRead = cycles.countP fun ms =>
        hasEntry ms || t.timed && !t.isSampled && hasTimedTest ms) := by
  obtain ⟨hT, parts, hroute, hahead, -⟩ := b.exists_route h
  intro t code cycles entered measured
  have hcode : code = parts.flatten := by simpa using hahead.code
  refine ⟨fun f hf => ?_, fun hs => ?_, fun hs ht c => ?_, fun hs ht => ?_,
    fun pre e mid m post hms he hm hmid => segment?_of_entry_behind h hms he hm hmid,
    fun hcall hg => ?_⟩
  · rw [hcode] at hf
    exact hroute.exists_call hf
  · obtain ⟨n, s, -, hsampler⟩ := Tracking.sampling?_of_sampled hT hs
    refine ⟨s, hsampler, fun c => ?_⟩
    rw [countCalls_eq h]
    exact Tracking.sum_callsIn_of_sampled hT hs hsampler c cycles
  · rw [countCalls_eq h]
    exact Tracking.sum_callsIn_of_timed hs ht c cycles
  · rw [hcode]
    exact hroute.flatten_of_idle hT ht hs (Cycle.reflects_initial _) rfl
  · rw [countP_isLevelRead_eq h, Tracking.sum_levelReadsIn]
    refine List.countP_congr fun ms _ => ?_
    rw [hg, Bool.true_and, Tracking.gatesIn]
    rcases hcall with hcall | hcall <;> simp [t, hcall]

/-- A cycle that tests before its entry, one without markers, and one that measures once. -/
theorem questions_closed_form_threeCycles :
    let entry := ((Marker.ofKind .entry).withFlag "timed").withSampler (some .adaptive)
    let test := (Marker.ofKind .test).withFlag "timed"
    let b : Body := ⟨"m", 7, [test, entry.withTag "level" "[1,3]", entry, .ofKind .exit, .ofKind .reset,
      .ofKind .reset, entry, test, test, .ofKind .exit, .ofKind .exit]⟩
    ∃ M, (b.attempt {} 0).result = .ok M ∧ countCalls M.code.toList "hitTimedAdaptive" = 2 ∧
      countCalls M.code.toList "getEndTs" = 1 ∧ countCalls M.code.toList "updateEndTs" = 3 ∧
      countCalls M.code.toList "nanoTime" = 0 ∧ M.segment? 2 = some [] ∧
      M.code.toList.countP Insn.isLevelRead = 2 := by
  intro entry test b
  have hcheck : ((b.attempt {} 0).result.toOption.any fun M => decide
      (M.tracking.isSampled = true ∧ M.tracking.sampler = some .adaptive ∧
        M.tracking.timed = true ∧ M.tracking.gate.comparesLevel = true)) = true := by
    decide
  cases hM : (b.attempt {} 0).result with
  | error e =>
    rw [hM] at hcheck
    cases hcheck
  | ok M =>
    rw [hM] at hcheck
    obtain ⟨hs, hsampler, ht, hg⟩ := of_decide_eq_true hcheck
    obtain ⟨-, hcalls, -, -, hagain, hreads⟩ := questions_closed_form hM
    obtain ⟨s, hs', hcalls⟩ := hcalls hs
    cases hs'.symm.trans hsampler
    rw [ht] at hcalls
    refine ⟨M, rfl, (hcalls .hitTimedAdaptive).trans (by decide), (hcalls .getEndTs).trans (by decide),
      (hcalls .updateEndTs).trans (by decide), (hcalls .nanoTime).trans (by decide), ?_, ?_⟩
    · exact hagain [test] (entry.withTag "level" "[1,3]") [] entry _ rfl rfl rfl (by simp)
    · rw [hreads (.inl ht) hg, hs, ht]
      decide

end Body

end MethodProbes
