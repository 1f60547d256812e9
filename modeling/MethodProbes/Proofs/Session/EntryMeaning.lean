import MethodProbes.Proofs.Cycles.Reflection
import MethodProbes.Proofs.Level.GateCorrect
import MethodProbes.Proofs.Run.Frame
import MethodProbes.Proofs.Session.OpenCycles

/-!
# What the code of an entry means

The first entry of a cycle makes one call at the levels that its gate admits, and its variables hold the
result.  At other levels they hold zero, so later code of the cycle may load them at every level.
-/
namespace MethodProbes

open Step Machine History

namespace Machine

def calls (s : Machine) : History := s.history.filter (·.insn.isCall)

/-- A run has made one call and no other, with the method's id if the call takes one, and `r` is the
answer. -/
def CalledOnce (s : Machine) (c : ProbeCall) (id : Int32) (r : Const) : Prop :=
  ∃ e, s.calls = [e] ∧ e.insn = .invoke c.callee ∧ e.popped = c.arguments id ∧ e.pushed = [r]

theorem calls_of_notes {d : Slot} {mem : Memory} {s : Machine} {es : History}
    (h : notes d s.history = es ++ notes d (start mem).history) :
    s.calls = es.filter (·.insn.isCall) := by
  rw [calls, filter_of_notes h fun _ => Insn.tells_of_isCall]
  exact List.append_nil _

end Machine

theorem Context.Zeroes.filter_isCall {σ : Layout} {zs : History} {s t : Machine}
    (h : Zeroes σ zs s t) : zs.filter (·.insn.isCall) = [] :=
  List.filter_eq_nil_iff.2 fun e he => by simp [(h.store e he).1, Insn.isCall]

/-- What running the code of an entry comes to at level `L`, from the memory `mem`.  The expander is `x`
before the expansion and `y` behind it. -/
structure Turn.EntryMeaning (t : Turn) (x y : Expander) (id : Int32) (mem : Memory) (L : Int32)
    (s : Machine) : Prop where
  /-- At an admitted level there is one call, and the variables of the entry hold its answer. -/
  called : x.tracking.Admits L → ∃ c r, s.CalledOnce c id r ∧
    (x.tracking.isSampled = false → c = .nanoTime) ∧
    (x.tracking.isSampled = true →
      ∃ k, x.tracking.sampler = some k ∧ c = k.hitCall x.tracking.timed) ∧
    (x.tracking.timed = true → y.cycle.Holds s.memory .entryTs r) ∧
    (x.tracking.isSampled = true → y.cycle.Holds s.memory .sampleHit r.flag)
  /-- At other levels there is no call, and they hold zero. -/
  skipped : ¬ x.tracking.Admits L → s.calls = [] ∧
    (x.tracking.timed = true → y.cycle.Holds s.memory .entryTs (.long 0)) ∧
    (x.tracking.isSampled = true → y.cycle.Holds s.memory .sampleHit (.int 0))
  /-- A duration that gets its slot here is zero. -/
  duration : x.tracking.timed = true → x.cycle.isBound .duration = false →
    y.cycle.Holds s.memory .duration (.long 0)
  /-- If the gate compares the level, then the level has a slot behind the code. -/
  compared : x.tracking.gate.comparesLevel = true → y.cycle.isBound .level = true
  level : ∀ r, y.cycle.slot? .level = some r → s.memory.read .int r = .int L
  /-- Words change only in the slots that are handed out with the code. -/
  others : ∀ j, (∀ a ∈ t.allotted, ¬ a.1.Covers a.2 j) → s.memory j = mem j

namespace Turn.Writes

variable {t : Turn} {x y : Expander} {m : Marker} {id : Nat} {σ : Layout} {w : World} {mem : Memory}
  {s : Machine} {L L' : Int32} {zs : History}

theorem fits_after (h : t.Writes x m id σ y) (hm : m.kind ≠ .reset) : σ.Fits y.cycle := by
  rw [h.cycle]
  exact h.expansion.fits.afterAll ((t.context x id).scoped_steps hm).reset_notMem

/-- A level that has a slot behind the code of a marker is the one that the run sees, if it is the one
behind the code that the gate compares with. -/
theorem read_level (h : t.Writes x m id σ y) (hm : m.kind ≠ .reset)
    (hrun : exec w (written σ ((t.context x id).steps m)) (start mem) = some s)
    (hL : Sees x.cycle mem s L)
    (hstored : .store .level ∈ (t.context x id).steps m → s.memory.get σ .level = .int L) {r : Slot}
    (hr : y.cycle.slot? .level = some r) : s.memory.read .int r = .int L := by
  have hget : s.memory.get σ .level = s.memory.read .int r := (h.fits_after hm).get hr _
  rw [← hget]
  by_cases hs : .store .level ∈ (t.context x id).steps m
  · exact hstored hs
  rw [Context.get_of_not_stored hrun hs]
  rw [h.cycle, slot?_afterAll σ ((t.context x id).scoped_steps hm).reset_notMem, if_neg hs] at hr
  have hx : x.cycle.slot? .level = some r := hr
  rw [Sees, hx] at hL
  exact (h.expansion.fits.get hx mem).trans hL

/-- A run of the code of a marker changes no word but those of new slots and of bound variables. -/
theorem memory_eq_of_kept (h : t.Writes x m id σ y)
    (hrun : exec w (written σ ((t.context x id).steps m)) (start mem) = some s) {j : Nat}
    (hnew : ∀ a ∈ t.allotted, ¬ a.1.Covers a.2 j)
    (hkept : ∀ v, .store v ∈ (t.context x id).steps m → x.cycle.isBound v = true →
      (σ.slot v).Covers v.type j → s.memory.get σ v = mem.get σ v) : s.memory j = mem j := by
  refine Context.memory_steps hrun fun v hv hcovers => ?_
  cases hb : x.cycle.isBound v with
  | false => exact absurd hcovers (hnew _ (h.allotted_of_store hv hb))
  | true => exact hkept v hv hb hcovers

theorem exists_entry_meaning (h : t.Writes x m id σ y) (hm : m.kind = .entry)
    (hsound : x.tracking.Sound) (hc : x.cycle.Coherent x.tracking) (hfresh : ¬ x.cycle.Entered)
    (hT : x.tracking.timed = true ∨ x.tracking.isSampled = true) (w : World) (mem : Memory) :
    ∃ s, Reaches t.emitted w (start mem) s ∧ s.Over t.emitted ∧ s.going = none ∧ s.stack = [] ∧
      ∀ L, Sees x.cycle mem s L → t.EntryMeaning x y (.ofNat id) mem L s := by
  let z : Context := t.context x id
  have hreset : m.kind ≠ .reset := by simp [hm]
  have hsteps : z.steps m = z.entrySteps := by rw [Context.steps, hm]
  have hfits : σ.Fits y.cycle := h.fits_after hreset
  have hafter : y.cycle.Coherent x.tracking := h.cycle ▸ Cycle.Coherent.steps (x := z) hsound hc m σ
  have hentered : y.cycle.Entered := by
    rw [h.cycle, show (t.context x id).steps m = _ from hsteps]
    exact z.entered_entrySteps hsound hc hT σ
  have hholds {v : Var} (hv : v ∈ x.tracking.entryVars) {s : Machine} {c : Const}
      (hget : s.memory.get σ v = c) : y.cycle.Holds s.memory v c :=
    Cycle.holds_of_get hfits (hafter.entry hentered v hv) hget
  obtain ⟨call, hcall⟩ := (Context.exists_call_iff (x := z) hsound).2 hT
  obtain ⟨s, L₀, zs, hrun, hgo, hst, hz, hdef, hlevel, hj, heffect⟩ :=
    z.exists_entry_run (w := w) (σ := σ) hsound hfresh hcall (going_start mem)
  have hrun' : exec w (written σ (z.steps m)) (start mem) = some s := hsteps ▸ hrun
  obtain ⟨hreach, hover⟩ := h.reaches_over hrun'
  refine ⟨s, hreach, hover, hgo, hst, fun L hL => ?_⟩
  have hskips : x.tracking.gate.Skips L₀ ↔ ¬ x.tracking.Admits L :=
    (hj.skips_iff h.expansion.fits hL).trans (x.tracking.skips_gate_iff L)
  have htime (ht : x.tracking.timed = true) : .entryTs ∈ x.tracking.entryVars :=
    Tracking.mem_entryVars.2 (.inl ⟨rfl, ht⟩)
  have hhit (hs : x.tracking.isSampled = true) : .sampleHit ∈ x.tracking.entryVars :=
    Tracking.mem_entryVars.2 (.inr ⟨rfl, hs⟩)
  have hstored (hs : .store .level ∈ z.steps m) : s.memory.get σ .level = .int L₀ :=
    hlevel (Context.of_store_level_entry hsound hc (hsteps ▸ hs)).1
  have hkept {v : Var} (hs : .store v ∈ z.steps m) (hb : x.cycle.isBound v = true) :
      s.memory.get σ v = mem.get σ v := by
    cases v with
    | entryTs => exact absurd (.inl hb) hfresh
    | sampleHit => exact absurd (.inr hb) hfresh
    | duration =>
      have hnil : zs = [] := by
        by_contra hne
        exact Bool.false_ne_true ((hdef.1 hne).2.symm.trans hb)
      exact hz.value.trans (if_pos hnil)
    | level => exact (hstored hs).trans (hj.bound hb).symm
  refine ⟨fun hadm => ?_, fun hadm => ?_, fun ht hb => ?_, hafter.level hentered, fun r hr => ?_,
    fun j hnew => h.memory_eq_of_kept hrun' hnew fun v hs hb _ => hkept hs hb⟩
  · cases heffect with
    | skipped skips => exact absurd hadm (hskips.1 skips)
    | @called e c r _ insn call_eq arguments result time hit noted =>
      refine ⟨c, r, ⟨e, ?_, insn, arguments, result⟩, ?_, ?_, fun ht => hholds (htime ht) (time ht),
        fun hs => hholds (hhit hs) (hit hs)⟩
      · rw [calls_of_notes noted, List.filter_cons_of_pos (by rw [insn]; rfl), hz.filter_isCall]
      · exact Tracking.eq_nanoTime_of_call? call_eq
      · exact Tracking.exists_sampler_of_call? hsound call_eq
  · cases heffect with
    | skipped _ vars noted =>
      exact ⟨(calls_of_notes noted).trans hz.filter_isCall,
        fun ht => hholds (htime ht) (vars _ (htime ht)),
        fun hs => hholds (hhit hs) (vars _ (hhit hs))⟩
    | called passes => exact absurd (hskips.2 hadm) passes
  · refine Cycle.holds_of_get hfits (hafter.duration hentered ht) ?_
    rw [hz.value, if_neg (hdef.2 ⟨ht, hb⟩)]
  · refine h.read_level hreset hrun' hL (fun hs => ?_) hr
    have hcmp := (Context.of_store_level_entry hsound hc (hsteps ▸ hs)).1
    rw [hstored hs, hj.level_eq h.expansion.fits hL hcmp]

end Turn.Writes

namespace Session

variable {expanders : List (Nat × Settings)} {firstSlot : UInt16} {as : List (Nat × Action)}

/-- Whatever the expanders of a session were asked before, an entry that is the first of its cycle has
code with this meaning, if its expander had its records first and its expansions have succeeded. -/
theorem entry_meaning {t : Turn} (ht : t.before = (opened expanders firstSlot).actAll as)
    (hr : RecordsFirst t.index as)
    (hs : ∀ u ∈ (opened expanders firstSlot).turns as, u.index = t.index → u.Succeeds)
    (hopen : hasEntry (openMarkers (asked t.index as)) = false) {m : Marker}
    (ha : t.action = .expand m) (he : t.error? = none) {x : Expander} (hx : t.expander? = some x)
    {id : Nat} (hid : x.effectiveId m = .ok id) (hm : m.kind = .entry)
    (hT : x.tracking.timed = true ∨ x.tracking.isSampled = true) :
    ∃ y, t.after.expanders[t.index]? = some y ∧ ∀ w mem, ∃ s, Reaches t.emitted w (start mem) s ∧
      s.Over t.emitted ∧ s.going = none ∧ s.stack = [] ∧
        ∀ L, Sees x.cycle mem s L → t.EntryMeaning x y (.ofNat id) mem L s := by
  obtain ⟨id', σ, y, hw, hsound, hc, hentered⟩ := exists_writes_of_recordsFirst ht hr hs hx ha he
  obtain rfl : id' = id := Except.ok.inj (hw.expansion.id_eq.symm.trans hid)
  refine ⟨y, hw.expander_after, fun w mem => ?_⟩
  exact hw.exists_entry_meaning hm hsound hc (fun h => by simp [hentered h] at hopen) hT w mem

/-- A test before the entry has given the level its slot, so the entry decides by what the slot holds. -/
theorem entry_meaning_afterTest :
    let entry := ((Marker.ofKind .entry).withFlag "timed").withTag "level" "[1,3]"
    let test := (Marker.ofKind .test).withFlag "timed"
    let as := [(0, Action.record entry), (0, .expand test)]
    let t : Turn := ⟨(opened [(7, {})] 0).actAll as, 0, .expand entry⟩
    t.error? = none ∧ ∃ x y, t.expander? = some x ∧ x.cycle.slot? .level = some ⟨2⟩ ∧
      t.after.expanders[0]? = some y ∧ ∀ w mem, ∃ s, Reaches t.emitted w (start mem) s ∧
        s.Over t.emitted ∧
          (mem.read .int ⟨2⟩ = .int 2 →
            ∃ r, s.CalledOnce .nanoTime 7 r ∧ y.cycle.Holds s.memory .entryTs r) ∧
          (mem.read .int ⟨2⟩ = .int 5 →
            s.calls = [] ∧ y.cycle.Holds s.memory .entryTs (.long 0)) := by
  intro entry test as t
  let x : Expander := t.before.expanders.get ⟨0, by decide⟩
  have he : t.error? = none := by decide
  have hslot : x.cycle.slot? .level = some ⟨2⟩ := by decide
  have hs : ∀ u ∈ (opened [(7, {})] 0).turns as, u.index = 0 → u.Succeeds :=
    fun u hu _ => Turn.succeeds_of_all (by decide) hu
  have hid : x.effectiveId entry = .ok 7 := rfl
  obtain ⟨y, hy, hruns⟩ :=
    entry_meaning (t := t) rfl (by decide) hs (by decide) rfl he rfl hid rfl (.inl rfl)
  refine ⟨he, x, y, rfl, hslot, hy, fun w mem => ?_⟩
  obtain ⟨s, hreach, hover, -, -, hmeaning⟩ := hruns w mem
  have hsees {L : Int32} (hL : mem.read .int ⟨2⟩ = .int L) := sees_of_slot hslot hL s
  refine ⟨s, hreach, hover, fun hL => ?_, fun hL => ?_⟩
  · obtain ⟨c, r, hc, hclock, -, htime, -⟩ := (hmeaning 2 (hsees hL)).called (by decide)
    exact ⟨r, hclock rfl ▸ hc, htime rfl⟩
  · obtain ⟨hnone, htime, -⟩ := (hmeaning 5 (hsees hL)).skipped (by decide)
    exact ⟨hnone, htime rfl⟩

end Session

end MethodProbes
