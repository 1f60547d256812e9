import MethodProbes.Proofs.Code.Slots
import MethodProbes.Proofs.Cycles.CallCounts
import MethodProbes.Proofs.Expansion.SlotUse
import MethodProbes.Proofs.Session.Turns
import MethodProbes.Proofs.Tracking.Recorded

/-!
# The slots of a method, in closed form

A cycle fills the slots of its entry's answer and of the level that its gates read.  All cycles share
the slot of the duration.  Slots are handed out one behind the other, so a method is expanded exactly
if all of them fit behind the first free one.
-/
namespace MethodProbes

open Step

namespace Tracking

variable (t : Tracking)

def slotsIn (ms : List Marker) : Nat :=
  (if hasEntry ms then 2 * t.timed.toNat + t.isSampled.toNat else 0) + t.levelReadsIn ms

/-- Number of slot indices that a method fills. -/
def slotDemand (ms : List Marker) : Nat :=
  (if t.timed && (hasEntry ms || hasTimedTest ms) then 2 else 0) +
    ((cyclesOf ms).map t.slotsIn).sum

@[simp] theorem slotsIn_nil : t.slotsIn [] = 0 := by simp [slotsIn]

theorem slotsIn_le_concat (past : List Marker) (m : Marker) :
    t.slotsIn past ≤ t.slotsIn (past ++ [m]) := by
  rw [slotsIn, slotsIn, levelReadsIn, levelReadsIn, gatesIn_concat, hasEntry_concat]
  cases hasEntry past <;> cases t.gatesIn past <;> simp

theorem slotsIn_le_sum (past ms : List Marker) :
    t.slotsIn past ≤ ((cyclesFrom past ms).map t.slotsIn).sum := by
  induction ms generalizing past with
  | nil => simp
  | cons m ms ih =>
    by_cases hm : m.kind = .reset
    · rw [cyclesFrom_reset hm, List.map_cons, List.sum_cons]
      exact Nat.le_add_right _ _
    · rw [cyclesFrom_cons hm]
      exact Nat.le_trans (t.slotsIn_le_concat past m) (ih _)

end Tracking

theorem Cycle.Reflects.held_eq {t : Tracking} {past : List Marker} {c : Cycle}
    (h : c.Reflects t past) : c.held = t.slotsIn past + 2 * (c.isBound .duration).toNat := by
  rw [held, h.entryTs, h.sampleHit, h.level, Tracking.slotsIn, Tracking.levelReadsIn]
  cases hasEntry past <;> simp <;> omega

namespace Expander

variable {x y : Expander} {b : Buffer} {past ms : List Marker} {m : Marker}

/-- Number of slot indices that the open cycle and the cycles ahead fill. -/
def heldAhead (x : Expander) (past ms : List Marker) : Nat :=
  ((cyclesFrom past ms).map x.tracking.slotsIn).sum +
    2 * (x.cycle.isBound .duration || x.tracking.timed && (hasEntry ms || hasTimedTest ms)).toNat

theorem heldAhead_nil (hc : x.cycle.Reflects x.tracking past) :
    x.heldAhead past [] = x.cycle.held := by
  simp [heldAhead, hc.held_eq]

theorem heldAhead_reset (hm : m.kind = .reset) (past ms : List Marker) :
    x.heldAhead past (m :: ms) = x.tracking.slotsIn past +
      { x with cycle := x.cycle.reset }.heldAhead [] ms := by
  have hentry : hasEntry (m :: ms) = hasEntry ms := by simp [hasEntry, Marker.isEntry, hm]
  have htest : hasTimedTest (m :: ms) = hasTimedTest ms := by
    simp [hasTimedTest, Marker.isTimedTest, hm]
  have hdur : x.cycle.reset.isBound .duration = x.cycle.isBound .duration := rfl
  rw [heldAhead, heldAhead, cyclesFrom_reset hm, List.map_cons, List.sum_cons, hentry, htest, hdur,
    Nat.add_assoc]

theorem heldAhead_cons (hm : m.kind ≠ .reset) (htracking : y.tracking = x.tracking)
    (hdur : y.cycle.isBound .duration = (x.cycle.isBound .duration ||
      x.tracking.timed && (m.isEntry || m.isTimedTest))) :
    x.heldAhead past (m :: ms) = y.heldAhead (past ++ [m]) ms := by
  have hentry : hasEntry (m :: ms) = (m.isEntry || hasEntry ms) := rfl
  have htest : hasTimedTest (m :: ms) = (m.isTimedTest || hasTimedTest ms) := rfl
  rw [heldAhead, heldAhead, cyclesFrom_cons hm, hentry, htest, hdur, htracking]
  congr 3
  cases x.cycle.isBound .duration <;> cases x.tracking.timed <;> cases m.isEntry <;>
    cases m.isTimedTest <;> simp

theorem held_le_heldAhead (hc : x.cycle.Reflects x.tracking past) (ms : List Marker) :
    x.cycle.held ≤ x.heldAhead past ms := by
  rw [hc.held_eq, heldAhead]
  have hle := x.tracking.slotsIn_le_sum past ms
  cases x.cycle.isBound .duration <;> simp <;> omega

/-- What an expansion leaves that has had the slots that it needs. -/
structure Advances (x : Expander) (b : Buffer) (past : List Marker) (m : Marker) (y : Expander)
    (b' : Buffer) : Prop where
  methodId : y.methodId = x.methodId
  tracking : y.tracking = x.tracking
  reflects : y.cycle.Reflects y.tracking (openCycle past m)
  placed : Placed b' y.cycle
  room : b'.nextSlot ≤ slotSpace
  /-- The slots that are still needed end at the same index. -/
  balance (ms : List Marker) :
    b'.nextSlot + y.heldAhead (openCycle past m) ms + x.cycle.held =
      b.nextSlot + x.heldAhead past (m :: ms) + y.cycle.held

theorem advances_of_reset (hc : x.cycle.Reflects x.tracking past)
    (hb : b.nextSlot ≤ slotSpace) {b' : Buffer} (hnext : b'.nextSlot = b.nextSlot)
    (hp : Placed b' x.cycle.reset) (hm : m.kind = .reset) :
    x.Advances b past m { x with cycle := x.cycle.reset } b' where
  methodId := rfl
  tracking := rfl
  reflects := by
    rw [openCycle, if_pos hm]
    exact hc.reset
  placed := hp
  room := hnext ▸ hb
  balance ms := by
    have hheld : x.cycle.reset.held = 2 * (x.cycle.isBound .duration).toNat := by
      rw [hc.reset.held_eq, Tracking.slotsIn_nil, Nat.zero_add]
      rfl
    rw [openCycle, if_pos hm, heldAhead_reset hm, hc.held_eq, hheld, hnext]
    omega

theorem advances_of_writes (hT : x.tracking.Sound) (hc : x.cycle.Reflects x.tracking past)
    (hb : b.nextSlot ≤ slotSpace) (hm : m.kind ≠ .reset) {q : Progress}
    (hallots : Allots ⟨b, x.cycle⟩ q) {id : Nat} {σ : Layout}
    (hw : x.Writes m b id σ { x with cycle := q.cycle } q.buffer) :
    x.Advances b past m { x with cycle := q.cycle } q.buffer := by
  have hcycle : q.cycle = afterAll σ x.cycle ((x.context id b.nextLabel).steps m) :=
    congrArg Expander.cycle hw.expander
  have hreflects : q.cycle.Reflects x.tracking (past ++ [m]) :=
    hcycle ▸ hc.steps (x := x.context id b.nextLabel) hT hm σ
  have hdur : q.cycle.isBound .duration = (x.cycle.isBound .duration ||
      x.tracking.timed && (m.isEntry || m.isTimedTest)) :=
    hcycle ▸ hc.duration (x := x.context id b.nextLabel) hT hm σ
  refine ⟨rfl, rfl, ?_, hw.placed, hallots.le hb, fun ms => ?_⟩
  · rw [openCycle, if_neg hm]
    exact hreflects
  · have hnext := hallots.nextSlot
    rw [openCycle, if_neg hm, heldAhead_cons (x := x) (y := { x with cycle := q.cycle }) hm rfl hdur]
    dsimp only at hnext ⊢
    omega

/-- A marker with a good id is expanded if its slots fit. -/
theorem expand_slots (hT : x.tracking.Sound) (hc : x.cycle.Reflects x.tracking past)
    (hp : Placed b x.cycle) (hb : b.nextSlot ≤ slotSpace) (hid : ∃ id, x.effectiveId m = .ok id)
    (ms : List Marker) :
    (∃ y b' r, x.expand m b = ⟨y, b', r, none⟩ ∧ x.Advances b past m y b') ∨
      ∃ y b' r e, x.expand m b = ⟨y, b', r, some (.slotsExhausted e)⟩ ∧
        slotSpace + x.cycle.held < b.nextSlot + x.heldAhead past (m :: ms) := by
  rcases x.expand_cases m b with ⟨e, he, -⟩ | ⟨id, e, q, -, htake, hexpand⟩
  · obtain ⟨id, hid⟩ := hid
    cases he.symm.trans hid
  -- a reset gives slots up without taking any, so `takeAll_slots` does not apply to it
  by_cases hm : m.kind = .reset
  · have hsteps : (x.context id b.nextLabel).steps m = [.reset] := by rw [Context.steps, hm]
    rw [hsteps] at htake
    cases htake
    refine .inl ⟨_, _, _, hexpand, advances_of_reset hc hb rfl ?_ hm⟩
    have hreset : take ⟨b, x.cycle⟩ .reset = (none, ⟨b, x.cycle.reset⟩) := rfl
    exact hp.take hreset
  have hr : .reset ∉ (x.context id b.nextLabel).steps m :=
    ((x.context id b.nextLabel).scoped_steps hm).reset_notMem
  obtain ⟨σ, -⟩ := hp.exists_layout
  rcases takeAll_slots hr htake σ with ⟨rfl, hallots, -⟩ | ⟨f, rfl, hlt⟩
  · obtain ⟨id', σ', hw⟩ := exists_writes hp hexpand
    exact .inl ⟨_, _, _, hexpand, advances_of_writes hT hc hb hm hallots hw⟩
  · refine .inr ⟨_, _, _, f, hexpand, Nat.lt_of_lt_of_le hlt (Nat.add_le_add_left ?_ _)⟩
    let y : Expander :=
      { x with cycle := afterAll σ x.cycle ((x.context id b.nextLabel).steps m) }
    have hy : y.cycle.Reflects y.tracking (past ++ [m]) :=
      hc.steps (x := x.context id b.nextLabel) hT hm σ
    have hdur := hc.duration (x := x.context id b.nextLabel) hT hm σ
    rw [heldAhead_cons (x := x) (y := y) hm rfl hdur]
    exact held_le_heldAhead hy ms

/-- Markers with good ids are all expanded if their slots fit, and run out of slots otherwise. -/
theorem expandAll_slots (hT : x.tracking.Sound) (hc : x.cycle.Reflects x.tracking past)
    (hp : Placed b x.cycle) (hb : b.nextSlot ≤ slotSpace)
    (hids : ∀ m ∈ ms, ∃ id, x.effectiveId m = .ok id) (n : Nat) :
    ((x.expandAll b n ms).error = none ∧
      (x.expandAll b n ms).buffer.nextSlot + x.cycle.held = b.nextSlot + x.heldAhead past ms ∧
      b.nextSlot + x.heldAhead past ms ≤ slotSpace + x.cycle.held) ∨
    ∃ e, (x.expandAll b n ms).error = some (.slotsExhausted e) ∧
      slotSpace + x.cycle.held < b.nextSlot + x.heldAhead past ms := by
  -- by `Advances.balance` the slots still needed end at one index, whatever is expanded already
  induction ms generalizing x b past n with
  | nil =>
    rw [heldAhead_nil hc]
    exact .inl ⟨rfl, rfl, Nat.add_le_add_right hb _⟩
  | cons m ms ih =>
    obtain ⟨hid, hids⟩ := List.forall_mem_cons.1 hids
    rcases expand_slots hT hc hp hb hid ms with ⟨y, b', r, he, ha⟩ | ⟨y, b', r, e, he, hlt⟩
    · have hids' : ∀ m ∈ ms, ∃ id, y.effectiveId m = .ok id := by
        simpa only [effectiveId, ha.methodId] using hids
      have hbalance := ha.balance ms
      have hT' : y.tracking.Sound := ha.tracking ▸ hT
      rw [expandAll, he]
      refine (ih hT' ha.reflects ha.placed ha.room hids' b'.insns.size).imp ?_ ?_
      · rintro ⟨herror, hnext, hle⟩
        exact ⟨herror, by dsimp only; omega, by omega⟩
      · rintro ⟨e, herror, hlt⟩
        exact ⟨e, herror, by omega⟩
    · rw [expandAll, he]
      exact .inr ⟨e, rfl, hlt⟩

end Expander

namespace Buffer

theorem Keeps.expandAll {P : Buffer → Prop} (hP : Keeps P) (x : Expander) {b : Buffer} (h : P b)
    (n : Nat) (ms : List Marker) : P (x.expandAll b n ms).buffer := by
  induction ms generalizing x b n with
  | nil => exact h
  | cons m ms ih =>
    have hnext := hP.expand x m h
    rw [Expander.expandAll]
    rcases he : x.expand m b with ⟨y, c, r, _ | e⟩ <;> rw [he] at hnext
    · exact ih y hnext _
    · exact hnext

end Buffer

namespace Body

theorem result_of_recordAll {b : Body} {settings : Settings} (firstSlot : UInt16) {x : Expander}
    (h : (Expander.new b.methodId settings).recordAll b.markers = .ok x) :
    let t := x.expandAll (.empty firstSlot) 0 b.markers
    (b.attempt settings firstSlot).result = t.error.elim
      (.ok ⟨b.name, b.methodId, x.tracking, t.buffer.insns, t.spans, t.buffer.slots.size⟩)
      .error := by
  rw [attempt, h]
  dsimp only
  cases (x.expandAll (.empty firstSlot) 0 b.markers).error <;> rfl

/-- The slots of a method whose markers have no faults and good ids.  Its markers are expanded if and
only if the slots that the cycles need fit behind the first free one; the slots then lie side by side.
Otherwise it has run out of slots. -/
theorem slots_closed_form {b : Body} {settings : Settings}
    (htags : ∀ m ∈ b.markers, m.kind = .entry → m.faults = [])
    (hids : ∀ m ∈ b.markers, ∃ id, (Expander.new b.methodId settings).effectiveId m = .ok id)
    (firstSlot : UInt16) :
    let t := Tracking.initial.recordEach settings.defaultMean b.markers
    let last := firstSlot.toNat + t.slotDemand b.markers
    let x : Expander := { Expander.new b.methodId settings with tracking := t }
    let buffer := (x.expandAll (.empty firstSlot) 0 b.markers).buffer
    let result := (b.attempt settings firstSlot).result
    ((∃ M, result = .ok M) ↔ last ≤ slotSpace) ∧
    (∀ e, result = .error e → ∃ f, e = .slotsExhausted f) ∧
    ∀ M, result = .ok M → M.tracking = t ∧ M.code = buffer.insns ∧ M.slots = buffer.slots.size ∧
      Tiles firstSlot.toNat buffer.slots.toList last ∧
      ∀ i, (∃ r ∈ buffer.slots.toList, r.1.index ≤ i ∧ i < r.1.index + r.2.width) ↔
        firstSlot.toNat ≤ i ∧ i < last := by
  intro t last x buffer result
  have hrecord : (Expander.new b.methodId settings).recordAll b.markers = .ok x :=
    Expander.recordAll_of_faultless _ htags
  have hsound : x.tracking.Sound := (Expander.recordAll_eq Tracking.sound_initial hrecord).1
  have hahead : x.heldAhead [] b.markers = t.slotDemand b.markers := by
    have hdur : x.cycle.isBound .duration = false := rfl
    rw [Expander.heldAhead, cyclesFrom_empty, hdur, Bool.false_or, Tracking.slotDemand, Nat.add_comm]
    cases x.tracking.timed && (hasEntry b.markers || hasTimedTest b.markers) <;> rfl
  have htiles : Tiles firstSlot.toNat buffer.slots.toList buffer.nextSlot :=
    (Buffer.keeps_tiles _).expandAll x (b := .empty firstSlot) rfl 0 b.markers
  have hslots := Expander.expandAll_slots (x := x) (b := .empty firstSlot) hsound
    (Cycle.reflects_initial _) (.initial _) (Nat.le_of_lt firstSlot.toNat_lt) hids 0
  have hheld : x.cycle.held = 0 := rfl
  have hresult : result = (x.expandAll (.empty firstSlot) 0 b.markers).error.elim
      (.ok ⟨b.name, b.methodId, t, buffer.insns,
        (x.expandAll (.empty firstSlot) 0 b.markers).spans, buffer.slots.size⟩) .error :=
    result_of_recordAll firstSlot hrecord
  rw [hahead, hheld, Nat.add_zero, Nat.add_zero] at hslots
  rcases hslots with ⟨herror, hnext, hle⟩ | ⟨e, herror, hlt⟩
  · rw [herror] at hresult
    rw [hresult]
    have hlast : buffer.nextSlot = last := hnext
    rw [hlast] at htiles
    refine ⟨⟨fun _ => hle, fun _ => ⟨_, rfl⟩⟩, by simp, fun M hM => ?_⟩
    cases hM
    exact ⟨rfl, rfl, rfl, htiles, htiles.exists_iff⟩
  · rw [herror] at hresult
    rw [hresult]
    refine ⟨⟨by simp, fun hle => absurd hle (Nat.not_le.2 hlt)⟩, fun f hf => ?_, by simp⟩
    cases hf
    exact ⟨e, rfl⟩

/-- The last slot that fits is the last one that there is. -/
theorem slots_closed_form_full :
    let entry := ((Marker.ofKind .entry).withFlag "timed").withTag "level" "[1,3]"
    let test := (Marker.ofKind .test).withFlag "timed"
    let b : Body := ⟨"m", 7, [test, entry, .ofKind .reset, .ofKind .exit, .ofKind .reset, entry]⟩
    Tracking.slotDemand (Tracking.initial.recordEach 10 b.markers) b.markers = 8 ∧
      (∃ M, (b.attempt {} 65528).result = .ok M) ∧
      ∃ f, (b.attempt {} 65529).result = .error (.slotsExhausted f) := by
  intro entry test b
  have htags : ∀ m ∈ b.markers, m.kind = .entry → m.faults = [] := by decide
  have hid : ∀ m ∈ b.markers, (Expander.new b.methodId {}).effectiveId m = .ok 7 := by decide
  have hids : ∀ m ∈ b.markers, ∃ id, (Expander.new b.methodId {}).effectiveId m = .ok id :=
    fun m hm => ⟨7, hid m hm⟩
  have hdemand : Tracking.slotDemand (Tracking.initial.recordEach 10 b.markers) b.markers = 8 := by
    decide
  obtain ⟨hfits, -, -⟩ := slots_closed_form htags hids 65528
  obtain ⟨hruns, herror, -⟩ := slots_closed_form htags hids 65529
  refine ⟨hdemand, hfits.2 (by decide), ?_⟩
  cases hr : (b.attempt {} 65529).result with
  | error e =>
    obtain ⟨f, rfl⟩ := herror e hr
    exact ⟨f, rfl⟩
  | ok M => exact absurd (hruns.1 ⟨M, hr⟩) (by decide)

end Body

end MethodProbes
