import MethodProbes.Proofs.Expansion.EarlyStores
import MethodProbes.Proofs.Expansion.SlotUse
import MethodProbes.Proofs.Script.Rows
import MethodProbes.Proofs.Session.Asked

/-!
# What a failed expansion leaves behind

An expansion without a good id changes nothing.  One that runs out of slots stops at a store, which
stands before the first jump, label and frame of its marker, so what it leaves in the code is straight.
Both hold whatever else failed before.
-/
namespace MethodProbes

open Step

namespace Step

variable {p q : Progress} {s : Step} {ss : List Step}

/-- The only step that fails is a store of a variable that has no slot, when there is no room for it. -/
theorem take_eq_some {e : SlotsExhausted} (h : s.take p = (some e, q)) : q = p ∧ ∃ v, s = store v ∧
    p.cycle.slot? v = none ∧ p.buffer.storeNew v.type = (.error e, p.buffer) := by
  obtain ⟨b, c⟩ := p
  cases s with
  | store v =>
    cases hv : c.slot? v with
    | some r =>
      simp only [take, hv, Buffer.storeInto] at h
      cases h
    | none =>
      simp only [take, hv, Buffer.storeInto] at h
      by_cases hb : b.nextSlot + v.type.width ≤ slotSpace
      · rw [Buffer.storeNew_of_le hb] at h
        cases h
      · have hfull := Buffer.storeNew_of_lt (Nat.lt_of_not_le hb)
        rw [hfull] at h
        cases h
        exact ⟨rfl, v, rfl, hv, hfull⟩
  | load v =>
    rw [take] at h
    split at h <;> cases h
  | _ => cases h

/-- Steps are taken up to the one that fails. -/
theorem exists_of_takeAll_some {e : SlotsExhausted} (h : takeAll p ss = (some e, q)) :
    ∃ pre v post, ss = pre ++ store v :: post ∧ takeAll p pre = (none, q) ∧
      q.cycle.slot? v = none ∧ q.buffer.storeNew v.type = (.error e, q.buffer) := by
  induction ss generalizing p with
  | nil => cases h
  | cons s ss ih =>
    rcases hs : s.take p with ⟨_ | e', o⟩
    · rw [takeAll_cons_none hs] at h
      obtain ⟨pre, v, post, rfl, hpre, hv⟩ := ih h
      exact ⟨s :: pre, v, post, rfl, (takeAll_cons_none hs pre).trans hpre, hv⟩
    · rw [takeAll_cons_some hs] at h
      cases h
      obtain ⟨rfl, v, rfl, hv⟩ := take_eq_some hs
      exact ⟨[], v, ss, rfl, rfl, hv⟩

/-- A variable that has a slot keeps it unless a new cycle starts. -/
theorem slot?_takeAll {e : Option SlotsExhausted} (h : takeAll p ss = (e, q)) (hr : reset ∉ ss)
    {v : Var} {r : Slot} (hv : p.cycle.slot? v = some r) : q.cycle.slot? v = some r := by
  induction ss generalizing p with
  | nil =>
    cases h
    exact hv
  | cons s ss ih =>
    obtain ⟨hs, hr⟩ := not_or.1 (mt List.mem_cons.2 hr)
    rcases ht : s.take p with ⟨e', o⟩
    have ho : o.cycle.slot? v = some r := by
      obtain ⟨b, c⟩ := p
      cases s with
      | reset => exact absurd rfl hs
      | load u =>
        rw [take] at ht
        split at ht <;> cases ht <;> exact hv
      | store u =>
        rcases take_store_cases b c u with ⟨k, hk, heq⟩ | ⟨hk, heq⟩ | ⟨-, e, heq⟩ <;>
          cases ht.symm.trans heq
        · exact (Placed.slot?_bind_self hk v).trans hv
        · have hne : v ≠ u := by
            rintro rfl
            cases hk.symm.trans hv
          exact (Cycle.slot?_bind c u v _).trans ((if_neg hne).trans hv)
        · exact hv
      | await l | settle | measured =>
        cases ht
        cases v <;> exact hv
      | _ =>
        cases ht
        exact hv
    cases e' with
    | none =>
      rw [takeAll_cons_none ht] at h
      exact ih h hr ho
    | some e' =>
      rw [takeAll_cons_some ht] at h
      cases h
      exact ho

theorem isBound_takeAll (h : takeAll p ss = (none, q)) (hr : reset ∉ ss) (v : Var) :
    q.cycle.isBound v = true ↔ store v ∈ ss ∨ p.cycle.isBound v = true := by
  obtain ⟨σ, -⟩ := (Placed.initial p.buffer).exists_layout
  rcases takeAll_slots hr h σ with ⟨-, -, hbound⟩ | ⟨f, hf, -⟩
  · rw [hbound, isBound_afterAll σ hr]
  · cases hf

end Step

namespace Buffer

structure GoesStraight (b b' : Buffer) : Prop where
  code : ∃ is, b'.code = b.code ++ is ∧ ∀ i ∈ is, i.labelName? = none
  placed : b'.placed = b.placed

namespace GoesStraight

variable {b b' b'' : Buffer}

theorem of_same (hcode : b'.code = b.code) (hplaced : b'.placed = b.placed) : b.GoesStraight b' :=
  ⟨⟨[], hcode.trans (List.append_nil _).symm, nofun⟩, hplaced⟩

theorem trans (h : b.GoesStraight b') (h' : b'.GoesStraight b'') : b.GoesStraight b'' := by
  obtain ⟨is, his, hno⟩ := h.code
  obtain ⟨js, hjs, hno'⟩ := h'.code
  refine ⟨⟨is ++ js, ?_, List.forall_mem_append.2 ⟨hno, hno'⟩⟩, h'.placed.trans h.placed⟩
  rw [hjs, his, List.append_assoc]

theorem emit (b : Buffer) {i : Insn} (hi : i.labelName? = none) : b.GoesStraight (b.emit i) := by
  refine ⟨⟨[i], b.code_emit i, fun j hj => List.mem_singleton.1 hj ▸ hi⟩, ?_⟩
  cases i with
  | label l => cases hi
  | _ => rfl

theorem dangling_eq (h : b.GoesStraight b') : b'.dangling = b.dangling := by
  obtain ⟨is, his, hno⟩ := h.code
  have htarget : is.filterMap Insn.target? = [] := by
    refine List.filterMap_eq_nil_iff.2 fun i hi => ?_
    cases i with
    | jump c l => cases hno _ hi
    | _ => rfl
  simp only [dangling, position?, his, List.filterMap_append, htarget, List.append_nil, h.placed]

end GoesStraight

end Buffer

namespace Step

variable {p q : Progress} {ss : List Step} {e : Option SlotsExhausted}

theorem goesStraight_take {s : Step} (h : s.take p = (e, q)) (hs : s.isFlow = false) :
    p.buffer.GoesStraight q.buffer := by
  obtain ⟨b, c⟩ := p
  cases s with
  | emit i =>
    cases h
    refine .emit b ?_
    cases i <;> first | rfl | cases hs
  | load v =>
    rw [take] at h
    split at h <;> cases h
    · exact .emit b rfl
    · exact .of_same rfl rfl
  | store v =>
    rcases take_store_cases b c v with ⟨r, -, ht⟩ | ⟨-, ht⟩ | ⟨-, f, ht⟩ <;> cases h.symm.trans ht
    · exact .emit b rfl
    · have hreserve : b.GoesStraight (b.reserve v.type) := .of_same rfl rfl
      exact hreserve.trans (.emit _ rfl)
    · exact .of_same rfl rfl
  | _ =>
    cases h
    exact .of_same rfl rfl

theorem goesStraight_takeAll (h : takeAll p ss = (e, q)) (hs : Straight ss) :
    p.buffer.GoesStraight q.buffer := by
  induction ss generalizing p with
  | nil =>
    cases h
    exact .of_same rfl rfl
  | cons s ss ih =>
    obtain ⟨hfirst, hrest⟩ := List.forall_mem_cons.1 hs
    rcases ht : s.take p with ⟨_ | f, o⟩
    · rw [takeAll_cons_none ht] at h
      exact (goesStraight_take ht hfirst).trans (ih h hrest)
    · rw [takeAll_cons_some ht] at h
      cases h
      exact goesStraight_take ht hfirst

/-- Steps stand before the first jump, label and frame if the first store of some variable does that stands
behind them. -/
theorem straight_of_early {pre post : List Step} {v : Var} (h : store v ∈ early (pre ++ store v :: post))
    (hpre : store v ∉ pre) : Straight pre := by
  intro s hs
  rw [← Bool.not_eq_true]
  intro hflow
  obtain ⟨a, b, rfl⟩ := List.append_of_mem hs
  rw [List.append_assoc, List.cons_append] at h
  exact hpre (List.mem_append_left _ (mem_of_mem_early hflow h))

end Step

namespace Context

variable {x : Context} {m : Marker}

theorem straight_of_takeAll_some (hc : x.cycle.Backed x.tracking) {b : Buffer} {q : Progress}
    {pre post : List Step} {v : Var} (hss : x.steps m = pre ++ .store v :: post)
    (h : takeAll ⟨b, x.cycle⟩ pre = (none, q)) (hv : q.cycle.slot? v = none) : Straight pre := by
  have hmem : .store v ∈ x.steps m := hss ▸ List.mem_append_right _ List.mem_cons_self
  have hr : .reset ∉ pre := fun hr => reset_notMem_of_store hmem (hss ▸ List.mem_append_left _ hr)
  have hfree : ¬ q.cycle.isBound v = true := by simp [Cycle.isBound, hv]
  rw [isBound_takeAll h hr, not_or] at hfree
  have hearly := (storesEarly_steps hc m v hmem).resolve_left hfree.2
  rw [hss] at hearly
  exact straight_of_early hearly hfree.1

/-- Before it decides about the sample, an entry of a timed method gives the duration its slot. -/
theorem duration_of_sampleHit (ht : x.tracking.timed = true) {pre : List Step}
    (hpre : pre <+: x.steps m) (h : .store .sampleHit ∈ pre) :
    .store .duration ∈ pre ∨ x.cycle.isBound .duration = true := by
  have hmem := hpre.subset h
  by_cases hm : m.kind = .entry
  · obtain ⟨rest, hrest⟩ : ∃ rest, x.steps m = x.define .duration ++ rest ∨ x.steps m = [] := by
      rw [steps, hm]
      dsimp only [entrySteps]
      rw [ht]
      cases x.tracking.sampling? with
      | some s => exact ⟨_, .inl rfl⟩
      | none =>
        dsimp only
        split
        · exact ⟨[], .inr rfl⟩
        · exact ⟨_, .inl rfl⟩
    rcases hrest with hrest | hnil
    · -- the duration comes first, and the flag is not stored there
      refine (bound_or_store_mem_define .duration).symm.imp_left fun hdur => ?_
      rcases List.prefix_or_prefix_of_prefix hpre (hrest ▸ List.prefix_append _ _) with hle | hle
      · cases x.plain_of_mem_define (hle.subset h) with
        | store hv => cases List.mem_singleton.1 hv
      · exact hle.subset hdur
    · rw [hnil] at hmem
      cases hmem
  · rcases (store_mem_steps hm hmem).2 with hv | ⟨hv, -⟩ <;> cases hv

end Context

namespace Expander

variable {x : Expander} {m : Marker} {b : Buffer}

/-- An expansion keeps the duration backed, wherever it stops. -/
theorem backed_expand (h : x.cycle.Backed x.tracking) :
    (x.expand m b).expander.cycle.Backed (x.expand m b).expander.tracking := by
  rw [(x.expand_keeps m b).2]
  rcases x.expand_cases m b with ⟨e, -, he⟩ | ⟨id, e, q, -, hq, he⟩ <;> rw [he]
  · exact h
  let z := x.context id b.nextLabel
  have htaken {pre : List Step} (hpre : pre <+: z.steps m)
      (ht : takeAll ⟨b, x.cycle⟩ pre = (none, q)) : q.cycle.Backed x.tracking := by
    intro hhit htimed
    by_cases hm : m.kind = .reset
    · have hsteps : z.steps m = [.reset] := by rw [Context.steps, hm]
      rw [hsteps, List.prefix_cons_iff] at hpre
      rcases hpre with rfl | ⟨rest, rfl, hrest⟩
      · cases ht
        exact h hhit htimed
      · cases List.prefix_nil.1 hrest
        cases ht
        simp [Cycle.isBound] at hhit
    · have hr : .reset ∉ pre := fun hr => (z.scoped_steps hm).reset_notMem (hpre.subset hr)
      rw [isBound_takeAll ht hr] at hhit ⊢
      rcases hhit with hhit | hhit
      · exact z.duration_of_sampleHit htimed hpre hhit
      · exact .inr (h hhit htimed)
  cases e with
  | none => exact htaken List.prefix_rfl hq
  | some e =>
    obtain ⟨pre, v, post, hss, hpre, -⟩ := exists_of_takeAll_some hq
    exact htaken (hss ▸ List.prefix_append _ _) hpre

/-- The marker has no id that its calls could get: its tag is not a numeral of 32 signed bits that is
not negative, or it has no tag and the id of the method is too large. -/
inductive LacksId (x : Expander) (m : Marker) : String → Prop
  | tag {s : String} (h : m.tag? .methodId = some s)
    (hs : ∀ id, ¬ Script.IsId (Text.trim s.toList) id) : LacksId x m s
  | method (h : m.tag? .methodId = none) (hlt : Int32.maxValue.toInt < x.methodId) :
    LacksId x m (toString x.methodId)

theorem LacksId.unique {v w : String} (hv : x.LacksId m v) (hw : x.LacksId m w) : v = w := by
  cases hv with
  | tag h =>
    cases hw with
    | tag h' => exact Option.some.inj (h.symm.trans h')
    | method h' => cases h.symm.trans h'
  | method h =>
    cases hw with
    | tag h' => cases h.symm.trans h'
    | method => rfl

theorem effectiveId_of_tag {s : String} (h : m.tag? .methodId = some s) :
    x.effectiveId m = parseMethodId s := by
  rw [effectiveId, Marker.methodId?, h]
  dsimp only
  rw [parseMethodId]
  cases hn : Text.numeralIn? 0 maxMethodId (Text.trim s.toList) with
  | none => rfl
  | some n =>
    obtain ⟨-, -, hhi⟩ := Text.numeralIn?_eq_some_iff.1 hn
    exact if_pos (Int.toNat_le.2 hhi)

theorem effectiveId_of_no_tag (h : m.tag? .methodId = none) :
    x.effectiveId m = if x.methodId ≤ maxMethodId then .ok x.methodId
      else .error (.invalidInteger "methodid" (toString x.methodId)) := by
  rw [effectiveId, Marker.methodId?, h]
  rfl

/-- A marker has no id for its calls exactly if it is found to lack one, and the value at fault is
named. -/
theorem effectiveId_eq_error_iff {e : MarkerError} : x.effectiveId m = .error e ↔
    ∃ value, x.LacksId m value ∧ e = .invalidInteger "methodid" value := by
  cases htag : m.tag? .methodId with
  | none =>
    have hmax : ((maxMethodId : Nat) : Int) = Int32.maxValue.toInt := rfl
    rw [effectiveId_of_no_tag htag]
    constructor
    · intro h
      split at h
      · cases h
      next hlt =>
        cases h
        exact ⟨_, .method htag (by omega), rfl⟩
    · rintro ⟨value, hlacks, rfl⟩
      cases hlacks with
      | tag h => cases htag.symm.trans h
      | method h hlt => exact if_neg (by omega)
  | some s =>
    rw [effectiveId_of_tag htag, Script.parseMethodId_eq_error_iff]
    constructor
    · rintro ⟨hno, rfl⟩
      exact ⟨s, .tag htag hno, rfl⟩
    · rintro ⟨value, hlacks, rfl⟩
      cases hlacks with
      | tag h hs =>
        cases htag.symm.trans h
        exact ⟨hs, rfl⟩
      | method h => cases htag.symm.trans h

end Expander

namespace Session

variable {expanders : List (Nat × Settings)} {firstSlot : UInt16} {as : List (Nat × Action)} {i : Nat}
  {x : Expander}

theorem backed_of_recordsFirst (h : RecordsFirst i as)
    (hx : ((opened expanders firstSlot).actAll as).expanders[i]? = some x) :
    x.cycle.Backed x.tracking := by
  refine h.induction (P := fun _ x => x.cycle.Backed x.tracking) (fun _ y hy _ => ?_)
    (fun _ m y _ _ _ hy => Expander.backed_expand hy) (fun _ y hy => ?_) hx
  · intro hhit
    rw [hy] at hhit
    cases hhit
  · exact hy

end Session

namespace Turn

/-- What an expansion leaves that runs out of slots. -/
structure RunsOut (t : Turn) (x : Expander) (m : Marker) (e : SlotsExhausted) : Prop where
  /-- There is no room for a variable that the marker stores and that has no slot. -/
  wants : ∃ v id, x.effectiveId m = .ok id ∧ .store v ∈ (t.context x id).steps m ∧ e.ty = v.type ∧
    ∀ r, ¬ t.after.Holds t.index v r
  index : e.index = t.after.buffer.nextSlot
  full : 65536 < e.index + e.ty.width
  /-- The instructions that are added are no jumps, labels or frames. -/
  straight : ∀ i ∈ t.emitted, i.labelName? = none
  dangling : t.after.buffer.dangling = t.before.buffer.dangling
  /-- Slots that were handed out earlier stay so, with their types. -/
  slots : t.before.buffer.slots.toList <+: t.after.buffer.slots.toList
  /-- A variable that has a slot keeps it. -/
  held : ∀ j v r, t.before.Holds j v r → t.after.Holds j v r

variable {t : Turn} {x : Expander} {m : Marker}

theorem runsOut_of_backed (hx : t.expander? = some x) (ha : t.action = .expand m)
    (hc : x.cycle.Backed x.tracking) {e : SlotsExhausted} (he : t.error? = some (.slotsExhausted e)) :
    t.RunsOut x m e := by
  obtain ⟨herror, hexpanders, hbuffer⟩ := t.performs hx
  rw [ha, Expander.perform] at herror hexpanders hbuffer
  rcases x.expand_cases m t.before.buffer with ⟨f, hf, hexpand⟩ | ⟨id, f, q, hid, hq, hexpand⟩
  · obtain ⟨value, -, rfl⟩ := Expander.effectiveId_eq_error_iff.1 hf
    rw [hexpand, he] at herror
    cases herror
  rw [hexpand] at herror hexpanders hbuffer
  obtain ⟨f', rfl, hf'⟩ := Option.map_eq_some_iff.1 (herror.symm.trans he)
  cases hf'
  obtain ⟨pre, v, post, hss, hpre, hv, hfull⟩ := exists_of_takeAll_some hq
  have hmem : .store v ∈ (t.context x id).steps m := by
    rw [context, hss]
    exact List.mem_append_right _ List.mem_cons_self
  have hr : .reset ∉ (t.context x id).steps m := Context.reset_notMem_of_store hmem
  have hstraight := goesStraight_takeAll hpre (Context.straight_of_takeAll_some hc hss hpre hv)
  obtain ⟨code, hcode, hlabels⟩ := hstraight.code
  have hself : t.after.expanders[t.index]? = some { x with cycle := q.cycle } := by
    have hbefore : t.before.expanders[t.index]? = some x := hx
    rw [hexpanders]
    exact List.getElem?_set_self (List.getElem?_eq_some_iff.1 hbefore).1
  have hroom : e = ⟨q.buffer.nextSlot, v.type⟩ ∧ slotSpace < q.buffer.nextSlot + v.type.width := by
    by_cases hb : q.buffer.nextSlot + v.type.width ≤ slotSpace
    · rw [Buffer.storeNew_of_le hb] at hfull
      cases hfull
    · rw [Buffer.storeNew_of_lt (Nat.lt_of_not_le hb)] at hfull
      cases hfull
      exact ⟨rfl, Nat.lt_of_not_le hb⟩
  obtain ⟨rfl, hlt⟩ := hroom
  have hbuffer : t.after.buffer = q.buffer := hbuffer
  refine ⟨⟨v, id, hid, hmem, rfl, ?_⟩, by rw [hbuffer], hlt, ?_, ?_, t.extends_after.slots, ?_⟩
  · rintro r ⟨z, hz, hr⟩
    cases hself.symm.trans hz
    cases hv.symm.trans hr
  · have hemitted : t.emitted = code := by
      rw [emitted, hbuffer, hcode, List.drop_left]
    rwa [hemitted]
  · rw [hbuffer]
    exact hstraight.dangling_eq
  · rintro j w r ⟨z, hz, hw⟩
    by_cases hj : j = t.index
    · subst hj
      cases hx.symm.trans hz
      exact ⟨_, hself, slot?_takeAll hq hr hw⟩
    · exact ⟨z, (t.expanders_ne hj).trans hz, hw⟩

/-- An expansion without a good id leaves everything as it was, and any other one can only run out of
slots. -/
theorem error_of_expansion (hx : t.expander? = some x) (ha : t.action = .expand m) :
    (∃ value, x.LacksId m value ∧ t.error? = some (.invalidInteger "methodid" value) ∧
        t.after = t.before) ∨
      (∀ value, ¬ x.LacksId m value) ∧ ∀ e, t.error? = some e → ∃ r, e = .slotsExhausted r := by
  obtain ⟨⟨xs, b, c⟩, i, a⟩ := t
  have hx : xs[i]? = some x := hx
  obtain ⟨hlt, rfl⟩ := List.getElem?_eq_some_iff.1 hx
  cases ha
  rcases xs[i].expand_cases m b with ⟨e, he, hexpand⟩ | ⟨id, f, q, hid, -, hexpand⟩
  · obtain ⟨value, hlacks, rfl⟩ := Expander.effectiveId_eq_error_iff.1 he
    refine .inl ⟨value, hlacks, ?_, ?_⟩
    · simp [error?, Session.act, hlt, hexpand]
    · simp [after, Session.act, hlt, hexpand, Counters.registerAll]
  · refine .inr ⟨fun value hlacks => ?_, fun e he => ?_⟩
    · have herror := Expander.effectiveId_eq_error_iff.2 ⟨value, hlacks, rfl⟩
      cases hid.symm.trans herror
    · have he : f.map MarkerError.slotsExhausted = some e := by
        simpa [error?, Session.act, hlt, hexpand] using he
      obtain ⟨r, -, rfl⟩ := Option.map_eq_some_iff.1 he
      exact ⟨r, rfl⟩

end Turn

namespace Session

variable {expanders : List (Nat × Settings)} {firstSlot : UInt16} {as : List (Nat × Action)}

/-- There are two ways in which an expansion fails, whatever has failed before, if the expander is asked
for its records first.  The marker may lack an id: then everything stays as it was.  Or the slots run
out: then the code goes straight on, and the labels that dangle and the earlier slots stay as they
were. -/
theorem failure_of_expansion {t : Turn} {x : Expander} {m : Marker}
    (ht : t ∈ (opened expanders firstSlot).turns as) (hr : RecordsFirst t.index as)
    (hx : t.expander? = some x) (ha : t.action = .expand m) :
    (∀ tag value, t.error? = some (.invalidInteger tag value) ↔ tag = "methodid" ∧ x.LacksId m value) ∧
      (∀ tag value, t.error? = some (.invalidInteger tag value) → t.after = t.before) ∧
      ∀ e, t.error? = some e →
        (∃ tag value, e = .invalidInteger tag value) ∨ ∃ r, e = .slotsExhausted r ∧ t.RunsOut x m r := by
  obtain ⟨pre, post, rfl, hbefore⟩ := exists_of_mem_turns ht
  have hreached : ((opened expanders firstSlot).actAll pre).expanders[t.index]? = some x := hbefore ▸ hx
  have hc : x.cycle.Backed x.tracking := backed_of_recordsFirst hr.of_append hreached
  rcases t.error_of_expansion hx ha with ⟨value, hlacks, herror, hafter⟩ | ⟨hno, herror⟩
  · refine ⟨fun tag v => ?_, fun _ _ _ => hafter, fun e he => .inl ⟨"methodid", value, ?_⟩⟩
    · rw [herror, Option.some.injEq, MarkerError.invalidInteger.injEq, eq_comm]
      refine and_congr_right fun _ => ⟨?_, hlacks.unique⟩
      rintro rfl
      exact hlacks
    · exact Option.some.inj (he.symm.trans herror)
  · refine ⟨fun tag v => ?_, fun tag v he => ?_, fun e he => ?_⟩
    · refine iff_of_false (fun he => ?_) fun h => hno v h.2
      obtain ⟨r, hr⟩ := herror _ he
      cases hr
    · obtain ⟨r, hr⟩ := herror _ he
      cases hr
    · obtain ⟨r, rfl⟩ := herror e he
      exact .inr ⟨r, rfl, Turn.runsOut_of_backed hx ha hc he⟩

/-- Behind a failure the slots run out once more, at the time of entry. -/
theorem failure_of_expansion_twice :
    let entry := ((Marker.ofKind .entry).withFlag "timed").withTag "level" "[1,3]"
    let as : List (Nat × Action) := [(0, .record entry), (1, .record entry), (0, .expand entry)]
    let t : Turn := ⟨(opened [(7, {}), (8, {})] 65533).actAll as, 0, .expand entry⟩
    t.error? = some (.slotsExhausted ⟨65535, .long⟩) ∧ t.emitted.length = 1 ∧
      ∃ x, t.RunsOut x entry ⟨65535, .long⟩ := by
  intro entry as t
  let s := opened [(7, {}), (8, {})] 65533
  have ht : t ∈ s.turns (as ++ [(0, .expand entry)]) := by
    rw [turns_concat]
    exact List.mem_append_right _ List.mem_cons_self
  have herror : t.error? = some (.slotsExhausted ⟨65535, .long⟩) := by decide
  let x : Expander := t.before.expanders.get ⟨0, by decide⟩
  obtain ⟨-, -, hall⟩ := failure_of_expansion (x := x) ht (by decide) rfl rfl
  refine ⟨herror, by decide, x, ?_⟩
  rcases hall _ herror with ⟨tag, value, he⟩ | ⟨r, he, hout⟩
  · cases he
  · cases he
    exact hout

end Session

end MethodProbes
