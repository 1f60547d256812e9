import MethodProbes.Proofs.Code.Slots
import MethodProbes.Proofs.Expansion.Growth
import MethodProbes.Proofs.Session.Writes

/-!
# Slots in a run of a session

A slot is handed out once, to one variable of one expander.  Whatever the expanders of a session are
asked, and whether they fail or not, the code of an expander uses its own slots only, with the types
that they were handed out with.
-/
namespace MethodProbes

open Step

theorem Expander.exists_grows (x : Expander) (m : Marker) (b : Buffer) : ∃ code slots,
    Grows ⟨b, x.cycle⟩ ⟨(x.expand m b).buffer, (x.expand m b).expander.cycle⟩ code slots := by
  rcases x.expand_cases m b with ⟨e, -, he⟩ | ⟨id, e, q, -, hq, he⟩
  · rw [he]
    exact ⟨[], [], .refl _⟩
  · rw [he]
    exact exists_grows_takeAll (Context.bare_steps _ m) hq

namespace Session

def Holds (s : Session) (i : Nat) (v : Var) (r : Slot) : Prop :=
  ∃ x, s.expanders[i]? = some x ∧ x.cycle.slot? v = some r

end Session

namespace Turn

structure Binds (t : Turn) (v : Var) (r : Slot) : Prop where
  allotted : (r, v.type) ∈ t.allotted
  above : t.before.buffer.nextSlot ≤ r.index
  below : r.index + v.type.width ≤ t.after.buffer.nextSlot

variable {t : Turn} {i : Nat} {v : Var} {r : Slot}

/-- A turn hands out slots, uses them or held ones, and takes none from a duration. -/
structure Serves (t : Turn) : Prop where
  held : ∀ i v r, t.after.Holds i v r → t.before.Holds i v r ∨ i = t.index ∧ t.Binds v r
  used : ∀ i ∈ t.emitted, ∀ r ty, i.slot? = some (r, ty) →
    ∃ v, ty = v.type ∧ (t.before.Holds t.index v r ∨ (r, ty) ∈ t.allotted)
  duration : ∀ i r, t.before.Holds i .duration r → t.after.Holds i .duration r

/-- Nothing happens in a turn, or its expander grows. -/
theorem eq_or_grows (t : Turn) : t.after = t.before ∨ ∃ x y : Expander, t.expander? = some x ∧
    t.after.expanders = t.before.expanders.set t.index y ∧
      Grows ⟨t.before.buffer, x.cycle⟩ ⟨t.after.buffer, y.cycle⟩ t.emitted t.allotted := by
  cases t.moves with
  | nobody _ _ after => exact .inl after
  | @notes x y asked _ slots _ after =>
    have hbuffer : t.after.buffer = t.before.buffer := by rw [after]
    refine .inr ⟨x, y, asked, by rw [after], ?_⟩
    rw [emitted, allotted, hbuffer, List.drop_length, List.drop_length]
    exact .of_cycle rfl rfl rfl (fun v r hr => slots v ▸ hr) (slots _)
  | @expands x m asked _ _ expanders buffer =>
    obtain ⟨code, slots, hgrows⟩ := x.exists_grows m t.before.buffer
    refine .inr ⟨x, _, asked, expanders, ?_⟩
    rw [emitted, allotted, buffer, hgrows.writes, hgrows.allots, List.drop_left, List.drop_left]
    exact hgrows

theorem serves (t : Turn) : t.Serves := by
  rcases t.eq_or_grows with hsame | ⟨x, y, hx, hset, hgrows⟩
  · refine ⟨fun i v r h => .inl (hsame ▸ h), fun i hi => ?_, fun i r h => hsame.symm ▸ h⟩
    rw [emitted, hsame, List.drop_length] at hi
    cases hi
  have hself : t.after.expanders[t.index]? = some y := by
    rw [hset]
    exact List.getElem?_set_self (List.getElem?_eq_some_iff.1 hx).1
  have hother (i : Nat) (hi : i ≠ t.index) : t.after.expanders[i]? = t.before.expanders[i]? := by
    rw [hset, List.getElem?_set_ne (Ne.symm hi)]
  refine ⟨?_, fun i hi r ty hr => ?_, ?_⟩
  · rintro i v r ⟨z, hz, hr⟩
    by_cases hi : i = t.index
    · subst hi
      cases hself.symm.trans hz
      exact (hgrows.held v r hr).imp (fun h => ⟨x, hx, h⟩) fun h => ⟨rfl, h.1, h.2.1, h.2.2⟩
    · exact .inl ⟨z, hother i hi ▸ hz, hr⟩
  · obtain ⟨v, rfl, hv⟩ := hgrows.used i hi r ty hr
    exact ⟨v, rfl, hv.imp_left fun h => ⟨x, hx, h⟩⟩
  · rintro i r ⟨z, hz, hr⟩
    by_cases hi : i = t.index
    · subst hi
      cases Option.some.inj (hx.symm.trans hz)
      exact ⟨y, hself, hgrows.duration r hr⟩
    · exact ⟨z, (hother i hi).symm ▸ hz, hr⟩

/-- A variable that the code stores and that has no slot before gets its slot from the turn. -/
theorem Writes.allotted_of_store {x y : Expander} {m : Marker} {id : Nat} {σ : Layout}
    (h : t.Writes x m id σ y) (hs : .store v ∈ (t.context x id).steps m)
    (hb : x.cycle.isBound v = false) : (σ.slot v, v.type) ∈ t.allotted := by
  have hheld : t.after.Holds t.index v (σ.slot v) := ⟨y, h.expander_after, h.slot?_of_store hs⟩
  rcases t.serves.held t.index v _ hheld with ⟨z, hz, hold⟩ | ⟨-, hbinds⟩
  · cases h.asked.symm.trans hz
    rw [Cycle.isBound, hold] at hb
    cases hb
  · exact hbinds.allotted

end Turn

namespace Session

variable {s : Session} {as : List (Nat × Action)} {i j : Nat} {v w : Var} {r q : Slot}

theorem Placed.below (h : s.Placed) (hr : s.Holds i v r) :
    r.index + v.type.width ≤ s.buffer.nextSlot := by
  obtain ⟨x, hx, hr⟩ := hr
  exact (h x (List.mem_of_getElem? hx)).below v r hr

/-- No two variables share a word, whether they are of one expander or of two. -/
def Disjoint (s : Session) : Prop := ∀ i v r j w q, s.Holds i v r → s.Holds j w q →
  (i = j ∧ v = w ∧ r = q) ∨ r.Apart v.type q w.type

theorem Placed.eq_or_apart (h : s.Placed) (hr : s.Holds i v r) (hq : s.Holds i w q) :
    (v = w ∧ r = q) ∨ r.Apart v.type q w.type := by
  obtain ⟨x, hx, hr⟩ := hr
  obtain ⟨y, hy, hq⟩ := hq
  cases hx.symm.trans hy
  by_cases hvw : v = w
  · subst hvw
    exact .inl ⟨rfl, Option.some.inj (hr.symm.trans hq)⟩
  · exact .inr ((h x (List.mem_of_getElem? hx)).apart v w r q hvw hr hq)

theorem not_holds_opened {expanders : List (Nat × Settings)} {n : UInt16} :
    ¬ (opened expanders n).Holds i v r := fun ⟨x, hx, hr⟩ => by
  rw [cycle_of_mem_opened (List.mem_of_getElem? hx), Cycle.slot?_initial] at hr
  cases hr

theorem holds_actAll (h : (s.actAll as).Holds i v r) :
    s.Holds i v r ∨ ∃ t ∈ s.turns as, t.index = i ∧ t.Binds v r := by
  induction as generalizing s with
  | nil => exact .inl h
  | cons a as ih =>
    let t : Turn := ⟨s, a.1, a.2⟩
    rcases ih (s := t.after) h with h | ⟨u, hu, hi, hb⟩
    · exact (t.serves.held i v r h).imp_right fun ⟨hi, hb⟩ =>
        ⟨t, List.mem_cons_self, hi.symm, hb⟩
    · exact .inr ⟨u, List.mem_cons_of_mem _ hu, hi, hb⟩

/-- A slot that is handed out in a turn is apart from all that are held before. -/
theorem Disjoint.after {t : Turn} (hd : t.before.Disjoint) (h : t.before.Placed) :
    t.after.Disjoint := by
  intro i v r j w q hr hq
  rcases t.serves.held i v r hr with hr' | ⟨hi, hb⟩ <;>
    rcases t.serves.held j w q hq with hq' | ⟨hj, hb'⟩
  · exact hd i v r j w q hr' hq'
  · exact .inr (.inl (Nat.le_trans (h.below hr') hb'.above))
  · exact .inr (.inr (Nat.le_trans (h.below hq') hb.above))
  · subst hi hj
    exact ((placed_after h).eq_or_apart hr hq).imp_left (⟨rfl, ·⟩)

theorem disjoint_actAll (h : s.Placed) (hd : s.Disjoint) : (s.actAll as).Disjoint :=
  (actAll_induction (P := fun s => s.Placed ∧ s.Disjoint) ⟨h, hd⟩
    fun _ _ h => ⟨placed_after h.1, h.2.after h.1⟩).2

theorem duration_actAll (h : s.Holds i .duration r) : (s.actAll as).Holds i .duration r :=
  actAll_induction (P := (·.Holds i .duration r)) h fun t _ => t.serves.duration i r

/-- A slot that is held before a run is apart from all that the run hands out. -/
theorem Placed.apart_actAll (h : s.Placed) (hr : s.Holds i v r) (hq : (s.actAll as).Holds j w q)
    (hnew : ¬ s.Holds j w q) : r.Apart v.type q w.type := by
  obtain ⟨t, ht, -, hb⟩ := (holds_actAll hq).resolve_left hnew
  have hnext := (extends_of_mem_turns ht).1.nextSlot
  exact .inl (Nat.le_trans (h.below hr) (Nat.le_trans hnext hb.above))

/-- Behind a reset an expander holds no slot but that of the duration. -/
theorem not_holds_of_reset {t : Turn} (h : t.before.Placed) {m : Marker}
    (ha : t.action = .expand m) (hm : m.kind = .reset) (he : t.error? = none) (hv : v ≠ .duration) :
    ¬ t.after.Holds t.index v r := by
  rintro ⟨z, hz, hr⟩
  cases hx : t.expander? with
  | none =>
    rw [Turn.after_of_none hx] at hz
    cases hx.symm.trans hz
  | some x =>
    obtain ⟨id, σ, y, hw⟩ := Turn.exists_writes h hx ha he
    cases hw.expander_after.symm.trans hz
    rw [hw.cycle, Context.steps, hm] at hr
    simp [after, hv] at hr

/-- How the slots of a run are owned.  The run may stop anywhere, and `bs` is how it goes on. -/
structure SlotsOwned (s : Session) (as : List (Nat × Action)) : Prop where
  /-- A slot that an expander holds was handed out to it, with the type of the variable. -/
  allotted : ∀ i v r, (s.actAll as).Holds i v r →
    ∃ t ∈ s.turns as, t.index = i ∧ (r, v.type) ∈ t.allotted
  /-- The code that an expander has written uses slots that were handed out to it, with their
  types. -/
  used : ∀ t ∈ s.turns as, ∀ i ∈ t.emitted, ∀ r ty, i.slot? = some (r, ty) →
    (s.actAll as).buffer.slotType? r = some ty ∧
      ∃ u ∈ s.turns as, u.index = t.index ∧ (r, ty) ∈ u.allotted
  /-- Whatever is held now and then is apart, unless it is one slot of one variable of one
  expander. -/
  apart : ∀ bs i v r j w q, (s.actAll as).Holds i v r → (s.actAll (as ++ bs)).Holds j w q →
    (i = j ∧ v = w ∧ r = q) ∨ r.Apart v.type q w.type
  /-- Behind a reset an expander holds no slot from before it, but for that of the duration. -/
  renewed : ∀ bs cs i m, m.kind = .reset →
    (Turn.mk (s.actAll (as ++ bs)) i (.expand m)).error? = none →
    ∀ v r j w q, v ≠ .duration → (s.actAll as).Holds j w q →
      (s.actAll (as ++ bs ++ (i, .expand m) :: cs)).Holds i v r → q.Apart w.type r v.type
  /-- A duration keeps its slot for good. -/
  duration : ∀ bs i r, (s.actAll as).Holds i .duration r →
    (s.actAll (as ++ bs)).Holds i .duration r

section
variable {expanders : List (Nat × Settings)} {firstSlot : UInt16} {ty : ValueType}

theorem allotted_of_holds (h : ((opened expanders firstSlot).actAll as).Holds i v r) :
    ∃ t ∈ (opened expanders firstSlot).turns as, t.index = i ∧ (r, v.type) ∈ t.allotted := by
  obtain ⟨t, ht, hi, hb⟩ := (holds_actAll h).resolve_left not_holds_opened
  exact ⟨t, ht, hi, hb.allotted⟩

theorem allotted_of_used {t : Turn} (ht : t ∈ (opened expanders firstSlot).turns as) {insn : Insn}
    (hi : insn ∈ t.emitted) (hr : insn.slot? = some (r, ty)) :
    ∃ u ∈ (opened expanders firstSlot).turns as, u.index = t.index ∧ (r, ty) ∈ u.allotted := by
  obtain ⟨v, rfl, hv | hv⟩ := t.serves.used insn hi r ty hr
  · obtain ⟨pre, post, rfl, hbefore⟩ := exists_of_mem_turns ht
    obtain ⟨u, hu, hslot⟩ := allotted_of_holds (hbefore ▸ hv)
    refine ⟨u, ?_, hslot⟩
    rw [turns_append]
    exact List.mem_append_left _ hu
  · exact ⟨t, ht, rfl, hv⟩

theorem slotType?_of_allotted {t : Turn} (ht : t ∈ (opened expanders firstSlot).turns as)
    (hr : (r, ty) ∈ t.allotted) :
    ((opened expanders firstSlot).actAll as).buffer.slotType? r = some ty := by
  have hallots : ((opened expanders firstSlot).actAll as).buffer.Allots :=
    Buffer.keeps_allots.actAll (s := opened expanders firstSlot) ⟨nofun, .nil⟩ as
  have hslots := (extends_of_mem_turns ht).2.slots
  exact hallots.slotType?_eq (hslots.subset (List.drop_subset _ _ hr))

end

/-- A slot that is held before a reset is apart from all that the expander holds behind it, but for
the slot of the duration. -/
theorem Placed.apart_of_reset (h : s.Placed) (hq : s.Holds j w q) {bs cs : List (Nat × Action)}
    {m : Marker} (hm : m.kind = .reset) (he : (Turn.mk (s.actAll bs) i (.expand m)).error? = none)
    (hv : v ≠ .duration) (hr : (s.actAll (bs ++ (i, .expand m) :: cs)).Holds i v r) :
    q.Apart w.type r v.type := by
  let t : Turn := ⟨s.actAll bs, i, .expand m⟩
  have hnone : ¬ t.after.Holds i v r :=
    not_holds_of_reset (t := t) (placed_actAll h bs) rfl hm he hv
  rw [actAll_append] at hr
  obtain ⟨u, hu, -, hb⟩ := (holds_actAll (s := t.after) hr).resolve_left hnone
  have hbefore : s.buffer.nextSlot ≤ t.after.buffer.nextSlot :=
    Nat.le_trans (s.extends_actAll bs).nextSlot t.extends_after.nextSlot
  have hnext := Nat.le_trans hbefore (extends_of_mem_turns hu).1.nextSlot
  exact .inl (Nat.le_trans (h.below hq) (Nat.le_trans hnext hb.above))

theorem slotsOwned (expanders : List (Nat × Settings)) (firstSlot : UInt16)
    (as : List (Nat × Action)) : (opened expanders firstSlot).SlotsOwned as := by
  have hopened := placed_opened expanders firstSlot
  have hplaced : ((opened expanders firstSlot).actAll as).Placed := placed_actAll hopened as
  have hdisjoint : ((opened expanders firstSlot).actAll as).Disjoint :=
    disjoint_actAll hopened fun _ _ _ _ _ _ h => absurd h not_holds_opened
  refine ⟨fun i v r => allotted_of_holds, fun t ht i hi r ty hr => ?_,
    fun bs i v r j w q hr hq => ?_, fun bs cs i m hm he v r j w q hv hq hr => ?_,
    fun bs i r h => ?_⟩
  · obtain ⟨u, hu, hslot⟩ := allotted_of_used ht hi hr
    exact ⟨slotType?_of_allotted hu hslot.2, u, hu, hslot⟩
  · rw [actAll_append] at hq
    by_cases hold : ((opened expanders firstSlot).actAll as).Holds j w q
    · exact hdisjoint i v r j w q hr hold
    · exact .inr (hplaced.apart_actAll hr hq hold)
  · rw [actAll_append] at he
    rw [List.append_assoc, actAll_append] at hr
    exact hplaced.apart_of_reset hq hm he hv hr
  · rw [actAll_append]
    exact duration_actAll h

/-- An expansion that runs out of slots has handed out the slot of the duration, which is held. -/
example :
    let entry := (Marker.ofKind .entry).withFlag "timed"
    let s := (opened [(7, {})] 65533).actAll [(0, .record entry), (0, .expand entry)]
    s.buffer.slots = #[(⟨65533⟩, .long)] ∧
      s.expanders.map (·.cycle.slot? .duration) = [some ⟨65533⟩] ∧
      s.expanders.map (·.cycle.slot? .entryTs) = [none] := by
  decide

end Session

end MethodProbes
