import MethodProbes.Proofs.Expansion.Renaming
import MethodProbes.Proofs.Session.Dangling
import MethodProbes.Proofs.Session.Slots

/-!
# One expander in two sessions

An expander that is asked the same in two sessions writes the same code under other names, whatever the
other expanders of the sessions do.  Names that a session has not handed out yet occur nowhere in it, so
they may be changed later.
-/
namespace MethodProbes

open Step

namespace Insn

def labelName? : Insn → Option Label
  | jump _ l | label l | frame l => some l
  | _ => none

/-- Only the names in an instruction count. -/
theorem rename_congr {r r' : Renaming} {i : Insn}
    (hs : ∀ s ty, i.slot? = some (s, ty) → r.slot s.index = r'.slot s.index)
    (hl : ∀ l, i.labelName? = some l → r.label l.id = r'.label l.id) :
    i.rename r = i.rename r' := by
  cases i with
  | load ty s | store ty s => simp only [rename, Slot.rename, hs s ty rfl]
  | jump _ l | label l | frame l => simp only [rename, Label.rename, hl l rfl]
  | _ => rfl

/-- An instruction that is not changed has names that are not changed. -/
theorem names_of_rename_eq {r : Renaming} {i : Insn} (h : i.rename r = i) :
    (∀ s ty, i.slot? = some (s, ty) → r.slot s.index = s.index) ∧
      ∀ l, i.labelName? = some l → r.label l.id = l.id := by
  cases i with
  | load ty s | store ty s =>
    injection h with _ hs
    refine ⟨fun s' ty' hs' => ?_, nofun⟩
    cases hs'
    exact congrArg Slot.index hs
  | jump c l =>
    injection h with _ hl
    refine ⟨nofun, fun l' hl' => ?_⟩
    cases hl'
    exact congrArg Label.id hl
  | label l | frame l =>
    injection h with hl
    refine ⟨nofun, fun l' hl' => ?_⟩
    cases hl'
    exact congrArg Label.id hl
  | _ => exact ⟨nofun, nofun⟩

end Insn

namespace Cycle

theorem rename_congr {r r' : Renaming} {c : Cycle}
    (hs : ∀ v s, c.slot? v = some s → r.slot s.index = r'.slot s.index)
    (hl : ∀ l, c.pendingElse = some l → r.label l.id = r'.label l.id) :
    c.rename r = c.rename r' := by
  have hslot (v : Var) : (c.slot? v).map (Slot.rename r.slot) =
      (c.slot? v).map (Slot.rename r'.slot) :=
    Option.map_congr fun s h => congrArg Slot.mk (hs v s h)
  have hlabel : c.pendingElse.map (Label.rename r.label) =
      c.pendingElse.map (Label.rename r'.label) :=
    Option.map_congr fun l h => congrArg Label.mk (hl l h)
  have hts := hslot .entryTs
  have hhit := hslot .sampleHit
  have hdur := hslot .duration
  have hlevel := hslot .level
  simp only [slot?] at hts hhit hdur hlevel
  simp only [rename, hts, hhit, hdur, hlevel, hlabel]

theorem rename_eq_self {r : Renaming} {c : Cycle}
    (hs : ∀ v s, c.slot? v = some s → r.slot s.index = s.index)
    (hl : ∀ l, c.pendingElse = some l → r.label l.id = l.id) : c.rename r = c := by
  have hid : c.rename ⟨id, id⟩ = c := by
    obtain ⟨_ | _, _ | _, _ | _, _ | _, _, _ | _⟩ := c <;> rfl
  exact (rename_congr hs hl).trans hid

end Cycle

namespace Expander

def perform (x : Expander) (b : Buffer) : Action → Expansion
  | .record m =>
    match x.record m with
    | .ok y => ⟨y, b, none, none⟩
    | .error e => ⟨x, b, none, some e⟩
  | .expand m => x.expand m b
  | .forgetMeasurement => ⟨x.forgetMeasurement, b, none, none⟩

variable {r : Renaming} {x : Expander} {b b' : Buffer} {a : Action}

theorem record_rename (x : Expander) (m : Marker) :
    (x.rename r).record m = (x.record m).map (rename r) := by
  have ht : (x.rename r).tracking = x.tracking := rfl
  have hs : (x.rename r).settings = x.settings := rfl
  rw [record, record, ht, hs]
  cases x.tracking.record m x.settings.defaultMean <;> rfl

theorem perform_rename (hb : r.Carries b b') (h : (x.perform b a).error = none)
    (h' : ((x.rename r).perform b' a).error = none) :
    ((x.rename r).perform b' a).expander = (x.perform b a).expander.rename r ∧
      r.Copies b (x.perform b a).buffer b' ((x.rename r).perform b' a).buffer := by
  cases a with
  | record m =>
    simp only [perform, record_rename] at h h' ⊢
    cases x.record m <;> exact ⟨rfl, hb.copies⟩
  | expand m => exact expand_rename hb h h'
  | forgetMeasurement => exact ⟨rfl, hb.copies⟩

theorem perform_of_le (hb : r.Carries b b') (hle : b.nextSlot ≤ b'.nextSlot)
    (h : ((x.rename r).perform b' a).error = none) :
    (x.perform b a).error = none ∧
      (x.perform b a).buffer.nextSlot ≤ ((x.rename r).perform b' a).buffer.nextSlot := by
  cases a with
  | record m =>
    simp only [perform, record_rename] at h ⊢
    cases hr : x.record m with
    | ok y => exact ⟨rfl, hle⟩
    | error e =>
      rw [hr] at h
      cases h
  | expand m => exact expand_of_le hb hle h
  | forgetMeasurement => exact ⟨rfl, hle⟩

end Expander

namespace Turn

variable {t u : Turn} {x : Expander} {r : Renaming}

theorem performs (hx : t.expander? = some x) :
    let e := x.perform t.before.buffer t.action
    t.error? = e.error ∧ t.after.expanders = t.before.expanders.set t.index e.expander ∧
      t.after.buffer = e.buffer := by
  obtain ⟨⟨xs, b, c⟩, i, a⟩ := t
  have hi : xs[i]? = some x := hx
  cases a with
  | record m =>
    cases hr : x.record m with
    | ok y => simp [error?, after, Session.act, hi, Expander.perform, hr]
    | error e =>
      obtain ⟨hlt, rfl⟩ := List.getElem?_eq_some_iff.1 hi
      simp [error?, after, Session.act, hi, Expander.perform, hr]
  | expand m => simp [error?, after, Session.act, hi, Expander.perform]
  | forgetMeasurement => simp [error?, after, Session.act, hi, Expander.perform]

theorem expanders_ne {j : Nat} (hj : j ≠ t.index) :
    t.after.expanders[j]? = t.before.expanders[j]? := by
  cases hx : t.expander? with
  | none => rw [after_of_none hx]
  | some x => rw [(performs hx).2.1, List.getElem?_set_ne (Ne.symm hj)]

theorem copies (ha : u.action = t.action) (hx : t.expander? = some x)
    (hx' : u.expander? = some (x.rename r)) (hb : r.Carries t.before.buffer u.before.buffer)
    (h : t.error? = none) (h' : u.error? = none) :
    (∃ y, t.after.expanders[t.index]? = some y ∧
      u.after.expanders[u.index]? = some (y.rename r)) ∧
      r.Copies t.before.buffer t.after.buffer u.before.buffer u.after.buffer := by
  obtain ⟨herror, hexpanders, hbuffer⟩ := performs hx
  obtain ⟨herror', hexpanders', hbuffer'⟩ := performs hx'
  rw [ha] at herror' hexpanders' hbuffer'
  obtain ⟨hy, hcopies⟩ := Expander.perform_rename hb (herror ▸ h) (herror' ▸ h')
  have hlt : t.index < t.before.expanders.length := (List.getElem?_eq_some_iff.1 hx).1
  have hlt' : u.index < u.before.expanders.length := (List.getElem?_eq_some_iff.1 hx').1
  rw [hexpanders, hexpanders', hbuffer, hbuffer', hy]
  exact ⟨⟨_, List.getElem?_set_self hlt, List.getElem?_set_self hlt'⟩, hcopies⟩

/-- An action that succeeds in one session succeeds in another one that has handed out less. -/
theorem succeeds_of_le (ha : u.action = t.action) (hx : t.expander? = some x)
    (hx' : u.expander? = some (x.rename r)) (hb : r.Carries t.before.buffer u.before.buffer)
    (hle : t.before.buffer.nextSlot ≤ u.before.buffer.nextSlot) (h' : u.error? = none) :
    t.error? = none ∧ t.after.buffer.nextSlot ≤ u.after.buffer.nextSlot := by
  obtain ⟨herror, -, hbuffer⟩ := performs hx
  obtain ⟨herror', -, hbuffer'⟩ := performs hx'
  rw [ha] at herror' hbuffer'
  rw [herror, hbuffer, hbuffer']
  exact Expander.perform_of_le hb hle (herror' ▸ h')

theorem emitted_of_copies
    (h : r.Copies t.before.buffer t.after.buffer u.before.buffer u.after.buffer) :
    u.emitted = t.emitted.map (Insn.rename r) := by
  obtain ⟨code, hcode, hcode'⟩ := h.code
  rw [emitted, emitted, hcode, hcode', List.drop_left, List.drop_left]

end Turn

namespace Session

section
variable {s s' : Session} {i j : Nat} {x : Expander} {r : Renaming} {as : List Action}

/-- One expander is asked the same in two sessions, in which nothing fails. -/
theorem copies_actAll (hx : s.expanders[i]? = some x) (hx' : s'.expanders[j]? = some (x.rename r))
    (hb : r.Carries s.buffer s'.buffer)
    (h : ∀ t ∈ s.turns (as.map (i, ·)), t.error? = none)
    (h' : ∀ t ∈ s'.turns (as.map (j, ·)), t.error? = none) :
    r.Copies s.buffer (s.actAll (as.map (i, ·))).buffer
      s'.buffer (s'.actAll (as.map (j, ·))).buffer := by
  induction as generalizing s s' x with
  | nil => exact hb.copies
  | cons a as ih =>
    obtain ⟨hfirst, hrest⟩ := List.forall_mem_cons.1 h
    obtain ⟨hfirst', hrest'⟩ := List.forall_mem_cons.1 h'
    obtain ⟨⟨y, hy, hy'⟩, hcopies⟩ :=
      Turn.copies (t := ⟨s, i, a⟩) (u := ⟨s', j, a⟩) rfl hx hx' hb hfirst hfirst'
    exact hcopies.trans (ih hy hy' hcopies.carries hrest hrest')

/-- What an expander writes speaks of slots that it holds, of a label that it has pending, and of new slots
and labels. -/
theorem own_or_new (hx : s.expanders[i]? = some x)
    (h : ∀ t ∈ s.turns (as.map (i, ·)), t.error? = none) {code : List Insn}
    (hcode : (s.actAll (as.map (i, ·))).buffer.code = s.buffer.code ++ code) {insn : Insn}
    (hinsn : insn ∈ code) :
    (∀ q ty, insn.slot? = some (q, ty) →
      s.buffer.nextSlot ≤ q.index ∨ ∃ v, x.cycle.slot? v = some q) ∧
    ∀ l, insn.labelName? = some l → s.buffer.nextLabel ≤ l.id ∨ x.cycle.pendingElse = some l := by
  classical
  -- under a renaming that moves all other names the same run writes the same
  let r : Renaming :=
    ⟨fun k => if s.buffer.nextSlot ≤ k ∨ ∃ v, x.cycle.slot? v = some ⟨k⟩ then k else k + 1,
      fun k => if s.buffer.nextLabel ≤ k ∨ x.cycle.pendingElse = some ⟨k⟩ then k else k + 1⟩
  have hself : x.rename r = x := by
    have hcycle : x.cycle.rename r = x.cycle :=
      Cycle.rename_eq_self (fun v q hq => if_pos (.inr ⟨v, hq⟩)) fun l hl => if_pos (.inr hl)
    rw [Expander.rename, hcycle]
  have hcarries : r.Carries s.buffer s.buffer :=
    ⟨fun k => if_pos (.inl (Nat.le_add_right _ k)), fun k => if_pos (.inl (Nat.le_add_right _ k))⟩
  obtain ⟨code', hwritten, hrenamed⟩ :=
    (copies_actAll hx (hself.symm ▸ hx) hcarries h h).code
  have hsame : code' = code := List.append_cancel_left (hwritten.symm.trans hcode)
  subst hsame
  have hmap : code'.map (Insn.rename r) = code'.map id := by
    rw [List.map_id]
    exact List.append_cancel_left (hrenamed.symm.trans hwritten)
  obtain ⟨hslot, hlabel⟩ := Insn.names_of_rename_eq (List.map_inj_left.1 hmap insn hinsn)
  refine ⟨fun q ty hq => ?_, fun l hl => ?_⟩
  · have hsame := hslot q ty hq
    by_contra hno
    have hmoved : r.slot q.index = q.index + 1 := if_neg hno
    omega
  · have hsame := hlabel l hl
    by_contra hno
    have hmoved : r.label l.id = l.id + 1 := if_neg hno
    omega

end

/-- All that a session speaks of has been handed out. -/
structure Known (s : Session) : Prop where
  used : ∀ i ∈ s.buffer.code, ∀ r ty, i.slot? = some (r, ty) → r.index < s.buffer.nextSlot
  named : ∀ i ∈ s.buffer.code, ∀ l, i.labelName? = some l → l.id < s.buffer.nextLabel
  held : ∀ i v r, s.Holds i v r → r.index < s.buffer.nextSlot
  pending : ∀ i l, s.pending? i = some l → l.id < s.buffer.nextLabel

theorem known_actAll_opened {expanders : List (Nat × Settings)} {firstSlot : UInt16}
    {as : List (Nat × Action)} (h : ∀ t ∈ (opened expanders firstSlot).turns as, t.error? = none) :
    ((opened expanders firstSlot).actAll as).Known := by
  have htidy : ((opened expanders firstSlot).actAll as).Tidy :=
    tidy_actAll (tidy_opened _ _) fun t ht _ _ => h t ht
  have hallots : ((opened expanders firstSlot).actAll as).buffer.Allots :=
    Buffer.keeps_allots.actAll (s := opened expanders firstSlot) ⟨nofun, .nil⟩ as
  refine ⟨fun i hi r ty hr => ?_, fun i hi l hl => ?_, fun i v r hr => ?_,
    fun i l hl => (htidy.pending i l hl).1⟩
  · rcases mem_code_actAll.1 hi with hi | ⟨t, ht, hi⟩
    · cases hi
    obtain ⟨u, hu, -, hslot⟩ := allotted_of_used ht hi hr
    have hslots := (extends_of_mem_turns hu).2.slots
    have hbelow := hallots.below _ (hslots.subset (List.drop_subset _ _ hslot))
    exact Nat.lt_of_lt_of_le (Nat.lt_add_of_pos_right ty.width_pos) hbelow
  · cases i with
    | jump c k =>
      cases hl
      exact htidy.names _ hi l (.inr rfl)
    | label k =>
      cases hl
      exact htidy.names _ hi l (.inl rfl)
    | frame k =>
      cases hl
      obtain ⟨j, hj⟩ := List.mem_iff_getElem?.1 hi
      obtain ⟨j', -, hj'⟩ := htidy.framed.label_of_frame hj
      exact htidy.names _ (List.mem_of_getElem? hj') l (.inl rfl)
    | _ => cases hl
  · exact Nat.lt_of_lt_of_le (Nat.lt_add_of_pos_right v.type.width_pos) (htidy.slots.below hr)

end Session

end MethodProbes
