import MethodProbes.Proofs.Session.Independence

/-!
# Cycles that start afresh

A reset marker leaves an expander nothing of its earlier cycles but the slot of the duration and a pending
else target.  So what it writes from there on does not depend on what came before, up to the names of
slots and labels.
-/
namespace MethodProbes

open Step

/-- The numbers from `n` on can be moved to those from `m` on while one below `n`, if there is one, goes to
one below `m`. -/
theorem exists_shifts {n m : Nat} {d e : Option Nat} (hd : ∀ k ∈ d, k < n) (he : ∀ k ∈ e, k < m)
    (hsome : d.isSome = e.isSome) : ∃ f : Nat → Nat, Shifts f n m ∧ d.map f = e ∧
      ∀ j k, n ≤ j ∨ d = some j → n ≤ k ∨ d = some k → f j = f k → j = k := by
  let f : Nat → Nat := spliceAt (fun _ => e.getD 0) n m
  have hshift : Shifts f n m := shifts_spliceAt _ _ _
  have hfrom {k : Nat} (hk : n ≤ k) : f k = m + (k - n) := by
    rw [← hshift, Nat.add_sub_of_le hk]
  cases d with
  | none =>
    cases e with
    | some c => cases hsome
    | none =>
      refine ⟨f, hshift, rfl, fun j k hj hk hjk => ?_⟩
      have hj := hj.resolve_right nofun
      have hk := hk.resolve_right nofun
      rw [hfrom hj, hfrom hk] at hjk
      omega
  | some b =>
    cases e with
    | none => cases hsome
    | some b' =>
      have hb := hd b rfl
      have hb' := he b' rfl
      have hfb : f b = b' := spliceAt_of_lt hb
      refine ⟨f, hshift, congrArg some hfb, fun j k hj hk hjk => ?_⟩
      rcases hj with hj | hj <;> rcases hk with hk | hk
      · rw [hfrom hj, hfrom hk] at hjk
        omega
      · cases hk
        rw [hfrom hj, hfb] at hjk
        omega
      · cases hj
        rw [hfrom hk, hfb] at hjk
        omega
      · exact Option.some.inj (hj.symm.trans hk)

namespace Expander

variable {x : Expander} {m : Marker} {b : Buffer}

theorem cycle_expand_reset (hm : m.kind = .reset) (h : (x.expand m b).error = none) :
    (x.expand m b).expander.cycle = x.cycle.reset := by
  rcases x.expand_cases m b with ⟨e, -, he⟩ | ⟨id, e, q, -, hq, he⟩ <;> rw [he] at h ⊢
  · cases h
  · rw [Context.steps, hm] at hq
    cases hq
    rfl

end Expander

namespace Session

variable {s s' : Session} {i j : Nat} {x y : Expander} {r : Renaming}

theorem expanders_actAll_ne {as : List (Nat × Action)} (h : ∀ a ∈ as, a.1 ≠ i) :
    (s.actAll as).expanders[i]? = s.expanders[i]? := by
  induction as generalizing s with
  | nil => rfl
  | cons a as ih =>
    obtain ⟨ha, has⟩ := List.forall_mem_cons.1 h
    exact (ih (s := (Turn.mk s a.1 a.2).after) has).trans (Turn.expanders_ne (Ne.symm ha))

/-- The last that the expander `x` at index `i` of a session has done is that it has expanded a reset
marker.  Whatever was asked before may have failed. -/
structure Renewed (s : Session) (i : Nat) (x : Expander) : Prop where
  asked : s.expanders[i]? = some x
  reset : ∃ expanders firstSlot as m bs,
    s = (opened expanders firstSlot).actAll (as ++ (i, .expand m) :: bs) ∧ m.kind = .reset ∧
      (Turn.mk ((opened expanders firstSlot).actAll as) i (.expand m)).error? = none ∧
      ∀ b ∈ bs, b.1 ≠ i

namespace Renewed

theorem placed (h : s.Renewed i x) : MethodProbes.Placed s.buffer x.cycle := by
  obtain ⟨hx, expanders, firstSlot, as, m, bs, rfl, -⟩ := h
  exact placed_actAll (placed_opened expanders firstSlot) _ x (List.mem_of_getElem? hx)

/-- Only the slot of the duration and a pending else target are left. -/
theorem cycle (h : s.Renewed i x) : x.cycle =
    { Cycle.initial with duration := x.cycle.duration, pendingElse := x.cycle.pendingElse } := by
  obtain ⟨hx, expanders, firstSlot, as, m, bs, rfl, hm, he, hbs⟩ := h
  let t : Turn := ⟨(opened expanders firstSlot).actAll as, i, .expand m⟩
  have hafter : t.after.expanders[i]? = some x := by
    rw [actAll_append] at hx
    exact (expanders_actAll_ne (s := t.after) hbs).symm.trans hx
  cases hz : t.expander? with
  | none =>
    rw [Turn.after_of_none hz] at hafter
    cases hz.symm.trans hafter
  | some z =>
    obtain ⟨herror, hexpanders, -⟩ := Turn.performs hz
    rw [hexpanders, List.getElem?_set_self (List.getElem?_eq_some_iff.1 hz).1] at hafter
    cases hafter
    have hreset := Expander.cycle_expand_reset hm (herror.symm.trans he)
    have hcycle : (z.perform t.before.buffer t.action).expander.cycle = z.cycle.reset := hreset
    rw [hcycle]
    rfl

theorem duration_of_held (h : s.Renewed i x) {v : Var} {q : Slot} (hq : x.cycle.slot? v = some q) :
    x.cycle.duration = some q := by
  rw [h.cycle] at hq
  cases v with
  | duration => exact hq
  | _ => cases hq

theorem duration_lt (h : s.Renewed i x) :
    ∀ k ∈ x.cycle.duration.map Slot.index, k < s.buffer.nextSlot := fun k hk => by
  obtain ⟨d, hd, rfl⟩ := Option.map_eq_some_iff.1 hk
  exact Nat.lt_of_lt_of_le (Nat.lt_add_of_pos_right Var.duration.type.width_pos)
    (h.placed.below .duration d hd)

theorem eq_rename (h : s.Renewed i x) (h' : s'.Renewed j y) (htracking : y.tracking = x.tracking)
    (hsettings : y.settings = x.settings) (hid : y.methodId = x.methodId)
    (hpending : x.cycle.pendingElse = none) (hpending' : y.cycle.pendingElse = none)
    (hduration : y.cycle.duration = x.cycle.duration.map (Slot.rename r.slot)) :
    y = x.rename r := by
  have hcycle : y.cycle = x.cycle.rename r := by
    rw [h'.cycle, h.cycle, hpending, hpending', hduration]
    rfl
  obtain ⟨id, settings, tracking, cycle⟩ := y
  cases htracking
  cases hsettings
  cases hid
  cases hcycle
  rfl

end Renewed

/-- Two expanders of one configuration that have begun a new cycle, without an else target pending, and
with the slot of the duration bound in both or in neither.  Asked to expand the same markers, without a
failure, they write the same code, with the slots and labels renamed.  The slot of the one duration
becomes that of the other. -/
theorem exists_renaming_of_reset (hs : s.Renewed i x) (hs' : s'.Renewed j y)
    (htracking : y.tracking = x.tracking) (hsettings : y.settings = x.settings)
    (hid : y.methodId = x.methodId) (hpending : x.cycle.pendingElse = none)
    (hpending' : y.cycle.pendingElse = none)
    (hduration : x.cycle.isBound .duration = y.cycle.isBound .duration) {ms : List Marker}
    (h : ∀ t ∈ s.turns (ms.map fun m => (i, .expand m)), t.error? = none)
    (h' : ∀ t ∈ s'.turns (ms.map fun m => (j, .expand m)), t.error? = none) :
    ∃ (r : Renaming) (code : List Insn), r.slot.Injective ∧ r.label.Injective ∧
      (∀ d d', x.cycle.duration = some d → y.cycle.duration = some d' → d.rename r.slot = d') ∧
      (s.actAll (ms.map fun m => (i, .expand m))).buffer.code = s.buffer.code ++ code ∧
      (s'.actAll (ms.map fun m => (j, .expand m))).buffer.code =
        s'.buffer.code ++ code.map (Insn.rename r) := by
  have hms (k : Nat) : ms.map (fun m => (k, Action.expand m)) = (ms.map Action.expand).map (k, ·) :=
    List.map_map.symm
  rw [hms] at h h' ⊢
  rw [hms]
  -- new slots and labels are moved in step, and the slot of the duration goes where it has to
  obtain ⟨f, hf, hdur, hfinj⟩ := exists_shifts (d := x.cycle.duration.map Slot.index)
    (e := y.cycle.duration.map Slot.index) hs.duration_lt hs'.duration_lt
    (by rw [Option.isSome_map, Option.isSome_map]; exact hduration)
  obtain ⟨g, hg, -, hginj⟩ := exists_shifts (n := s.buffer.nextLabel) (m := s'.buffer.nextLabel)
    (d := none) (e := none) nofun nofun rfl
  have hsame : y = x.rename ⟨f, g⟩ := by
    refine hs.eq_rename hs' htracking hsettings hid hpending hpending' ?_
    have hindex : Function.Injective Slot.index := fun a b hab => congrArg Slot.mk hab
    refine Option.map_injective hindex ?_
    rw [← hdur, Option.map_map, Option.map_map]
    rfl
  obtain ⟨code, hcode, hcode'⟩ := (copies_actAll hs.asked (hsame ▸ hs'.asked) ⟨hf, hg⟩ h h').code
  -- only finitely many names are used, and these are changed injectively
  obtain ⟨f', hf', hff'⟩ := exists_injective_of_inj hfinj
    ((code.filterMap Insn.slot?).map (·.1.index) ++ (x.cycle.duration.map Slot.index).toList)
  obtain ⟨g', hg', hgg'⟩ := exists_injective_of_inj hginj
    ((code.filterMap Insn.labelName?).map Label.id)
  refine ⟨⟨f', g'⟩, code, hf', hg', fun d d' hd hd' => ?_, hcode, ?_⟩
  · have hmem : d.index ∈ (x.cycle.duration.map Slot.index).toList := by simp [hd]
    have hsame := hff' _ (List.mem_append_right _ hmem) (.inr (by simp [hd]))
    rw [hd, hd'] at hdur
    exact congrArg Slot.mk (hsame.trans (Option.some.inj hdur))
  · rw [hcode']
    refine congrArg (s'.buffer.code ++ ·) (List.map_congr_left fun insn hinsn => ?_)
    obtain ⟨hslots, hlabels⟩ := own_or_new hs.asked h hcode hinsn
    refine Insn.rename_congr (fun q ty hq => ?_) fun l hl => ?_
    · have hmem : q.index ∈ (code.filterMap Insn.slot?).map (·.1.index) :=
        List.mem_map.2 ⟨_, List.mem_filterMap.2 ⟨insn, hinsn, hq⟩, rfl⟩
      refine (hff' _ (List.mem_append_left _ hmem) ((hslots q ty hq).imp_right ?_)).symm
      rintro ⟨v, hv⟩
      rw [hs.duration_of_held hv]
      rfl
    · have hmem : l.id ∈ (code.filterMap Insn.labelName?).map Label.id :=
        List.mem_map_of_mem (List.mem_filterMap.2 ⟨insn, hinsn, hl⟩)
      refine (hgg' _ hmem ((hlabels l hl).imp_right fun hl => ?_)).symm
      rw [hpending] at hl
      cases hl

/-- One expander has a test and an else marker behind it, the other one nothing but an entry. -/
theorem exists_renaming_of_reset_two :
    let entry := ((Marker.ofKind .entry).withFlag "timed").withSampler (some .const)
    let test := (Marker.ofKind .test).withFlag "timed"
    let reset : Action := .expand (.ofKind .reset)
    let short : List (Nat × Action) := [(0, .record entry), (0, .expand entry)]
    let long : List (Nat × Action) := [(1, .record entry), (0, .record entry), (0, .expand entry),
      (1, .expand entry), (1, .expand test), (1, .expand (.ofKind .elseBranch))]
    let s := (opened [(7, {})] 0).actAll (short ++ [(0, reset)])
    let s' := (opened [(9, {}), (7, {})] 3).actAll (long ++ [(1, reset)])
    let next := [entry, test, .ofKind .duration]
    ∃ (x y : Expander) (r : Renaming) (code : List Insn), s.Renewed 0 x ∧ s'.Renewed 1 y ∧
      x.cycle.duration = some ⟨0⟩ ∧ y.cycle.duration = some ⟨8⟩ ∧
      r.slot.Injective ∧ r.label.Injective ∧ r.slot 0 = 8 ∧
      (s.actAll (next.map fun m => (0, .expand m))).buffer.code = s.buffer.code ++ code ∧
      (s'.actAll (next.map fun m => (1, .expand m))).buffer.code =
        s'.buffer.code ++ code.map (Insn.rename r) := by
  intro entry test reset short long s s' next
  let x : Expander := s.expanders.get ⟨0, by decide⟩
  let y : Expander := s'.expanders.get ⟨1, by decide⟩
  have hs : s.Renewed 0 x := ⟨rfl, _, _, short, _, [], rfl, rfl, by decide, nofun⟩
  have hs' : s'.Renewed 1 y := ⟨rfl, _, _, long, _, [], rfl, rfl, by decide, nofun⟩
  have hx : x.cycle.duration = some ⟨0⟩ := by decide
  have hy : y.cycle.duration = some ⟨8⟩ := by decide
  have h : ∀ t ∈ s.turns (next.map fun m => (0, .expand m)), t.error? = none := by decide
  have h' : ∀ t ∈ s'.turns (next.map fun m => (1, .expand m)), t.error? = none := by decide
  obtain ⟨r, code, hslot, hlabel, hdur, hcode, hcode'⟩ :=
    exists_renaming_of_reset hs hs' (by decide) (by decide) (by decide) (by decide) (by decide)
      (by decide) h h'
  exact ⟨x, y, r, code, hs, hs', hx, hy, hslot, hlabel, congrArg Slot.index (hdur _ _ hx hy), hcode,
    hcode'⟩
end Session

end MethodProbes
