import MethodProbes.Proofs.Code.Labels
import MethodProbes.Proofs.Session.Labels

/-!
# Dangling labels

In a session whose expansions all succeed, labels are placed in order.  The labels that dangle in
the end are the targets of those sample branches that no else marker has answered.
-/
namespace MethodProbes

open Step

namespace Turn

variable {t : Turn} {l : Label}

/-- A jump of a turn that leaves what the turn writes is a sample branch. -/
theorem branches_of_target (hp : t.before.Placed) (hs : t.Succeeds) {i : Insn} (hi : i ∈ t.emitted)
    (ht : i.target? = some l) (hl : .label l ∉ t.emitted) : t.Branches l := by
  rcases t.quiet_or_writes hp hs with hq | ⟨x, m, id, σ, y, hw⟩
  · rw [emitted, hq.buffer, List.drop_length] at hi
    cases hi
  · cases i with
    | jump c k =>
      cases ht
      obtain ⟨n, hn⟩ := List.mem_iff_getElem?.1 hi
      rcases hw.target hn with ⟨j, -, hj⟩ | hb
      · exact absurd (List.mem_of_getElem? hj) hl
      · exact hb
    | _ => cases ht

theorem answered_cons {u : Turn} {post : List Turn} : t.Answered (u :: post) ↔
    u.index = t.index ∧ u.IsElse ∨
      (u.index = t.index → ∀ l, ¬ u.Branches l) ∧ t.Answered post := by
  constructor
  · rintro ⟨- | ⟨v, mid⟩, e, rest, he, hi, helse, hmid⟩
    · obtain ⟨rfl, rfl⟩ := List.cons.inj he
      exact .inl ⟨hi, helse⟩
    · obtain ⟨rfl, rfl⟩ := List.cons.inj he
      exact .inr ⟨hmid _ List.mem_cons_self, mid, e, rest, rfl, hi, helse,
        fun u hu => hmid u (List.mem_cons_of_mem _ hu)⟩
  · rintro (⟨hi, helse⟩ | ⟨hu, mid, e, rest, rfl, hi, helse, hmid⟩)
    · exact ⟨[], u, post, rfl, hi, helse, nofun⟩
    · exact ⟨u :: mid, e, rest, rfl, hi, helse, List.forall_mem_cons.2 ⟨hu, hmid⟩⟩

end Turn

namespace Session

variable {s : Session} {as : List (Nat × Action)} {l : Label} {i : Nat}

theorem exists_of_turns_eq {pre post : List Turn} {t : Turn} (h : s.turns as = pre ++ t :: post) :
    ∃ bs cs, pre = s.turns bs ∧ t.before = s.actAll bs ∧ post = t.after.turns cs ∧
      s.actAll as = t.after.actAll cs := by
  induction pre generalizing s as with
  | nil =>
    cases as with
    | nil => cases h
    | cons a as =>
      obtain ⟨rfl, rfl⟩ := List.cons.inj h
      exact ⟨[], as, rfl, rfl, rfl, rfl⟩
  | cons u pre ih =>
    cases as with
    | nil => cases h
    | cons a as =>
      obtain ⟨rfl, htail⟩ := List.cons.inj h
      obtain ⟨bs, cs, rfl, hbefore, hpost, hall⟩ := ih htail
      exact ⟨a :: bs, cs, rfl, hbefore, hpost, hall⟩

theorem mem_code_actAll {insn : Insn} : insn ∈ (s.actAll as).buffer.code ↔
    insn ∈ s.buffer.code ∨ ∃ t ∈ s.turns as, insn ∈ t.emitted := by
  induction as generalizing s with
  | nil => simp [turns]
  | cons a as ih =>
    have hcode := (Turn.mk s a.1 a.2).code_after
    have hall : (s.actAll (a :: as)) = (Turn.mk s a.1 a.2).after.actAll as := rfl
    rw [hall, ih, hcode, List.mem_append, turns, List.exists_mem_cons_iff, or_assoc]
    rfl

theorem tidy_actAll (h : s.Tidy) (hs : ∀ t ∈ s.turns as, t.Succeeds) : (s.actAll as).Tidy :=
  actAll_induction h fun t ht h => h.after (hs t ht)

/-- The label is taken, but it is not placed and nobody waits for it. -/
structure Lost (s : Session) (l : Label) : Prop where
  taken : l.id < s.buffer.nextLabel
  code : .label l ∉ s.buffer.code
  pending : ∀ i, s.pending? i ≠ some l

theorem Lost.after {t : Turn} (hl : t.before.Lost l) (h : t.before.Tidy) (hs : t.Succeeds) :
    t.after.Lost l := by
  rcases t.quiet_or_writes h.slots hs with hq | ⟨x, m, id, σ, y, hw⟩
  · refine ⟨hq.buffer ▸ hl.taken, hq.buffer ▸ hl.code, fun i => ?_⟩
    rw [hq.pending]
    exact hl.pending i
  · refine ⟨?_, ?_, fun i hi => ?_⟩
    · rw [hw.nextLabel]
      exact Nat.lt_of_lt_of_le hl.taken (Nat.le_add_right _ _)
    · rw [Turn.code_after]
      refine List.not_mem_append hl.code fun hmem => ?_
      rcases hw.label_mem hmem with hle | ⟨-, hp⟩
      · exact Nat.not_lt.2 hle hl.taken
      · exact hl.pending _ hp
    · rcases h.waits_cases hw hi with ⟨-, hb⟩ | ⟨hp, -⟩
      · exact Nat.not_lt.2 (hw.of_branches hb).2.2 hl.taken
      · exact hl.pending i hp

theorem Lost.notMem (hl : s.Lost l) (h : s.Tidy) (hs : ∀ t ∈ s.turns as, t.Succeeds) :
    .label l ∉ (s.actAll as).buffer.code :=
  (actAll_induction (P := fun s => s.Tidy ∧ s.Lost l) ⟨h, hl⟩
    fun t ht h => ⟨h.1.after (hs t ht), h.2.after h.1 (hs t ht)⟩).2.code

/-- An expander that branches again loses the label that it waited for. -/
theorem lost_of_branches {u : Turn} {x y : Expander} {m : Marker} {id : Nat} {σ : Layout}
    {k : Label} (h : u.before.Tidy) (hw : u.Writes x m id σ y)
    (hp : u.before.pending? u.index = some l) (hb : u.Branches k) : u.after.Lost l := by
  obtain ⟨hlt, hcode⟩ := h.pending _ l hp
  have hne : l ≠ k := by
    rintro rfl
    exact Nat.not_lt.2 (hw.of_branches hb).2.2 hlt
  have hwaits : u.after.pending? u.index = some k := hw.pending?_of_branches hb
  refine ⟨?_, ?_, fun i hi => ?_⟩
  · rw [hw.nextLabel]
    exact Nat.lt_of_lt_of_le hlt (Nat.le_add_right _ _)
  · rw [Turn.code_after]
    refine List.not_mem_append hcode fun hmem => ?_
    rcases hw.label_mem hmem with hle | ⟨⟨m', ha, hm'⟩, -⟩
    · exact Nat.not_lt.2 hle hlt
    · obtain ⟨_, m'', _, _, ha', hm'', -⟩ := hb
      cases ha.symm.trans ha'
      cases hm'.symm.trans hm''
  · have hi' : i = u.index := by
      rcases h.waits_cases hw hi with ⟨hi', -⟩ | ⟨hp', -⟩
      · exact hi'
      · exact h.apart _ _ l hp' hp
    subst hi'
    exact hne (Option.some.inj (hi.symm.trans hwaits))

inductive Waiting (u : Turn) (i : Nat) (l : Label) : Prop
  | placed (index : u.index = i) (els : u.IsElse) (label : .label l ∈ u.after.buffer.code)
  | lost (index : u.index = i) (els : ¬ u.IsElse) (branches : ∃ k, u.Branches k)
    (lost : u.after.Lost l)
  | still (quiet : u.index = i → ¬ u.IsElse ∧ ∀ k, ¬ u.Branches k)
    (waits : u.after.pending? i = some l)

theorem waiting {u : Turn} (h : u.before.Tidy) (hs : u.Succeeds)
    (hp : u.before.pending? i = some l) : Waiting u i l := by
  rcases u.quiet_or_writes h.slots hs with hq | ⟨x, m, id, σ, y, hw⟩
  · refine .still (fun hi => ?_) (hq.pending i ▸ hp)
    -- there is an expander, so it is not asked to expand anything
    obtain ⟨x, hx, -⟩ := Option.bind_eq_some_iff.1 hp
    have hno (m : Marker) : u.action ≠ .expand m := fun ha => by
      rw [← hi] at hx
      cases hx.symm.trans (hq.expands m ha)
    exact ⟨fun ⟨m, ha, _⟩ => hno m ha, fun k ⟨_, m, _, _, ha, _⟩ => hno m ha⟩
  · by_cases hi : u.index = i
    · subst hi
      by_cases helse : u.IsElse
      · refine .placed rfl helse ?_
        rw [Turn.code_after]
        exact List.mem_append_right _ (hw.label_of_else helse hp)
      by_cases hb : ∃ k, u.Branches k
      · obtain ⟨k, hk⟩ := hb
        exact .lost rfl helse ⟨k, hk⟩ (lost_of_branches h hw hp hk)
      · have hb := not_exists.1 hb
        exact .still (fun _ => ⟨helse, hb⟩) (hw.pending_keeps hb helse ▸ hp)
    · exact .still (fun h => absurd h hi)
        ((Turn.pending?_set_ne hw.expanders (Ne.symm hi)).trans hp)

/-- The label that an expander waits for is placed in the end if and only if an else marker answers
the branch that it belongs to. -/
theorem label_mem_actAll_iff {t : Turn} (h : s.Tidy) (hs : ∀ u ∈ s.turns as, u.Succeeds)
    (hp : s.pending? t.index = some l) :
    .label l ∈ (s.actAll as).buffer.code ↔ t.Answered (s.turns as) := by
  induction as generalizing s with
  | nil =>
    refine iff_of_false (h.pending _ l hp).2 fun ⟨mid, e, rest, he, _⟩ => ?_
    exact List.append_ne_nil_of_right_ne_nil _ (List.cons_ne_nil _ _) he.symm
  | cons a as ih =>
    obtain ⟨ha, hs⟩ := List.forall_mem_cons.1 hs
    let u : Turn := ⟨s, a.1, a.2⟩
    have hafter : u.after.Tidy := Tidy.after (t := u) h ha
    have hall : s.actAll (a :: as) = u.after.actAll as := rfl
    rw [turns, Turn.answered_cons, hall]
    cases waiting (u := u) h ha hp with
    | placed index els label =>
      have hgoes := (u.after.extends_actAll as).code
      exact iff_of_true (hgoes.subset label) (.inl ⟨index, els⟩)
    | lost index els branches lost =>
      refine iff_of_false (lost.notMem hafter hs) ?_
      rintro (⟨-, helse⟩ | ⟨hno, -⟩)
      · exact els helse
      · obtain ⟨k, hk⟩ := branches
        exact hno index k hk
    | still quiet waits =>
      refine (ih hafter hs waits).trans ⟨fun h => .inr ⟨fun hi => (quiet hi).2, h⟩, ?_⟩
      rintro (⟨hi, helse⟩ | ⟨-, h⟩)
      · exact absurd helse (quiet hi).1
      · exact h

/-- What holds of the labels in code: none is placed twice, frames stand right behind labels and
nowhere else, and control only moves forward, so that every path comes to an end. -/
structure LabelsInOrder (code : List Insn) : Prop where
  once : ∀ (i j : Nat) (l : Label), code[i]? = some (.label l) → code[j]? = some (.label l) → i = j
  framed : ∀ (i : Nat) (l : Label), code[i]? = some (.label l) → code[i + 1]? = some (.frame l)
  frame : ∀ (j : Nat) (l : Label), code[j]? = some (.frame l) →
    ∃ i, j = i + 1 ∧ code[i]? = some (.label l)
  forward : ∀ (i j : Nat) (c : Cond) (l : Label), code[i]? = some (.jump c l) →
    code[j]? = some (.label l) → i < j
  ends : ∀ is, Path code is → is.length ≤ code.length + 1

theorem Tidy.labelsInOrder (h : s.Tidy) : LabelsInOrder s.buffer.code where
  once i j l hi hj := by
    have hpair := List.pairwise_filterMap.1 h.once
    have hlt {i j : Nat} (hi : s.buffer.code[i]? = some (.label l))
        (hj : s.buffer.code[j]? = some (.label l)) : ¬ i < j := fun hij => by
      obtain ⟨hi, hil⟩ := List.getElem?_eq_some_iff.1 hi
      obtain ⟨hj, hjl⟩ := List.getElem?_eq_some_iff.1 hj
      exact List.pairwise_iff_getElem.1 hpair i j hi hj hij l (hil ▸ rfl) l (hjl ▸ rfl) rfl
    exact Nat.le_antisymm (Nat.not_lt.1 (hlt hj hi)) (Nat.not_lt.1 (hlt hi hj))
  framed _ _ := h.framed.frame_of_label
  frame _ _ := h.framed.label_of_frame
  forward _ _ _ _ := h.forward.lt_of_jump
  ends _ := Path.length_le h.forward

section
variable {expanders : List (Nat × Settings)} {firstSlot : UInt16}

theorem tidy_of_turns_eq (h : s.Tidy) (hs : ∀ t ∈ s.turns as, t.Succeeds) {pre post : List Turn}
    {t : Turn} (ht : s.turns as = pre ++ t :: post) : t.before.Tidy := by
  obtain ⟨bs, -, hpre, hbefore, -⟩ := exists_of_turns_eq ht
  rw [hbefore]
  refine tidy_actAll h fun u hu => hs u ?_
  rw [ht]
  exact List.mem_append_left _ (hpre ▸ hu)

theorem label_mem_iff_answered (h : s.Tidy) (hs : ∀ t ∈ s.turns as, t.Succeeds)
    {pre post : List Turn} {t : Turn} (ht : s.turns as = pre ++ t :: post) (hb : t.Branches l) :
    .label l ∈ (s.actAll as).buffer.code ↔ t.Answered post := by
  have htidy : t.before.Tidy := tidy_of_turns_eq h hs ht
  obtain ⟨-, cs, -, -, hpost, hall⟩ := exists_of_turns_eq ht
  rw [ht, List.forall_mem_append, List.forall_mem_cons] at hs
  obtain ⟨-, hsucceeds, hrest⟩ := hs
  obtain ⟨x, m, -, hx, ha, -⟩ := id hb
  obtain ⟨id, σ, y, hw⟩ := Turn.exists_writes htidy.slots hx ha (hsucceeds m ha)
  rw [hall, hpost]
  exact label_mem_actAll_iff (htidy.after hsucceeds) (hpost ▸ hrest) (hw.pending?_of_branches hb)

/-- In a session whose expansions all succeed, the labels that dangle are the targets of the sample branches
that no else marker of their expander has answered before that expander branched again. -/
theorem mem_dangling_iff (hs : ∀ t ∈ (opened expanders firstSlot).turns as, t.Succeeds) :
    l ∈ ((opened expanders firstSlot).actAll as).buffer.dangling ↔
      ∃ pre t post, (opened expanders firstSlot).turns as = pre ++ t :: post ∧ t.Branches l ∧
        ¬ t.Answered post := by
  have hopened := tidy_opened expanders firstSlot
  have hnoted : ((opened expanders firstSlot).actAll as).buffer.Noted :=
    Buffer.keeps_noted.actAll (s := opened expanders firstSlot) rfl as
  have hcode {i : Insn} : i ∈ ((opened expanders firstSlot).actAll as).buffer.code ↔
      ∃ t ∈ (opened expanders firstSlot).turns as, i ∈ t.emitted :=
    mem_code_actAll.trans (or_iff_right List.not_mem_nil)
  rw [Buffer.mem_dangling hnoted]
  constructor
  · rintro ⟨⟨i, hi, hl⟩, hno⟩
    obtain ⟨t, ht, hi⟩ := hcode.1 hi
    obtain ⟨pre, post, h⟩ := List.append_of_mem ht
    have hb : t.Branches l := by
      refine Turn.branches_of_target (tidy_of_turns_eq hopened hs h).slots (hs t ht) hi hl ?_
      exact fun hl => hno (hcode.2 ⟨t, ht, hl⟩)
    exact ⟨pre, t, post, h, hb, fun hans =>
      hno ((label_mem_iff_answered hopened hs h hb).2 hans)⟩
  · rintro ⟨pre, t, post, h, hb, hno⟩
    have ht : t ∈ (opened expanders firstSlot).turns as :=
      h ▸ List.mem_append_right _ List.mem_cons_self
    obtain ⟨x, m, r, -, -, -, -, hinfix⟩ := id hb
    have hjump : .jump .ifZero l ∈ t.emitted := hinfix.subset (by simp)
    exact ⟨⟨_, hcode.2 ⟨t, ht, hjump⟩, rfl⟩, fun hl =>
      hno ((label_mem_iff_answered hopened hs h hb).1 hl)⟩

end

end Session

end MethodProbes
