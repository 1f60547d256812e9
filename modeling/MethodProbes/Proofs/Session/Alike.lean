import MethodProbes.Proofs.Session.Independence
import MethodProbes.Proofs.Session.Words

/-!
# An expander among others and alone

As labels are known, an expander that shares a buffer leaves what it leaves in a buffer of its own, up to the
names of slots and labels, as long as no two of its labels get one name in the one buffer that have two names
in the other.  The others may take so many labels that this happens.
-/
namespace MethodProbes

/-- Two places have one label in the one list if and only if they have one in the other. -/
def SamePattern (xs ys : List Label) : Prop := ∀ p q : Nat, xs[p]? = xs[q]? ↔ ys[p]? = ys[q]?

theorem samePattern_map_iff {ks : List Label} {f g : Label → Label} :
    SamePattern (ks.map f) (ks.map g) ↔ ∀ k ∈ ks, ∀ l ∈ ks, f k = f l ↔ g k = g l := by
  constructor
  · intro h k hk l hl
    obtain ⟨p, hp⟩ := List.mem_iff_getElem?.1 hk
    obtain ⟨q, hq⟩ := List.mem_iff_getElem?.1 hl
    simpa [hp, hq] using h p q
  · intro h p q
    rw [List.getElem?_map, List.getElem?_map, List.getElem?_map, List.getElem?_map]
    cases hp : ks[p]? <;> cases hq : ks[q]?
    · exact Iff.rfl
    · exact iff_of_false nofun nofun
    · exact iff_of_false nofun nofun
    · simpa using h _ (List.mem_of_getElem? hp) _ (List.mem_of_getElem? hq)

/-- The labels that code names, and the one that is pending, place by place. -/
def labelsOf (code : List Insn) (pending : Option Label) : List Label :=
  code.filterMap Insn.labelName? ++ pending.toList

theorem labelsOf_rename (r : Renaming) (code : List Insn) (pending : Option Label) :
    labelsOf (code.map (Insn.rename r)) (pending.map (Label.rename r.label)) =
      (labelsOf code pending).map (Label.rename r.label) := by
  have hname (i : Insn) : (i.rename r).labelName? = i.labelName?.map (Label.rename r.label) := by
    cases i <;> rfl
  rw [labelsOf, labelsOf, List.map_append, List.filterMap_map, List.map_filterMap]
  refine congr (congrArg _ (List.filterMap_congr fun i _ => hname i)) ?_
  cases pending <;> rfl

namespace Session

/-- What the expander at index `i` has written and come to in the second session is what the one of the first
session has, up to the names of slots and labels. -/
def Alike (solo s : Session) (i : Nat) (code : List Insn) : Prop :=
  ∃ r : Renaming, r.slot.Injective ∧ r.label.Injective ∧ code = solo.buffer.code.map (Insn.rename r) ∧
    ∃ x, solo.expanders[0]? = some x ∧ s.expanders[i]? = some (x.rename r)

theorem pending?_of_getElem? {s : Session} {i : Nat} {x : Expander} (hx : s.expanders[i]? = some x) :
    s.pending? i = x.cycle.pendingElse := by
  rw [pending?, hx]
  rfl

theorem pending?_inWords {s : Session} {i : Nat} {x : Expander} (hx : s.expanders[i]? = some x) :
    s.inWords.pending? i = x.cycle.pendingElse.map (Label.rename Renaming.words.label) := by
  refine pending?_of_getElem? (x := x.rename .words) ?_
  rw [inWords, List.getElem?_map, hx]
  rfl

theorem Alike.samePattern {solo s : Session} {i : Nat} {code : List Insn} (h : Alike solo s i code) :
    SamePattern (labelsOf solo.buffer.code (solo.pending? 0)) (labelsOf code (s.pending? i)) := by
  obtain ⟨r, -, hlabel, rfl, x, hx, hx'⟩ := h
  have hpending : (x.rename r).cycle.pendingElse = x.cycle.pendingElse.map (Label.rename r.label) := rfl
  rw [pending?_of_getElem? hx, pending?_of_getElem? hx', hpending, labelsOf_rename]
  generalize labelsOf solo.buffer.code x.cycle.pendingElse = ks
  have hsame : SamePattern (ks.map id) (ks.map (Label.rename r.label)) ↔ _ := samePattern_map_iff
  rw [List.map_id] at hsame
  refine hsame.2 fun k _ l _ => ⟨fun h => congrArg _ h, fun h => ?_⟩
  exact congrArg Label.mk (hlabel (congrArg Label.id h))

end Session

namespace Renaming.Leads

variable {r : Renaming} {solo s : Session} {i : Nat} {code : List Insn}

theorem samePattern_iff {x : Expander} (h : r.Leads solo s i code) (hx : solo.expanders[0]? = some x) :
    SamePattern (labelsOf solo.inWords.buffer.code (solo.inWords.pending? 0))
        (labelsOf (code.map (Insn.rename .words)) (s.inWords.pending? i)) ↔
      ∀ k ∈ labelsOf solo.buffer.code x.cycle.pendingElse,
        ∀ l ∈ labelsOf solo.buffer.code x.cycle.pendingElse,
          k.word = l.word ↔ (k.rename r.label).word = (l.rename r.label).word := by
  obtain ⟨y, hy, hy'⟩ := h.expander
  cases hx.symm.trans hy
  have hsolo : solo.inWords.pending? 0 = x.cycle.pendingElse.map (Label.rename Renaming.words.label) :=
    Session.pending?_inWords hx
  have hshared : s.inWords.pending? i =
      (x.cycle.pendingElse.map (Label.rename r.label)).map (Label.rename Renaming.words.label) :=
    Session.pending?_inWords hy'
  rw [hsolo, hshared, Session.code_inWords, h.code, labelsOf_rename, labelsOf_rename, labelsOf_rename,
    List.map_map, samePattern_map_iff]
  simp only [Function.comp_apply, Label.rename_words_inj]

/-- If the same of its labels are known by one name, an expander leaves alike what it leaves alone. -/
theorem alike_inWords (h : r.Leads solo s i code)
    (hpattern : SamePattern (labelsOf solo.inWords.buffer.code (solo.inWords.pending? 0))
      (labelsOf (code.map (Insn.rename .words)) (s.inWords.pending? i))) :
    Session.Alike solo.inWords s.inWords i (code.map (Insn.rename .words)) := by
  obtain ⟨x, hx, hx'⟩ := h.expander
  have hsame := (h.samePattern_iff hx).1 hpattern
  generalize hks : labelsOf solo.buffer.code x.cycle.pendingElse = ks at hsame
  obtain ⟨g, hg, hgr⟩ := exists_injective_of_relates
    (R := fun j j' => ∃ k ∈ ks, words.label k.id = j ∧ words.label (r.label k.id) = j')
    (fun _ _ _ _ ⟨k, hk, hj, hj'⟩ ⟨l, hl, hi, hi'⟩ => by
      subst hj hj' hi hi'
      have := hsame k hk l hl
      rwa [← Label.rename_words_inj, ← Label.rename_words_inj, Label.rename, Label.rename, Label.rename,
        Label.rename, Label.mk.injEq, Label.mk.injEq] at this)
    (ks.map fun k => words.label k.id)
  have hname {k : Label} (hk : k ∈ ks) : words.label (r.label k.id) = g (words.label k.id) :=
    (hgr _ (List.mem_map_of_mem hk) _ ⟨k, hk, rfl, rfl⟩).symm
  refine ⟨⟨r.slot, g⟩, h.slot, hg, ?_, x.rename .words, ?_, ?_⟩
  · rw [Session.code_inWords, h.code, List.map_map, List.map_map]
    refine List.map_congr_left fun insn hinsn => ?_
    rw [Function.comp_apply, Function.comp_apply, Insn.rename_rename, Insn.rename_rename]
    refine Insn.rename_congr (fun _ _ _ => rfl) fun l hl => hname ?_
    exact hks ▸ List.mem_append_left _ (List.mem_filterMap.2 ⟨insn, hinsn, hl⟩)
  · rw [Session.inWords, List.getElem?_map, hx]
    rfl
  · rw [Session.inWords, List.getElem?_map, hx', Option.map_some, Expander.rename_rename,
      Expander.rename_rename]
    have hcycle : x.cycle.rename (r.trans words) = x.cycle.rename (words.trans ⟨r.slot, g⟩) :=
      Cycle.rename_congr (fun _ _ _ => rfl) fun l hl =>
        hname (hks ▸ List.mem_append_right _ (Option.mem_toList.2 hl))
    rw [Expander.rename, hcycle]
    rfl

/-- While the shared session has taken no more than `labelSpace` labels, each label has a name of its own in
both sessions. -/
theorem samePattern_of_le (h : r.Leads solo s i code) (hsolo : solo.Known)
    (hle : s.buffer.nextLabel ≤ labelSpace) :
    SamePattern (labelsOf solo.inWords.buffer.code (solo.inWords.pending? 0))
      (labelsOf (code.map (Insn.rename .words)) (s.inWords.pending? i)) := by
  obtain ⟨x, hx, -⟩ := h.expander
  have hnext : solo.buffer.nextLabel ≤ s.buffer.nextLabel := h.carries.label.le_of_injective h.label
  have hknown {k : Label} (hk : k ∈ labelsOf solo.buffer.code x.cycle.pendingElse) :
      k.id < solo.buffer.nextLabel := by
    rcases List.mem_append.1 hk with hk | hk
    · obtain ⟨insn, hinsn, hk⟩ := List.mem_filterMap.1 hk
      exact hsolo.named insn hinsn k hk
    · exact hsolo.pending 0 k ((Session.pending?_of_getElem? hx).trans (Option.mem_toList.1 hk))
  refine (h.samePattern_iff hx).2 fun k hk l hl => ?_
  have hbefore {k : Label} (hk : k ∈ labelsOf solo.buffer.code x.cycle.pendingElse) :
      k.id < labelSpace := Nat.lt_of_lt_of_le (Nat.lt_of_lt_of_le (hknown hk) hnext) hle
  have hafter {k : Label} (hk : k ∈ labelsOf solo.buffer.code x.cycle.pendingElse) :
      (k.rename r.label).id < labelSpace :=
    Nat.lt_of_lt_of_le (h.carries.label.lt_of_lt h.label (hknown hk)) hle
  rw [Label.word_inj_of_lt (hbefore hk) (hbefore hl), Label.word_inj_of_lt (hafter hk) (hafter hl)]
  exact ⟨congrArg _, fun h' => congrArg Label.mk (h.label (congrArg Label.id h'))⟩

end Renaming.Leads

namespace Session

def writtenInWords (s : Session) (as : List (Nat × Action)) (i : Nat) : List Insn :=
  ((s.turnsInWords as).filter (·.index = i)).flatMap fun t => t.emitted.map (Insn.rename .words)

variable {expanders : List (Nat × Settings)} {firstSlot firstSlot' : UInt16}
  {as : List (Nat × Action)} {i : Nat} {e : Nat × Settings}

theorem writtenInWords_opened : (opened expanders firstSlot).writtenInWords as i =
    ((opened expanders firstSlot).writtenBy as i).map (Insn.rename .words) := by
  rw [writtenInWords, writtenBy, turnsInWords_opened, List.filter_map, List.flatMap_map,
    List.map_flatMap]
  exact List.flatMap_congr fun t _ => Turn.emitted_inWords

/-- In a run in which nothing fails, nothing fails when an expander is asked the same alone.  While no more
than `labelSpace` labels are taken it writes and comes to the same there, up to the names of slots and labels:
this is so exactly if the same of its labels are known by one name in both sessions. -/
theorem alike_iff_samePattern
    (h : ∀ t ∈ (opened expanders firstSlot).turnsInWords as, t.error? = none)
    (he : expanders[i]? = some e) (hle : firstSlot' ≤ firstSlot) :
    let s := opened expanders firstSlot
    let solo := opened [e] firstSlot'
    let alone := solo.actAllInWords (own i as)
    let shared := s.actAllInWords as
    let code := s.writtenInWords as i
    (∀ t ∈ solo.turnsInWords (own i as), t.error? = none) ∧
      ((s.actAll as).buffer.nextLabel ≤ labelSpace → Alike alone shared i code) ∧
      (Alike alone shared i code ↔
        SamePattern (labelsOf alone.buffer.code (alone.pending? 0)) (labelsOf code (shared.pending? i))) := by
  intro s solo alone shared code
  have hturns (s : Session) (as : List (Nat × Action)) :
      (∀ t ∈ (s.turns as).map Turn.inWords, t.error? = none) ↔ ∀ t ∈ s.turns as, t.error? = none := by
    simp only [List.forall_mem_map, Turn.error?_inWords]
  rw [turnsInWords_opened, hturns] at h
  obtain ⟨hsolo, r, hr⟩ := exists_leads h he hle
  have halone : alone = (solo.actAll (own i as)).inWords := actAllInWords_opened _ _
  have hshared : shared = (s.actAll as).inWords := actAllInWords_opened _ _
  have hcode : code = (s.writtenBy as i).map (Insn.rename .words) := writtenInWords_opened
  rw [turnsInWords_opened, hturns, halone, hshared, hcode]
  exact ⟨hsolo, fun hbound => hr.alike_inWords (hr.samePattern_of_le (known_actAll_opened hsolo) hbound),
    Alike.samePattern, hr.alike_inWords⟩

/-- The second of two methods that are expanded in turns, on its own. -/
theorem alike_iff_samePattern_two :
    let entry := ((Marker.ofKind .entry).withFlag "timed").withTag "level" ">=3"
    let test := (Marker.ofKind .test).withFlag "timed"
    let as : List (Nat × Action) := [(0, .record entry), (1, .record entry), (0, .expand entry),
      (1, .expand entry), (1, .forgetMeasurement), (0, .expand test), (1, .expand test)]
    let s := opened [(7, {}), (9, {})] 4
    let alone := (opened [(9, {})] 0).actAllInWords (own 1 as)
    (∀ t ∈ s.turnsInWords as, t.error? = none) ∧ (s.actAll as).buffer.nextLabel = 8 ∧
      s.writtenInWords as 1 ≠ alone.buffer.code ∧
      Alike alone (s.actAllInWords as) 1 (s.writtenInWords as 1) := by
  intro entry test as s alone
  have h : ∀ t ∈ s.turnsInWords as, t.error? = none := by decide
  have hnext : (s.actAll as).buffer.nextLabel = 8 := by decide
  obtain ⟨-, halike, -⟩ := alike_iff_samePattern h (i := 1) rfl (show (0 : UInt16) ≤ 4 by decide)
  exact ⟨h, hnext, by decide, halike (hnext ▸ by decide)⟩

theorem own_testedAgain (n : Nat) :
    own 0 (testedAgain n) = answeredOnce ++ [(0, .expand (.ofKind .test))] := by
  rw [own, testedAgain, List.filter_append, List.filter_append, List.filter_replicate]
  rfl

theorem writtenBy_testedAgain (n : Nat) : (opened [(7, {}), (8, {})] 0).writtenBy (testedAgain n) 0 =
    (opened [(7, {}), (8, {})] 0).writtenBy answeredOnce 0 ++ (secondTest n).emitted := by
  have hother : ∀ b ∈ List.replicate n (1, Action.expand (.ofKind .test)), b.1 ≠ 0 := fun b hb => by
    rw [List.eq_of_mem_replicate hb]
    exact Nat.one_ne_zero
  rw [testedAgain, writtenBy_concat_self rfl, writtenBy_append_ne hother, (before_secondTest n).2]
  rfl

/-- After a full round of labels the second test of an expander has the names of the first one, but not if the
expander is alone. -/
theorem not_alike_testedAgain :
    let s := opened [(7, {}), (8, {})] 0
    let as := testedAgain 4294967294
    let alone := (opened [(7, {})] 0).actAllInWords (own 0 as)
    let shared := s.actAllInWords as
    let code := s.writtenInWords as 0
    (∀ t ∈ s.turnsInWords as, t.error? = none) ∧
      labelsOf alone.buffer.code (alone.pending? 0) = [⟨1⟩, ⟨0⟩, ⟨0⟩, ⟨1⟩, ⟨1⟩, ⟨3⟩, ⟨2⟩, ⟨2⟩, ⟨3⟩] ∧
      labelsOf code (shared.pending? 0) = [⟨1⟩, ⟨0⟩, ⟨0⟩, ⟨1⟩, ⟨1⟩, ⟨1⟩, ⟨0⟩, ⟨0⟩, ⟨1⟩] ∧
      ¬ Alike alone shared 0 code := by
  intro s as alone shared code
  obtain ⟨herror, hshared⟩ := testedAgain_inWords (n := 4294967294) (by decide)
  have hshared : shared = (secondTest 4294967294).after.inWords := hshared
  have halone : alone = (opened [(7, {})] 0).actAllInWords
      (answeredOnce ++ [(0, .expand (.ofKind .test))]) :=
    congrArg (actAllInWords _) (own_testedAgain 4294967294)
  have hcode : code = ((opened [(7, {}), (8, {})] 0).writtenBy answeredOnce 0 ++
      (secondTest 4294967294).emitted).map (Insn.rename .words) :=
    writtenInWords_opened.trans (congrArg _ (writtenBy_testedAgain 4294967294))
  have hlabels : labelsOf alone.buffer.code (alone.pending? 0) =
      [⟨1⟩, ⟨0⟩, ⟨0⟩, ⟨1⟩, ⟨1⟩, ⟨3⟩, ⟨2⟩, ⟨2⟩, ⟨3⟩] := by
    rw [halone]
    decide
  have hlabels' : labelsOf code (shared.pending? 0) =
      [⟨1⟩, ⟨0⟩, ⟨0⟩, ⟨1⟩, ⟨1⟩, ⟨1⟩, ⟨0⟩, ⟨0⟩, ⟨1⟩] := by
    rw [hcode, hshared]
    decide
  refine ⟨herror, hlabels, hlabels', fun h => ?_⟩
  -- the first test and the second one end at labels of two names alone, and of one name here
  have hpattern := h.samePattern
  rw [hlabels, hlabels'] at hpattern
  exact absurd ((hpattern 1 6).2 rfl) (by decide)

end Session

end MethodProbes
