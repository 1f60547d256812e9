import MethodProbes.Proofs.Session.Words

/-!
# Labels in order as they are known

While a session has taken no more than `labelSpace` labels, no two of them are known by one name.  Then
the labels of its code are in order as they are known, and those that dangle are the targets of the sample
branches that nothing answers.  Later a label may have the name of one that was placed long ago.
-/
namespace MethodProbes

theorem Buffer.Noted.inWords {b : Buffer} (h : b.Noted) : b.inWords.Noted := by
  have hplaced : MethodProbes.placed (b.code.map (Insn.rename .words)) =
      (MethodProbes.placed b.code).map (Label.rename Renaming.words.label) := by
    rw [MethodProbes.placed, MethodProbes.placed, List.filterMap_map, List.map_filterMap]
    exact List.filterMap_congr fun i _ => by cases i <;> rfl
  have h : b.placed.map Prod.fst = (MethodProbes.placed b.code).reverse := h
  rw [Noted, code_inWords, hplaced, ← List.map_reverse, ← h, Buffer.inWords, List.map_map, List.map_map]
  rfl

namespace Session

section
variable {code : List Insn} {l : Label}

/-- A label that the code places is known apart from all others that the code names. -/
def KnownApart (code : List Insn) : Prop :=
  ∀ k l, .label k ∈ code → (∃ i ∈ code, i.Names l) → k.word = l.word → k = l

theorem label_mem_map_words :
    .label l ∈ code.map (Insn.rename .words) ↔ ∃ k, .label k ∈ code ∧ k.rename Renaming.words.label = l := by
  constructor
  · intro h
    obtain ⟨i, hi, h⟩ := List.mem_map.1 h
    obtain ⟨k, rfl, hk⟩ := Insn.rename_eq_label_iff.1 h
    exact ⟨k, hi, hk⟩
  · rintro ⟨k, hk, rfl⟩
    exact List.mem_map_of_mem hk

theorem target_mem_map_words : (∃ i ∈ code.map (Insn.rename .words), i.target? = some l) ↔
    ∃ k, (∃ i ∈ code, i.target? = some k) ∧ k.rename Renaming.words.label = l := by
  constructor
  · rintro ⟨i', hi', hl⟩
    obtain ⟨i, hi, rfl⟩ := List.mem_map.1 hi'
    obtain ⟨c, hc⟩ := Insn.target?_eq_some_iff.1 hl
    obtain ⟨k, rfl, hk⟩ := Insn.rename_eq_jump_iff.1 hc
    exact ⟨k, ⟨_, hi, rfl⟩, hk⟩
  · rintro ⟨k, ⟨i, hi, hk⟩, rfl⟩
    obtain ⟨c, rfl⟩ := Insn.target?_eq_some_iff.1 hk
    exact ⟨_, List.mem_map_of_mem hi, rfl⟩

theorem LabelsInOrder.map_words (h : LabelsInOrder code) (hapart : KnownApart code) :
    LabelsInOrder (code.map (Insn.rename .words)) := by
  have hget {n : Nat} {i : Insn} : (code.map (Insn.rename .words))[n]? = some i ↔
      ∃ j, code[n]? = some j ∧ j.rename .words = i := by
    rw [List.getElem?_map, Option.map_eq_some_iff]
  have hlabel {n : Nat} {l : Label} (hn : (code.map (Insn.rename .words))[n]? = some (.label l)) :
      ∃ k, code[n]? = some (.label k) ∧ k.rename Renaming.words.label = l := by
    obtain ⟨_, hn, hl⟩ := hget.1 hn
    obtain ⟨k, rfl, hk⟩ := Insn.rename_eq_label_iff.1 hl
    exact ⟨k, hn, hk⟩
  have hsame {n m : Nat} {i : Insn} {k l : Label} (hn : code[n]? = some (.label k))
      (hm : code[m]? = some i) (hl : i.Names l)
      (hname : l.rename Renaming.words.label = k.rename Renaming.words.label) : k = l :=
    hapart k l (List.mem_of_getElem? hn) ⟨i, List.mem_of_getElem? hm, hl⟩
      (Label.rename_words_inj.1 hname.symm)
  have hforward (i j : Nat) (c : Cond) (l : Label)
      (hi : (code.map (Insn.rename .words))[i]? = some (.jump c l))
      (hj : (code.map (Insn.rename .words))[j]? = some (.label l)) : i < j := by
    obtain ⟨_, hi, hc⟩ := hget.1 hi
    obtain ⟨k, rfl, hk⟩ := Insn.rename_eq_jump_iff.1 hc
    obtain ⟨k', hj, hk'⟩ := hlabel hj
    have hkk' : k' = k := hsame hj hi (.inr rfl) (hk.trans hk'.symm)
    exact h.forward i j c k hi (hkk' ▸ hj)
  refine ⟨fun i j l hi hj => ?_, fun i l hi => ?_, fun j l hj => ?_, hforward,
    fun _ => Path.length_le (.of_lt hforward)⟩
  · obtain ⟨k, hi, hk⟩ := hlabel hi
    obtain ⟨k', hj, hk'⟩ := hlabel hj
    have hkk' : k' = k := hsame hj hi (.inl rfl) (hk.trans hk'.symm)
    exact h.once i j k hi (hkk' ▸ hj)
  · obtain ⟨k, hk, rfl⟩ := hlabel hi
    exact hget.2 ⟨_, h.framed i k hk, rfl⟩
  · obtain ⟨_, hk, hl⟩ := hget.1 hj
    obtain ⟨k, rfl, rfl⟩ := Insn.rename_eq_frame_iff.1 hl
    obtain ⟨i, rfl, hi⟩ := h.frame j k hk
    exact ⟨i, rfl, hget.2 ⟨_, hi, rfl⟩⟩

end

/-- Labels that are taken below `labelSpace` are known apart. -/
theorem Tidy.knownApart {s : Session} (h : s.Tidy) (hle : s.buffer.nextLabel ≤ labelSpace) :
    KnownApart s.buffer.code := fun k l hk ⟨i, hi, hl⟩ hword => by
  have hlt {i : Insn} {l : Label} (hi : i ∈ s.buffer.code) (hl : i.Names l) : l.id < labelSpace :=
    Nat.lt_of_lt_of_le (h.names i hi l hl) hle
  exact (Label.word_inj_of_lt (hlt hk (.inl rfl)) (hlt hi hl)).1 hword

theorem mem_dangling_inWords {b : Buffer} (h : b.Noted) (hapart : KnownApart b.code) {l : Label} :
    l ∈ b.inWords.dangling ↔ ∃ k ∈ b.dangling, k.rename Renaming.words.label = l := by
  rw [Buffer.mem_dangling h.inWords, Buffer.code_inWords, target_mem_map_words]
  simp only [Buffer.mem_dangling h]
  constructor
  · rintro ⟨⟨k, hk, rfl⟩, hno⟩
    exact ⟨k, ⟨hk, fun hmem => hno (label_mem_map_words.2 ⟨k, hmem, rfl⟩)⟩, rfl⟩
  · rintro ⟨k, ⟨hk, hno⟩, rfl⟩
    refine ⟨⟨k, hk, rfl⟩, fun hmem => ?_⟩
    obtain ⟨k', hk', hword⟩ := label_mem_map_words.1 hmem
    obtain ⟨i, hi, ht⟩ := hk
    have hsame := hapart k' k hk' ⟨i, hi, .inr ht⟩ (Label.rename_words_inj.1 hword)
    exact hno (hsame ▸ hk')

theorem unanswered_inWords {turns : List Turn} {l : Label} :
    (∃ pre t post, turns.map Turn.inWords = pre ++ t :: post ∧ t.BranchesInWords l ∧
        ¬ t.Answered post) ↔
      ∃ k, (∃ pre t post, turns = pre ++ t :: post ∧ t.Branches k ∧ ¬ t.Answered post) ∧
        k.rename Renaming.words.label = l := by
  constructor
  · rintro ⟨_, _, _, h, hb, hno⟩
    obtain ⟨pre, rest, rfl, -, hrest⟩ := List.map_eq_append_iff.1 h
    obtain ⟨t, post, rfl, rfl, rfl⟩ := List.map_eq_cons_iff.1 hrest
    obtain ⟨k, hk, hl⟩ := Turn.branchesInWords_inWords.1 hb
    exact ⟨k, ⟨pre, t, post, rfl, hk, fun hans => hno (Turn.answered_inWords.2 hans)⟩, hl⟩
  · rintro ⟨k, ⟨pre, t, post, rfl, hk, hno⟩, hl⟩
    exact ⟨pre.map Turn.inWords, t.inWords, post.map Turn.inWords, by simp,
      Turn.branchesInWords_inWords.2 ⟨k, hk, hl⟩, fun hans => hno (Turn.answered_inWords.1 hans)⟩

/-- The labels of a buffer are in order, and those that dangle are the targets of the sample branches
among the turns that are not answered. -/
structure Disciplined (b : Buffer) (turns : List Turn) : Prop where
  order : LabelsInOrder b.code
  dangling : ∀ l, l ∈ b.dangling ↔
    ∃ pre t post, turns = pre ++ t :: post ∧ t.BranchesInWords l ∧ ¬ t.Answered post
  nothing : (∀ pre t post, turns = pre ++ t :: post → (∃ l, t.Branches l) → t.Answered post) →
    b.dangling = []

/-- Where a label is placed by the name of another one, either a name is placed twice or a target that
nobody has placed does not dangle. -/
theorem Disciplined.knownApart {b : Buffer} {turns : List Turn} (hnoted : b.Noted)
    (hdangling : ∀ l, l ∈ b.dangling →
      ∃ pre t post, turns = pre ++ t :: post ∧ t.Branches l ∧ ¬ t.Answered post)
    (h : Disciplined b.inWords (turns.map Turn.inWords)) : KnownApart b.code := by
  rintro k l hk ⟨i, hi, hl⟩ hword
  have hname : k.rename Renaming.words.label = l.rename Renaming.words.label :=
    Label.rename_words_inj.2 hword
  have horder := Buffer.code_inWords b ▸ h.order
  have hget {n : Nat} {k : Label} (hn : b.code[n]? = some (.label k)) :
      (b.code.map (Insn.rename .words))[n]? = some (.label (k.rename Renaming.words.label)) := by
    rw [List.getElem?_map, hn]
    rfl
  by_cases hlabel : .label l ∈ b.code
  · obtain ⟨n, hn⟩ := List.mem_iff_getElem?.1 hk
    obtain ⟨m, hm⟩ := List.mem_iff_getElem?.1 hlabel
    obtain rfl : n = m := horder.once n m _ (hget hn) (hname ▸ hget hm)
    exact Insn.label.inj (Option.some.inj (hn.symm.trans hm))
  · have htarget : i.target? = some l := hl.resolve_left fun he => hlabel (he ▸ hi)
    have hmem : l ∈ b.dangling := (Buffer.mem_dangling hnoted).2 ⟨⟨i, hi, htarget⟩, hlabel⟩
    have hknown : l.rename Renaming.words.label ∈ b.inWords.dangling :=
      (h.dangling _).2 (unanswered_inWords.2 ⟨l, hdangling l hmem, rfl⟩)
    have hno := ((Buffer.mem_dangling hnoted.inWords).1 hknown).2
    rw [Buffer.code_inWords, label_mem_map_words] at hno
    exact absurd ⟨k, hk, hname⟩ hno

section
variable {expanders : List (Nat × Settings)} {firstSlot : UInt16} {as : List (Nat × Action)}

/-- The labels of a session are in order as they are known while it has taken no more than `labelSpace` of
them, and exactly while those that it places are known apart from the others. -/
theorem disciplined_iff_knownApart
    (hs : ∀ t ∈ (opened expanders firstSlot).turnsInWords as, t.Succeeds) :
    let s := opened expanders firstSlot
    ((s.actAll as).buffer.nextLabel ≤ labelSpace →
        Disciplined (s.actAllInWords as).buffer (s.turnsInWords as)) ∧
      (Disciplined (s.actAllInWords as).buffer (s.turnsInWords as) ↔
        KnownApart (s.actAll as).buffer.code) := by
  intro s
  rw [turnsInWords_opened] at hs
  have hs : ∀ t ∈ s.turns as, t.Succeeds := fun t ht =>
    Turn.succeeds_inWords.1 (hs t.inWords (List.mem_map_of_mem ht))
  have htidy : (s.actAll as).Tidy := tidy_actAll (tidy_opened expanders firstSlot) hs
  have hnoted : (s.actAll as).buffer.Noted := Buffer.keeps_noted.actAll (s := s) rfl as
  have hdangling (l : Label) := mem_dangling_iff (l := l) hs
  have hbuffer : (s.actAllInWords as).buffer = (s.actAll as).buffer.inWords :=
    congrArg buffer (actAllInWords_opened expanders firstSlot)
  rw [hbuffer, turnsInWords_opened]
  have hdisciplined (hapart : KnownApart (s.actAll as).buffer.code) :
      Disciplined (s.actAll as).buffer.inWords ((s.turns as).map Turn.inWords) := by
    have hiff (l : Label) := (mem_dangling_inWords hnoted hapart (l := l)).trans
      ((exists_congr fun k => and_congr_left' (hdangling k)).trans unanswered_inWords.symm)
    refine ⟨?_, hiff, fun hall => List.eq_nil_iff_forall_not_mem.2 fun l hl => ?_⟩
    · rw [Buffer.code_inWords]
      exact htidy.labelsInOrder.map_words hapart
    · obtain ⟨pre, t, post, h, ⟨k, hk, -⟩, hno⟩ := (hiff l).1 hl
      exact hno (hall pre t post h ⟨k, hk⟩)
  exact ⟨fun hle => hdisciplined (htidy.knownApart hle),
    Disciplined.knownApart hnoted fun l => (hdangling l).1, hdisciplined⟩

/-- Of two expanders that branch in turn, the first one gets its else marker and the second does
not. -/
theorem disciplined_iff_knownApart_two :
    let entry := (Marker.ofKind .entry).withSampler (some .adaptive)
    let test := Marker.ofKind .test
    let as := [(0, Action.record entry), (1, .record entry), (0, .expand entry), (1, .expand entry),
      (0, .expand test), (1, .expand test), (0, .expand (.ofKind .elseBranch))]
    let s := opened [(7, {}), (8, {})] 0
    (∀ t ∈ s.turnsInWords as, t.Succeeds) ∧ (s.actAll as).buffer.nextLabel = 4 ∧
      (s.actAllInWords as).buffer.dangling = [⟨3⟩] ∧
      Disciplined (s.actAllInWords as).buffer (s.turnsInWords as) ∧
      KnownApart (s.actAll as).buffer.code := by
  intro entry test as s
  have hs : ∀ t ∈ s.turnsInWords as, t.Succeeds := fun t ht =>
    Turn.succeeds_of_all (by decide) ht
  have hnext : (s.actAll as).buffer.nextLabel = 4 := by decide
  obtain ⟨hdisciplined, hiff⟩ := disciplined_iff_knownApart hs
  have hd := hdisciplined (hnext ▸ by decide)
  exact ⟨hs, hnext, by decide, hd, hiff.1 hd⟩

end

/-- After a full round of labels the name of the first one is placed once more, and the sample branch goes
back to where the last one went. -/
theorem not_disciplined_testedAgain :
    let s := opened [(7, {}), (8, {})] 0
    let as := testedAgain 4294967294
    let b := (s.actAllInWords as).buffer
    (∀ t ∈ s.turnsInWords as, t.Succeeds) ∧ b.code[5]? = some (.label ⟨0⟩) ∧ b.code[11]? = some (.label ⟨0⟩) ∧
      b.code[7]? = some (.label ⟨1⟩) ∧ b.code[10]? = some (.jump .ifZero ⟨1⟩) ∧
      ¬ Disciplined b (s.turnsInWords as) := by
  intro s as b
  obtain ⟨herror, hall⟩ := testedAgain_inWords (n := 4294967294) (by decide)
  have hb : b = (secondTest 4294967294).after.inWords.buffer := congrArg buffer hall
  have h5 : b.code[5]? = some (.label ⟨0⟩) := hb ▸ by decide
  have h11 : b.code[11]? = some (.label ⟨0⟩) := hb ▸ by decide
  have hne : ¬ 5 = 11 := by decide
  exact ⟨fun t ht _ _ => herror t ht, h5, h11, hb ▸ by decide, hb ▸ by decide,
    fun h => hne (h.order.once 5 11 _ h5 h11)⟩

end Session

end MethodProbes
