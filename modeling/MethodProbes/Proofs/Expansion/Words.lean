import MethodProbes.Proofs.Expansion.Renaming

/-!
# Labels as they are known

A label is known by 32 bits of its number.  An expander uses the numbers of labels as names only, so it
may as well begin with labels as they are known: it fails alike, and what it leaves behind is the same
as labels are known.
-/
namespace MethodProbes

open Step

namespace Renaming

theorem words_trans_words : words.trans words = words :=
  congrArg (mk id) (funext label_words_words)

/-- The labels from `n` on are moved to where the word of `n` is, without a change of any word. -/
theorem trans_words_of_spliceAt (n : Nat) :
    (mk id (spliceAt words.label n (words.label n))).trans words = words := by
  refine congrArg (mk id) (funext fun k => ?_)
  change words.label (spliceAt words.label n (words.label n) k) = words.label k
  rcases Nat.lt_or_ge k n with hk | hk
  · rw [spliceAt_of_lt hk, label_words_words]
  · obtain ⟨j, rfl⟩ := Nat.exists_eq_add_of_le hk
    rw [shifts_spliceAt]
    simp only [label_words, Nat.mod_add_mod]

end Renaming

theorem Label.rename_words_inj {k l : Label} :
    k.rename Renaming.words.label = l.rename Renaming.words.label ↔ k.word = l.word := by
  rw [rename, rename, mk.injEq]
  exact UInt32.toNat_inj

theorem Label.word_inj_of_lt {k l : Label} (hk : k.id < labelSpace) (hl : l.id < labelSpace) :
    k.word = l.word ↔ k = l := by
  rw [← rename_words_inj, rename, rename, Renaming.label_words_of_lt hk, Renaming.label_words_of_lt hl]

namespace Context

variable (x : Context) (m : Marker)

theorem steps_pendingElse (hm : m.kind ≠ .elseBranch) (l : Option Label) :
    { x with cycle := { x.cycle with pendingElse := l } }.steps m = x.steps m := by
  rw [steps, steps]
  cases hk : m.kind with
  | elseBranch => exact absurd hk hm
  | _ => rfl

/-- A marker becomes the same steps, as labels are known, when all labels are as they are known. -/
theorem map_words_steps :
    ((x.rename .words (Renaming.words.label x.nextLabel)).steps m).map (Step.rename .words) =
      (x.steps m).map (Step.rename .words) := by
  by_cases hm : m.kind = .elseBranch
  · rw [steps, steps, hm]
    dsimp only
    rw [elseSteps_rename, map_rename_rename, Renaming.words_trans_words]
  · let n := Renaming.words.label x.nextLabel
    let r : Renaming := ⟨id, spliceAt Renaming.words.label x.nextLabel n⟩
    have hpending : (x.rename .words n).steps m = (x.rename r n).steps m :=
      steps_pendingElse (x.rename r n) m hm (x.cycle.rename .words).pendingElse
    rw [hpending, steps_rename (shifts_spliceAt _ _ _), map_rename_rename,
      Renaming.trans_words_of_spliceAt]

end Context

namespace Buffer

variable (b : Buffer)

theorem inWords_empty (firstSlot : UInt16) : (empty firstSlot).inWords = empty firstSlot := by
  simp [inWords, code, empty, Renaming.label_words]

theorem inWords_inWords : b.inWords.inWords = b.inWords := by
  have hcode : b.inWords.code.map (Insn.rename .words) = b.code.map (Insn.rename .words) := by
    rw [code_inWords, List.map_map]
    refine List.map_congr_left fun i _ => ?_
    rw [Function.comp_apply, Insn.rename_rename, Renaming.words_trans_words]
  have hplaced : (b.placed.map fun p => (p.1.rename Renaming.words.label, p.2)).map
        (fun p => (p.1.rename Renaming.words.label, p.2)) =
      b.placed.map fun p => (p.1.rename Renaming.words.label, p.2) := by
    simp only [List.map_map, Function.comp_def, Label.rename, Renaming.label_words_words]
  rw [inWords, hcode, inWords]
  dsimp only
  rw [hplaced, Renaming.label_words_words]

theorem inWords_emit (i : Insn) : (b.emit i).inWords = b.inWords.emit (i.rename .words) := by
  cases i <;> simp [inWords, code, emit, Insn.rename]

theorem inWords_emit_inWords (i : Insn) :
    (b.inWords.emit (i.rename .words)).inWords = (b.emit i).inWords := by
  rw [← inWords_emit, inWords_inWords]

theorem inWords_newLabel : b.inWords.newLabel.2.inWords = b.newLabel.2.inWords := by
  have hnext : b.inWords.newLabel.2.inWords.nextLabel = b.newLabel.2.inWords.nextLabel := by
    rw [nextLabel_newLabel_inWords, nextLabel_newLabel_inWords, inWords_inWords]
  calc b.inWords.newLabel.2.inWords
    _ = { b.inWords.inWords with nextLabel := b.inWords.newLabel.2.inWords.nextLabel } := rfl
    _ = { b.inWords with nextLabel := b.newLabel.2.inWords.nextLabel } := by
      rw [inWords_inWords, hnext]

theorem storeInto_inWords (ty : ValueType) (s : Option Slot) :
    (b.inWords.storeInto ty s).1 = (b.storeInto ty s).1 ∧
      (b.inWords.storeInto ty s).2.inWords = (b.storeInto ty s).2.inWords := by
  cases s with
  | some s => exact ⟨rfl, b.inWords_emit_inWords (.store ty s)⟩
  | none =>
    rcases Nat.lt_or_ge slotSpace (b.nextSlot + ty.width) with hlt | hle
    · rw [storeInto, storeInto, storeNew_of_lt hlt, storeNew_of_lt (b := b.inWords) hlt]
      exact ⟨rfl, b.inWords_inWords⟩
    · rw [storeInto, storeInto, storeNew_of_le hle, storeNew_of_le (b := b.inWords) hle]
      exact ⟨rfl, (b.reserve ty).inWords_emit_inWords (.store ty ⟨b.nextSlot⟩)⟩

end Buffer

def Progress.inWords (p : Progress) : Progress := ⟨p.buffer.inWords, p.cycle.rename .words⟩

theorem Progress.inWords_congr {b b' : Buffer} {c c' : Cycle} (hb : b.inWords = b'.inWords)
    (hc : c.rename .words = c'.rename .words) : inWords ⟨b, c⟩ = inWords ⟨b', c'⟩ := by
  rw [inWords, inWords, hb, hc]

namespace Step

variable {p p' : Progress} {s : Step} {ss ss' : List Step}

theorem take_inWords (p : Progress) (s : Step) :
    (take p.inWords (s.rename .words)).1 = (take p s).1 ∧
      (take p.inWords (s.rename .words)).2.inWords = (take p s).2.inWords := by
  obtain ⟨b, c⟩ := p
  have hc : (c.rename .words).rename .words = c.rename .words := by
    rw [Cycle.rename_rename, Renaming.words_trans_words]
  have hslot (v : Var) : (c.rename .words).slot? v = c.slot? v := by
    rw [Cycle.slot?_rename]
    exact Option.map_id'
  cases s with
  | emit i => exact ⟨rfl, Progress.inWords_congr (b.inWords_emit_inWords i) hc⟩
  | newLabel => exact ⟨rfl, Progress.inWords_congr b.inWords_newLabel hc⟩
  | load v =>
    simp only [take, rename, Progress.inWords, hslot]
    cases c.slot? v with
    | none => exact ⟨rfl, Progress.inWords_congr b.inWords_inWords hc⟩
    | some s => exact ⟨rfl, Progress.inWords_congr (b.inWords_emit_inWords (.load v.type s)) hc⟩
  | store v =>
    have hstore := b.storeInto_inWords v.type (c.slot? v)
    simp only [take, rename, Progress.inWords, hslot]
    generalize b.storeInto v.type (c.slot? v) = o at hstore ⊢
    generalize b.inWords.storeInto v.type (c.slot? v) = o' at hstore ⊢
    obtain ⟨e | s, b₁⟩ := o <;> obtain ⟨e' | s', b₁'⟩ := o' <;> obtain ⟨hresult, hbuffer⟩ := hstore <;>
      cases hresult
    · exact ⟨rfl, Progress.inWords_congr hbuffer hc⟩
    · refine ⟨rfl, Progress.inWords_congr hbuffer ?_⟩
      rw [Cycle.rename_bind, Cycle.rename_bind, hc]
  | await l =>
    have hl : (l.rename Renaming.words.label).rename Renaming.words.label =
        l.rename Renaming.words.label := congrArg Label.mk (Renaming.label_words_words l.id)
    have hcycle := congr (congrArg (fun (c : Cycle) l => { c with pendingElse := some l }) hc) hl
    exact ⟨rfl, Progress.inWords_congr b.inWords_inWords hcycle⟩
  | settle =>
    have hcycle := congrArg (fun c : Cycle => { c with pendingElse := none }) hc
    exact ⟨rfl, Progress.inWords_congr b.inWords_inWords hcycle⟩
  | measured =>
    have hcycle := congrArg (fun c : Cycle => { c with measured := true }) hc
    exact ⟨rfl, Progress.inWords_congr b.inWords_inWords hcycle⟩
  | reset => exact ⟨rfl, Progress.inWords_congr b.inWords_inWords (congrArg Cycle.reset hc)⟩

/-- What starts alike as labels are known ends alike as labels are known. -/
theorem takeAll_congr (hp : p.inWords = p'.inWords)
    (hss : ss.map (rename .words) = ss'.map (rename .words)) :
    (takeAll p ss).1 = (takeAll p' ss').1 ∧
      (takeAll p ss).2.inWords = (takeAll p' ss').2.inWords := by
  induction ss generalizing p p' ss' with
  | nil =>
    cases ss' with
    | nil => exact ⟨rfl, hp⟩
    | cons => cases hss
  | cons s ss ih =>
    cases ss' with
    | nil => cases hss
    | cons s' ss' =>
      rw [List.map_cons, List.map_cons] at hss
      obtain ⟨hs, hss⟩ := List.cons.inj hss
      obtain ⟨herror, hfirst⟩ := take_inWords p s
      obtain ⟨herror', hfirst'⟩ := take_inWords p' s'
      rw [hp, hs] at herror hfirst
      replace herror := herror.symm.trans herror'
      replace hfirst := hfirst.symm.trans hfirst'
      rcases ht : take p s with ⟨_ | e, q⟩ <;> rcases ht' : take p' s' with ⟨_ | e', q'⟩ <;>
        rw [ht, ht'] at herror hfirst <;> cases herror
      · rw [takeAll_cons_none ht, takeAll_cons_none ht']
        exact ih hfirst hss
      · rw [takeAll_cons_some ht, takeAll_cons_some ht']
        exact ⟨rfl, hfirst⟩

end Step

namespace Expander

variable (x : Expander) (m : Marker) (b : Buffer)

theorem rename_words_words : (x.rename .words).rename .words = x.rename .words := by
  rw [rename_rename, Renaming.words_trans_words]

/-- An expander that begins with labels as they are known comes to the same, as labels are known. -/
theorem expand_inWords :
    let e := x.expand m b
    let e' := (x.rename .words).expand m b.inWords
    e'.error = e.error ∧ e'.registration = e.registration ∧
      e'.expander.rename .words = e.expander.rename .words ∧ e'.buffer.inWords = e.buffer.inWords := by
  have heffective : (x.rename .words).effectiveId m = x.effectiveId m := rfl
  simp only [expand, heffective]
  cases x.effectiveId m with
  | error e => exact ⟨rfl, rfl, x.rename_words_words, b.inWords_inWords⟩
  | ok id =>
    have hstart : Progress.inWords ⟨b.inWords, (x.rename .words).cycle⟩ =
        Progress.inWords ⟨b, x.cycle⟩ :=
      Progress.inWords_congr b.inWords_inWords (congrArg cycle x.rename_words_words)
    obtain ⟨herror, hend⟩ := takeAll_congr hstart ((x.context id b.nextLabel).map_words_steps m)
    obtain ⟨hbuffer, hcycle⟩ := Progress.mk.inj hend
    refine ⟨congrArg (Option.map MarkerError.slotsExhausted) herror, rfl, ?_, hbuffer⟩
    exact congrArg (fun c : Cycle => { x with cycle := c }) hcycle

end Expander

end MethodProbes
