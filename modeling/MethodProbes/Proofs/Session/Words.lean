import MethodProbes.Proofs.Expansion.Words
import MethodProbes.Proofs.Session.Renaming

/-!
# Sessions as labels are known

A session goes on from labels as they are known, and these may be the names of labels that were taken
long ago.  It comes to what the session comes to that has a number of its own for each label, as labels
are known in the end.
-/
namespace MethodProbes

def Turn.inWords (t : Turn) : Turn := { t with before := t.before.inWords }

namespace Session

variable (s : Session) {as : List (Nat × Action)}

theorem inWords_inWords : s.inWords.inWords = s.inWords := by
  rw [inWords, inWords]
  dsimp only
  rw [Buffer.inWords_inWords, List.map_map]
  exact congrArg (mk · _ _) (List.map_congr_left fun x _ => x.rename_words_words)

theorem code_inWords : s.inWords.buffer.code = s.buffer.code.map (Insn.rename .words) := rfl

theorem inWords_opened (expanders : List (Nat × Settings)) (firstSlot : UInt16) :
    (opened expanders firstSlot).inWords = opened expanders firstSlot := by
  rw [inWords, opened, new]
  dsimp only
  rw [Buffer.inWords_empty, List.map_map]
  rfl

/-- An action comes to the same, as labels are known, from labels as they are known. -/
theorem act_inWords (i : Nat) (a : Action) : (s.inWords.act i a).1 = (s.act i a).1 ∧
    (s.inWords.act i a).2.inWords = (s.act i a).2.inWords := by
  have hs := s.inWords_inWords
  have hx : s.inWords.expanders[i]? = s.expanders[i]?.map (Expander.rename .words) :=
    List.getElem?_map
  obtain ⟨xs, b, c⟩ := s
  have hset {y y' : Expander} {b₁ b₂ : Buffer} (d : Counters)
      (hy : y.rename .words = y'.rename .words) (hb : b₁.inWords = b₂.inWords) :
      inWords ⟨(xs.map (Expander.rename .words)).set i y, b₁, d⟩ = inWords ⟨xs.set i y', b₂, d⟩ := by
    have hxs := congrArg expanders hs
    dsimp only [inWords] at hxs ⊢
    rw [List.map_set, List.map_set, hxs, hy, hb]
  dsimp only [inWords] at hx ⊢
  simp only [act, hx]
  cases xs[i]? with
  | none => exact ⟨rfl, hs⟩
  | some x =>
    cases a with
    | record m =>
      dsimp only [Option.map_some]
      rw [Expander.record_rename]
      cases x.record m with
      | error e => exact ⟨rfl, hs⟩
      | ok y => exact ⟨rfl, hset c y.rename_words_words b.inWords_inWords⟩
    | expand m =>
      obtain ⟨herror, hregistration, hexpander, hbuffer⟩ := x.expand_inWords m b
      refine ⟨herror, (hset _ hexpander hbuffer).trans ?_⟩
      rw [hregistration]
      rfl
    | forgetMeasurement =>
      exact ⟨rfl, hset c x.forgetMeasurement.rename_words_words b.inWords_inWords⟩

theorem actInWords_inWords (a : Nat × Action) :
    (s.inWords.actInWords a.1 a.2).2 = (s.act a.1 a.2).2.inWords := (s.act_inWords a.1 a.2).2

/-- What is done with labels as they are known comes to what is done with a number of its own for each
label, with labels as they are known in the end. -/
theorem actAllInWords_inWords : s.inWords.actAllInWords as = (s.actAll as).inWords := by
  induction as generalizing s with
  | nil => rfl
  | cons a as ih =>
    rw [actAllInWords, List.foldl_cons, actInWords_inWords]
    exact ih (s.act a.1 a.2).2

/-- The turns of a run in which labels are as they are known. -/
def turnsInWords (s : Session) : List (Nat × Action) → List Turn
  | [] => []
  | a :: as => ⟨s, a.1, a.2⟩ :: (s.actInWords a.1 a.2).2.turnsInWords as

theorem turnsInWords_inWords : s.inWords.turnsInWords as = (s.turns as).map Turn.inWords := by
  induction as generalizing s with
  | nil => rfl
  | cons a as ih =>
    rw [turnsInWords, actInWords_inWords, ih]
    rfl

section
variable (expanders : List (Nat × Settings)) (firstSlot : UInt16)

theorem actAllInWords_opened : (opened expanders firstSlot).actAllInWords as =
    ((opened expanders firstSlot).actAll as).inWords := by
  rw [← actAllInWords_inWords, inWords_opened]

theorem turnsInWords_opened : (opened expanders firstSlot).turnsInWords as =
    ((opened expanders firstSlot).turns as).map Turn.inWords := by
  rw [← turnsInWords_inWords, inWords_opened]

end

end Session

namespace Turn

variable {t : Turn} {post : List Turn} {l : Label}

theorem error?_inWords : t.inWords.error? = t.error? := (t.before.act_inWords t.index t.action).1

theorem after_inWords : t.inWords.after.inWords = t.after.inWords :=
  (t.before.act_inWords t.index t.action).2

theorem emitted_inWords :
    t.inWords.emitted.map (Insn.rename .words) = t.emitted.map (Insn.rename .words) := by
  have hcode : t.inWords.after.buffer.code.map (Insn.rename .words) =
      t.after.buffer.code.map (Insn.rename .words) := by
    rw [← Buffer.code_inWords, ← Buffer.code_inWords]
    exact congrArg (·.buffer.code) after_inWords
  have hlength : t.inWords.before.buffer.code.length = t.before.buffer.code.length := by
    rw [inWords, Session.inWords, Buffer.code_inWords, List.length_map]
  rw [emitted, emitted, List.map_drop, List.map_drop, hcode, hlength]

theorem expander?_inWords : t.inWords.expander? = t.expander?.map (Expander.rename .words) :=
  List.getElem?_map

/-- The turn branches to a label that is known as `l`. -/
def BranchesInWords (t : Turn) (l : Label) : Prop :=
  ∃ k, t.Branches k ∧ k.rename Renaming.words.label = l

/-- The code of a sample branch can be told as labels are known. -/
theorem infix_map_words_iff {code : List Insn} {s : Slot} :
    [.load .int s, .jump .ifZero l] <:+: code.map (Insn.rename .words) ↔
      ∃ k, [.load .int s, .jump .ifZero k] <:+: code ∧ k.rename Renaming.words.label = l := by
  constructor
  · rintro ⟨pre, post, h⟩
    rw [List.append_assoc] at h
    obtain ⟨before, rest, rfl, -, hrest⟩ := List.map_eq_append_iff.1 h.symm
    obtain ⟨insn, rest, rfl, hload, hrest⟩ := List.map_eq_cons_iff.1 hrest
    obtain ⟨insn', rest, rfl, hjump, -⟩ := List.map_eq_cons_iff.1 hrest
    obtain ⟨k, rfl, hk⟩ := Insn.rename_eq_jump_iff.1 hjump
    obtain ⟨q, rfl, rfl⟩ := Insn.rename_eq_load_iff.1 hload
    exact ⟨k, ⟨before, rest, by simp; rfl⟩, hk⟩
  · rintro ⟨k, h, rfl⟩
    exact h.map (Insn.rename .words)

theorem branchesInWords_iff : t.BranchesInWords l ↔ ∃ m s, t.action = .expand m ∧ m.kind = .test ∧
    t.expander?.bind (·.cycle.sampleHit) = some s ∧
      [.load .int s, .jump .ifZero l] <:+: t.emitted.map (Insn.rename .words) := by
  constructor
  · rintro ⟨k, ⟨x, m, s, hx, ha, hm, hs, hcode⟩, hk⟩
    refine ⟨m, s, ha, hm, ?_, infix_map_words_iff.2 ⟨k, hcode, hk⟩⟩
    rw [hx, Option.bind_some, hs]
  · rintro ⟨m, s, ha, hm, hs, hcode⟩
    obtain ⟨x, hx, hs⟩ := Option.bind_eq_some_iff.1 hs
    obtain ⟨k, hcode, hk⟩ := infix_map_words_iff.1 hcode
    exact ⟨k, ⟨x, m, s, hx, ha, hm, hs, hcode⟩, hk⟩

theorem branchesInWords_inWords : t.inWords.BranchesInWords l ↔ t.BranchesInWords l := by
  have hflag : t.inWords.expander?.bind (·.cycle.sampleHit) =
      t.expander?.bind (·.cycle.sampleHit) := by
    rw [expander?_inWords, Option.bind_map]
    exact Option.bind_congr fun x _ => Option.map_id'
  rw [branchesInWords_iff, branchesInWords_iff, hflag, emitted_inWords]
  rfl

theorem succeeds_inWords : t.inWords.Succeeds ↔ t.Succeeds := by
  rw [Succeeds, Succeeds, error?_inWords]
  rfl

theorem answered_inWords : t.inWords.Answered (post.map inWords) ↔ t.Answered post := by
  have hquiet (u : Turn) : (∀ l, ¬ u.inWords.Branches l) ↔ ∀ l, ¬ u.Branches l := by
    have hbranches (v : Turn) : (∃ l, v.BranchesInWords l) ↔ ∃ l, v.Branches l :=
      ⟨fun ⟨_, k, hk, _⟩ => ⟨k, hk⟩, fun ⟨k, hk⟩ => ⟨_, k, hk, rfl⟩⟩
    rw [← not_exists, ← not_exists, ← hbranches, ← hbranches u]
    simp only [branchesInWords_inWords]
  constructor
  · rintro ⟨_, _, _, h, hi, helse, hmid⟩
    obtain ⟨mid, rest, rfl, rfl, hrest⟩ := List.map_eq_append_iff.1 h
    obtain ⟨e, rest, rfl, rfl, -⟩ := List.map_eq_cons_iff.1 hrest
    exact ⟨mid, e, rest, rfl, hi, helse, fun u hu hui =>
      (hquiet u).1 (hmid u.inWords (List.mem_map_of_mem hu) hui)⟩
  · rintro ⟨mid, e, rest, rfl, hi, helse, hmid⟩
    refine ⟨mid.map inWords, e.inWords, rest.map inWords, by simp, hi, helse, fun _ hu hui => ?_⟩
    obtain ⟨u, hmem, rfl⟩ := List.mem_map.1 hu
    exact (hquiet u).2 (hmid u hmem hui)

end Turn

/-! ### More labels than names -/

namespace Session

/-- A marker that takes a label and does nothing else is expanded over and over. -/
theorem actAll_replicate {s : Session} {i : Nat} {x : Expander} {m : Marker}
    (hx : s.expanders[i]? = some x)
    (htake : ∀ b, x.expand m b = ⟨x, b.newLabel.2, none, none⟩) (n : Nat) :
    s.actAll (List.replicate n (i, .expand m)) =
        { s with buffer := { s.buffer with nextLabel := s.buffer.nextLabel + n } } ∧
      ∀ t ∈ s.turns (List.replicate n (i, .expand m)), t.error? = none := by
  induction n generalizing s with
  | zero => exact ⟨rfl, nofun⟩
  | succ n ih =>
    have hact : s.act i (.expand m) = (none, { s with buffer := s.buffer.newLabel.2 }) := by
      obtain ⟨xs, b, c⟩ := s
      obtain ⟨hlt, hget⟩ := List.getElem?_eq_some_iff.1 hx
      have hset : xs.set i x = xs := hget ▸ List.set_getElem_self hlt
      have hx : xs[i]? = some x := hx
      simp only [act, hx, htake, hset]
      rfl
    obtain ⟨hall, herror⟩ := ih (s := { s with buffer := s.buffer.newLabel.2 }) hx
    refine ⟨?_, ?_⟩
    · rw [List.replicate_succ, actAll, List.foldl_cons, hact]
      refine hall.trans ?_
      simp [Buffer.newLabel, Nat.add_assoc, Nat.add_comm 1]
    · rw [List.replicate_succ, turns, hact]
      exact List.forall_mem_cons.2 ⟨congrArg Prod.fst hact, herror⟩

/-- A sampled expander tests and comes to its else marker. -/
def answeredOnce : List (Nat × Action) :=
  let entry := (Marker.ofKind .entry).withSampler (some .const)
  [(0, .record entry), (0, .expand entry), (0, .expand (.ofKind .test)),
    (0, .expand (.ofKind .elseBranch))]

/-- After `n` tests of another expander, which has nothing to test, the first one tests again. -/
def testedAgain (n : Nat) : List (Nat × Action) :=
  answeredOnce ++ List.replicate n (1, .expand (.ofKind .test)) ++ [(0, .expand (.ofKind .test))]

def secondTest (n : Nat) : Turn :=
  let s := (opened [(7, {}), (8, {})] 0).actAll answeredOnce
  ⟨{ s with buffer := { s.buffer with nextLabel := s.buffer.nextLabel + n } }, 0,
    .expand (.ofKind .test)⟩

theorem before_secondTest (n : Nat) :
    let s := opened [(7, {}), (8, {})] 0
    let as := answeredOnce ++ List.replicate n (1, Action.expand (.ofKind .test))
    (∀ t ∈ s.turns as, t.error? = none) ∧ s.actAll as = (secondTest n).before := by
  intro s as
  obtain ⟨hall, herror⟩ := actAll_replicate (s := s.actAll answeredOnce) (i := 1) (x := .new 8 {})
    (m := .ofKind .test) rfl (fun _ => rfl) n
  have hfirst : ∀ t ∈ s.turns answeredOnce, t.error? = none := by decide
  exact ⟨turns_append ▸ List.forall_mem_append.2 ⟨hfirst, herror⟩, (actAll_append s _ _).trans hall⟩

theorem testedAgain_inWords {n : Nat} (h : (secondTest n).error? = none) :
    let s := opened [(7, {}), (8, {})] 0
    (∀ t ∈ s.turnsInWords (testedAgain n), t.error? = none) ∧
      s.actAllInWords (testedAgain n) = (secondTest n).after.inWords := by
  intro s
  obtain ⟨herror, hbefore⟩ := before_secondTest n
  rw [turnsInWords_opened, actAllInWords_opened, testedAgain, turns_concat, actAll_concat, hbefore]
  refine ⟨fun u hu => ?_, rfl⟩
  obtain ⟨t, ht, rfl⟩ := List.mem_map.1 hu
  rw [Turn.error?_inWords]
  exact List.forall_mem_append.2 ⟨herror, List.forall_mem_singleton.2 h⟩ t ht

end Session

end MethodProbes
