import MethodProbes.Proofs.Expansion.StoredVars
import MethodProbes.Proofs.Tracking.EntryCall

/-!
# Phrases

The code of a marker is a sequence of phrases, each of which leaves the operand stack as it found
it.  What holds of every phrase and of code in parts holds of the code of all markers; only a
duration marker is no phrase, since it leaves its result on the stack.
-/
namespace MethodProbes

def Step.isNote : Step → Bool
  | .newLabel | .await _ | .settle | .measured | .reset => true
  | .emit _ | .load _ | .store _ => false

/-- The steps that make a call.  All calls but the one of the clock push an id first. -/
inductive Asks : ProbeCall → List Step → Prop
  | withId (id : Int32) {call : ProbeCall} (h : call ≠ .nanoTime) :
    Asks call [.emit (.push (.int id)), .emit (.invoke call.callee)]
  | clock : Asks .nanoTime [.emit (.invoke ProbeCall.nanoTime.callee)]

inductive Phrase : List Step → Prop
  | note {s : Step} (h : s.isNote = true) : Phrase [s]
  | merge (l : Label) : Phrase (Step.merge l)
  | goto (l : Label) : Phrase [.emit (.jump .always l)]
  /-- Gives a variable a constant. -/
  | constant {v : Var} {c : Const} (h : c.type = v.type) : Phrase [.emit (.push c), .store v]
  | levelTest (field : String) (bound : Bool) (n : Int32) {c d : Cond} (hc : c.operands = 1)
    (hd : d.operands = 2) (l : Label) :
    Phrase (Gate.pushLevel field bound ++ Gate.compare n c d l)
  | flagTest (l : Label) : Phrase [.load .sampleHit, .emit (.jump .ifZero l)]
  /-- Keeps the answer of a call in one variable. -/
  | keep {call : ProbeCall} {ss : List Step} {v : Var} (h : Asks call ss)
    (hret : call.ret.map ValueType.carrier = some v.type) : Phrase (ss ++ [.store v])
  /-- Keeps the answer as the time of entry, and its low bits as the flag. -/
  | keepTimeAndFlag {call : ProbeCall} {ss : List Step} (h : Asks call ss)
    (hret : call.ret = some .long) :
    Phrase (ss ++ [.emit (.dup .long), .store .entryTs, .emit .longToInt, .store .sampleHit])
  /-- Stores the time that has passed since the entry. -/
  | elapsed {call : ProbeCall} {ss : List Step} (h : Asks call ss) (hret : call.ret = some .long) :
    Phrase (ss ++ [.load .entryTs, .emit (.sub .long), .store .duration])
  /-- Makes a call that answers nothing. -/
  | tell {call : ProbeCall} {ss : List Step} (h : Asks call ss) (hret : call.ret = none) : Phrase ss

inductive Phrased : List Step → Prop
  | nil : Phrased []
  | append {p ss : List Step} (phrase : Phrase p) (rest : Phrased ss) : Phrased (p ++ ss)

theorem Phrase.phrased {p : List Step} (h : Phrase p) : Phrased p :=
  List.append_nil p ▸ .append h .nil

theorem Phrased.trans {ss ts : List Step} (hs : Phrased ss) (ht : Phrased ts) :
    Phrased (ss ++ ts) := by
  induction hs with
  | nil => exact ht
  | append phrase _ ih =>
    rw [List.append_assoc]
    exact .append phrase ih

theorem Phrased.note {s : Step} {ss : List Step} (hs : s.isNote = true) (h : Phrased ss) :
    Phrased (s :: ss) := .append (p := [s]) (.note hs) h

namespace Gate

theorem phrased_checkSteps (field : String) (skip next : Label) (bound : Bool)
    (cs : List Check) : Phrased (checkSteps field skip next bound cs) := by
  induction cs generalizing bound with
  | nil => exact .nil
  | cons k cs ih =>
    cases k with
    | nextIfBelow n => exact .append (.levelTest field bound n rfl rfl next) (ih true)
    | skipIfAtMost n => exact .append (.levelTest field bound n rfl rfl skip) (ih true)
    | skip => exact .append (p := [_]) (.goto skip) (ih bound)

theorem phrased_rangeSteps (field : String) (skip : Label) (bound : Bool) (n : Nat)
    (rs : List SkipRange) : Phrased (rangeSteps field skip bound n rs) := by
  induction rs generalizing bound n with
  | nil => exact .nil
  | cons r rs ih =>
    have hrange := (phrased_checkSteps field skip ⟨n⟩ bound r.checks).trans
      (Phrase.merge ⟨n⟩).phrased
    exact (hrange.note (s := .newLabel) rfl).trans (ih _ _)

end Gate

/-- The call that decides a sample answers the time of entry if the method is timed, and a flag
otherwise. -/
theorem Tracking.ret_of_sampling? {t : Tracking} {n : Nat} {call : ProbeCall}
    (h : t.sampling? = some (n, call)) :
    call ≠ .nanoTime ∧ call.ret = some (if t.timed then .long else .bool) := by
  obtain ⟨mean, -, h⟩ := Option.bind_eq_some_iff.1 h
  obtain ⟨s, -, h⟩ := Option.bind_eq_some_iff.1 h
  cases h
  cases s <;> cases t.timed <;> exact ⟨nofun, rfl⟩

namespace Context

variable (x : Context)

theorem asks_callWithId {call : ProbeCall} (h : call ≠ .nanoTime) :
    Asks call (x.callWithId call) := .withId x.methodId h

theorem phrased_define (v : Var) : Phrased (x.define v) := by
  rw [define]
  split
  · exact .nil
  · exact (Phrase.constant (by cases v <;> rfl)).phrased

theorem phrased_defineAll (vs : List Var) : Phrased (vs.flatMap x.define) := by
  induction vs with
  | nil => exact .nil
  | cons v vs ih => exact (x.phrased_define v).trans ih

theorem phrased_guard (vs : List Var) (given : Option Label) (n : Nat) :
    Phrased (x.guard vs given n).1 := by
  cases hg : x.tracking.gate with
  | openGate =>
    rw [x.guard_openGate hg]
    exact .nil
  | skipping rs =>
    rw [x.guard_skipping hg]
    refine ((x.phrased_defineAll vs).trans ?_).trans (Gate.phrased_rangeSteps ..)
    cases given with
    | none => exact (Phrase.note rfl).phrased
    | some k => exact .nil

theorem phrased_gated (vs : List Var) {code : List Step} (hcode : Phrased code) :
    Phrased (x.gated vs code) := by
  rw [gated_eq]
  refine ((x.phrased_guard vs _ _).trans hcode).trans ?_
  cases (x.guard vs none x.nextLabel).2 with
  | none => exact .nil
  | some skip => exact (Phrase.merge skip).phrased

theorem phrased_entrySteps : Phrased x.entrySteps := by
  rw [entrySteps]
  split
  next n call hs ht =>
    obtain ⟨hcall, hret⟩ := Tracking.ret_of_sampling? hs
    apply (x.phrased_define _).trans
    split
    · exact .nil
    · exact x.phrased_gated _
        (Phrase.keepTimeAndFlag (x.asks_callWithId hcall) (by simp [hret, ht])).phrased
  next n call hs ht =>
    obtain ⟨hcall, hret⟩ := Tracking.ret_of_sampling? hs
    split
    · exact .nil
    · exact x.phrased_gated _
        (Phrase.keep (x.asks_callWithId hcall) (by simp [hret, ht]; rfl)).phrased
  next =>
    split
    · exact .nil
    · exact (x.phrased_define _).trans (x.phrased_gated _ (Phrase.keep .clock rfl).phrased)
  next => exact .nil

theorem phrased_measure {call : ProbeCall} {now : List Step} (hnow : Asks call now)
    (hret : call.ret = some .long) : Phrased (x.measure now) := by
  have hmeasured : Phrased [.measured] := (Phrase.note rfl).phrased
  rw [measure]
  split
  · simpa using (Phrase.elapsed hnow hret).phrased.trans hmeasured
  · exact (Phrase.constant (v := .duration) (c := .long 0) rfl).phrased.trans hmeasured

theorem phrased_branch (done : Label) : Phrased (x.branch done) := by
  rw [branch]
  split
  · refine ((Phrased.note rfl (.note rfl .nil)).trans (x.phrased_guard _ _ _)).trans ?_
    exact (Phrase.flagTest _).phrased
  · exact .nil

theorem phrased_testSteps (tag : Bool) : Phrased (x.testSteps tag) := by
  have hmerge : Phrased (Step.merge ⟨x.nextLabel⟩) := (Phrase.merge _).phrased
  rw [testSteps]
  dsimp only
  split
  · refine (((x.phrased_branch _).note rfl).trans ?_).trans hmerge
    split
    · split
      · exact .nil
      · exact x.phrased_measure (x.asks_callWithId (by decide)) rfl
    · exact .nil
  · split
    · refine Phrased.trans (Phrased.note rfl ?_) hmerge
      split
      · exact .nil
      · exact ((x.phrased_define _).trans (x.phrased_guard _ _ _)).trans
          (x.phrased_measure .clock rfl)
    · exact (Phrase.note rfl).phrased

theorem phrased_exitSteps : Phrased x.exitSteps := by
  rw [exitSteps]
  split
  · have htell : Asks .updateEndTs (x.callWithId .updateEndTs) := x.asks_callWithId (by decide)
    exact (((Phrase.flagTest _).phrased.note rfl).trans (Phrase.tell htell rfl).phrased).trans
      (Phrase.merge _).phrased
  · exact .nil

/-- The code of every marker but a duration marker is a sequence of phrases. -/
theorem phrased_steps {m : Marker} (hm : m.kind ≠ .duration) : Phrased (x.steps m) := by
  rw [steps]
  cases h : m.kind with
  | entry => exact x.phrased_entrySteps
  | test => exact x.phrased_testSteps _
  | elseBranch =>
    dsimp only [elseSteps]
    split
    · exact (Phrase.merge _).phrased.trans (Phrase.note rfl).phrased
    · exact .nil
  | duration => exact absurd h hm
  | exit => exact x.phrased_exitSteps
  | reset => exact (Phrase.note rfl).phrased

end Context

end MethodProbes
