import MethodProbes.Expansion.Session
import MethodProbes.Proofs.Expansion.Buffers

/-!
# Turns of a session

A run of a session is a list of turns.  In each turn one expander is asked for one action, which may
fail.  What a turn adds to the buffer is what that expander writes.
-/
namespace MethodProbes

open Step

namespace Expander

/-- Recording changes the tracking only. -/
theorem exists_of_record {x y : Expander} {m : Marker} (h : x.record m = .ok y) :
    ∃ t, y = { x with tracking := t } := by
  rw [record] at h
  cases hr : x.tracking.record m x.settings.defaultMean with
  | error e =>
    rw [hr] at h
    cases h
  | ok t =>
    rw [hr] at h
    exact ⟨t, (Except.ok.inj h).symm⟩

/-- An expansion fails at once, or takes the steps of its marker as far as it gets. -/
theorem expand_cases (x : Expander) (m : Marker) (b : Buffer) :
    (∃ e, x.effectiveId m = .error e ∧ x.expand m b = ⟨x, b, none, some e⟩) ∨
      ∃ id e q, x.effectiveId m = .ok id ∧
        takeAll ⟨b, x.cycle⟩ ((x.context id b.nextLabel).steps m) = (e, q) ∧
        x.expand m b = ⟨{ x with cycle := q.cycle }, q.buffer, x.registration? m id,
          e.map .slotsExhausted⟩ := by
  rw [expand]
  cases x.effectiveId m with
  | error e => exact .inl ⟨e, rfl, rfl⟩
  | ok id => exact .inr ⟨id, _, _, rfl, rfl, rfl⟩

end Expander

structure Turn where
  before : Session
  index : Nat
  action : Action

namespace Turn

variable (t : Turn)

def error? : Option MarkerError := (t.before.act t.index t.action).1

def after : Session := (t.before.act t.index t.action).2

def expander? : Option Expander := t.before.expanders[t.index]?

def emitted : List Insn := t.after.buffer.code.drop t.before.buffer.code.length

def allotted : List (Slot × ValueType) :=
  t.after.buffer.slots.toList.drop t.before.buffer.slots.toList.length

inductive Moves : Prop
  /-- There is no such expander. -/
  | nobody (asked : t.expander? = none) (error : t.error? = none) (after : t.after = t.before)
  /-- The expander takes note of something, and of no slot or label. -/
  | notes {x y : Expander} (asked : t.expander? = some x) (action : ∀ m, t.action ≠ .expand m)
    (slots : ∀ v, y.cycle.slot? v = x.cycle.slot? v)
    (pending : y.cycle.pendingElse = x.cycle.pendingElse)
    (after : t.after = { t.before with expanders := t.before.expanders.set t.index y })
  | expands {x : Expander} {m : Marker} (asked : t.expander? = some x)
    (action : t.action = .expand m) (error : t.error? = (x.expand m t.before.buffer).error)
    (expanders : t.after.expanders =
      t.before.expanders.set t.index (x.expand m t.before.buffer).expander)
    (buffer : t.after.buffer = (x.expand m t.before.buffer).buffer)

theorem moves : t.Moves := by
  obtain ⟨⟨xs, b, c⟩, i, a⟩ := t
  cases hi : xs[i]? with
  | none => exact .nobody hi (by simp [error?, Session.act, hi]) (by simp [after, Session.act, hi])
  | some x =>
    have hself : xs.set i x = xs := by
      obtain ⟨hlt, rfl⟩ := List.getElem?_eq_some_iff.1 hi
      exact List.set_getElem_self hlt
    cases a with
    | record m =>
      cases hr : x.record m with
      | error e =>
        exact .notes hi (by simp) (fun _ => rfl) rfl
          (by simp [after, Session.act, hi, hr, hself])
      | ok y =>
        obtain ⟨u, rfl⟩ := Expander.exists_of_record hr
        exact .notes (y := { x with tracking := u }) hi (by simp) (fun _ => rfl) rfl
          (by simp [after, Session.act, hi, hr])
    | expand m =>
      refine .expands hi rfl ?_ ?_ ?_ <;> simp [error?, after, Session.act, hi]
    | forgetMeasurement =>
      have hslots (v : Var) : x.forgetMeasurement.cycle.slot? v = x.cycle.slot? v := by
        cases v <;> rfl
      exact .notes hi (by simp) hslots rfl (by simp [after, Session.act, hi])

variable {t}

theorem after_of_none (hx : t.expander? = none) : t.after = t.before := by
  cases t.moves with
  | nobody _ _ after => exact after
  | notes asked => cases hx.symm.trans asked
  | expands asked => cases hx.symm.trans asked

end Turn

namespace Session

/-- A session whose expanders have recorded and expanded nothing. -/
def opened (expanders : List (Nat × Settings)) (firstSlot : UInt16) : Session :=
  .new (expanders.map fun e => .new e.1 e.2) firstSlot

def turns (s : Session) : List (Nat × Action) → List Turn
  | [] => []
  | a :: as => ⟨s, a.1, a.2⟩ :: (s.act a.1 a.2).2.turns as

variable {s : Session} {as bs : List (Nat × Action)}

theorem turns_append : s.turns (as ++ bs) = s.turns as ++ (s.actAll as).turns bs := by
  induction as generalizing s with
  | nil => rfl
  | cons a as ih => exact congrArg (_ :: ·) ih

theorem turns_concat (a : Nat × Action) :
    s.turns (as ++ [a]) = s.turns as ++ [⟨s.actAll as, a.1, a.2⟩] := turns_append

theorem actAll_concat (a : Nat × Action) :
    s.actAll (as ++ [a]) = (Turn.mk (s.actAll as) a.1 a.2).after := actAll_append s as [a]

/-- What every turn of a run keeps is kept by the run. -/
theorem actAll_induction {P : Session → Prop} (h : P s)
    (hturn : ∀ t ∈ s.turns as, P t.before → P t.after) : P (s.actAll as) := by
  induction as generalizing s with
  | nil => exact h
  | cons a as ih =>
    obtain ⟨hfirst, hrest⟩ := List.forall_mem_cons.1 hturn
    exact ih (hfirst h) hrest

theorem exists_of_mem_turns {t : Turn} (h : t ∈ s.turns as) :
    ∃ pre post, as = pre ++ (t.index, t.action) :: post ∧ t.before = s.actAll pre := by
  induction as generalizing s with
  | nil => cases h
  | cons a as ih =>
    rcases List.mem_cons.1 h with rfl | h
    · exact ⟨[], as, rfl, rfl⟩
    · obtain ⟨pre, post, rfl, hbefore⟩ := ih h
      exact ⟨a :: pre, post, rfl, hbefore⟩

theorem cycle_of_mem_opened {expanders : List (Nat × Settings)} {n : UInt16} {x : Expander}
    (h : x ∈ (opened expanders n).expanders) : x.cycle = .initial := by
  obtain ⟨e, -, rfl⟩ := List.mem_map.1 h
  rfl

end Session

namespace Buffer

namespace Keeps

variable {P : Buffer → Prop}

theorem expand (hP : Keeps P) (x : Expander) (m : Marker) {b : Buffer} (h : P b) :
    P (x.expand m b).buffer := by
  rcases x.expand_cases m b with ⟨e, -, he⟩ | ⟨id, e, q, -, hq, he⟩ <;> rw [he]
  · exact h
  · exact hP.takeAll (p := ⟨b, x.cycle⟩) h hq

/-- Whatever a turn does, it keeps what an instruction, a slot and a label keep. -/
theorem turn (hP : Keeps P) {t : Turn} (h : P t.before.buffer) : P t.after.buffer := by
  cases t.moves with
  | nobody _ _ after => rwa [after]
  | notes _ _ _ _ after => rwa [after]
  | expands _ _ _ _ buffer =>
    rw [buffer]
    exact hP.expand _ _ h

theorem actAll (hP : Keeps P) {s : Session} (h : P s.buffer) (as : List (Nat × Action)) :
    P (s.actAll as).buffer :=
  Session.actAll_induction (P := fun s => P s.buffer) h fun _ _ => hP.turn

end Keeps

end Buffer

theorem Turn.extends_after (t : Turn) : t.before.buffer.Extends t.after.buffer :=
  (Buffer.keeps_extends _).turn (.refl _)

/-- Whatever happens in a turn, the code goes on with what the turn writes. -/
theorem Turn.code_after (t : Turn) : t.after.buffer.code = t.before.buffer.code ++ t.emitted :=
  (List.prefix_iff_eq_append.1 t.extends_after.code).symm

namespace Session

theorem extends_actAll (s : Session) (as : List (Nat × Action)) :
    s.buffer.Extends (s.actAll as).buffer :=
  (Buffer.keeps_extends _).actAll (.refl _) as

/-- Every turn of a run finds what was there before the run, and what it leaves is there behind
it. -/
theorem extends_of_mem_turns {s : Session} {as : List (Nat × Action)} {t : Turn}
    (h : t ∈ s.turns as) :
    s.buffer.Extends t.before.buffer ∧ t.after.buffer.Extends (s.actAll as).buffer := by
  obtain ⟨pre, post, rfl, hbefore⟩ := exists_of_mem_turns h
  have hall : s.actAll (pre ++ (t.index, t.action) :: post) = t.after.actAll post := by
    rw [actAll_append, ← hbefore]
    rfl
  rw [hall, hbefore]
  exact ⟨s.extends_actAll pre, t.after.extends_actAll post⟩

end Session

end MethodProbes
