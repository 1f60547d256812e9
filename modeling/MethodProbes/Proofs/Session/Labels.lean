import MethodProbes.Proofs.Session.Writes

/-!
# Labels in sessions

Every label is placed at most once, behind all jumps to it.  The expanders take their labels from
one buffer, so the else target that one of them has pending is no label of another.  It is placed by
the next else marker of its expander, unless another test branches before.
-/
namespace MethodProbes

open Step

namespace Turn

/-- If the turn expands a marker, it does so without an error. -/
def Succeeds (t : Turn) : Prop := ∀ m, t.action = .expand m → t.error? = none

theorem succeeds_of_all {ts : List Turn} (h : ts.all (·.error?.isNone) = true) {t : Turn}
    (ht : t ∈ ts) : t.Succeeds :=
  fun _ _ => Option.isNone_iff_eq_none.1 (List.all_eq_true.1 h t ht)

def IsElse (t : Turn) : Prop := ∃ m, t.action = .expand m ∧ m.kind = .elseBranch

/-- Among later turns there is an else marker of the same expander, with no branch of that expander
before it. -/
def Answered (t : Turn) (post : List Turn) : Prop :=
  ∃ mid e rest, post = mid ++ e :: rest ∧ e.index = t.index ∧ e.IsElse ∧
    ∀ u ∈ mid, u.index = t.index → ∀ l, ¬ u.Branches l

/-- The turn writes nothing and leaves all else targets as they are. -/
structure Quiet (t : Turn) : Prop where
  buffer : t.after.buffer = t.before.buffer
  pending : ∀ i, t.after.pending? i = t.before.pending? i
  expands : ∀ m, t.action = .expand m → t.expander? = none

variable {t : Turn} {x y : Expander} {m : Marker} {id : Nat} {σ : Layout} {l : Label} {i : Nat}

theorem pending?_set_ne {s : Session} {xs : List Expander} (hs : s.expanders = xs.set i y) {j : Nat}
    (hj : j ≠ i) : s.pending? j = xs[j]?.bind (·.cycle.pendingElse) := by
  rw [Session.pending?, hs, List.getElem?_set_ne (Ne.symm hj)]

theorem quiet_or_writes (hp : t.before.Placed) (hs : t.Succeeds) :
    t.Quiet ∨ ∃ x m id σ y, t.Writes x m id σ y := by
  cases t.moves with
  | nobody asked _ after => exact .inl ⟨by rw [after], fun _ => by rw [after], fun _ _ => asked⟩
  | @notes x y asked action _ pending after =>
    refine .inl ⟨by rw [after], fun i => ?_, fun m hm => absurd hm (action m)⟩
    by_cases hi : i = t.index
    · have hx : t.before.expanders[t.index]? = some x := asked
      rw [hi, Session.pending?, Session.pending?, after, hx,
        List.getElem?_set_self (List.getElem?_eq_some_iff.1 hx).1]
      exact pending
    · exact pending?_set_ne (by rw [after]) hi
  | expands asked action => exact .inr ⟨_, _, exists_writes hp asked action (hs _ action)⟩

/-- What a turn writes names labels that have been taken by then. -/
theorem Writes.lt_of_names (h : t.Writes x m id σ y)
    (hp : ∀ l, t.before.pending? t.index = some l → l.id < t.before.buffer.nextLabel) {i : Insn}
    (hi : i ∈ t.emitted) (hl : i.Names l) : l.id < t.after.buffer.nextLabel := by
  rw [h.emitted] at hi
  rw [h.nextLabel]
  exact Context.lt_of_names_steps _ (fun l hl => hp l (h.pending?_before.trans hl)) hi hl

theorem Writes.label_mem (h : t.Writes x m id σ y) (hl : .label l ∈ t.emitted) :
    t.before.buffer.nextLabel ≤ l.id ∨ t.IsElse ∧ t.before.pending? t.index = some l := by
  rw [h.emitted] at hl
  refine (Context.label_mem_steps _ hl).imp (·.1) fun hpend => ⟨⟨m, h.action, hpend.1⟩, ?_⟩
  exact h.pending?_before.trans hpend.2

/-- Behind a turn its expander waits for the target of a branch, or it goes on to wait. -/
theorem Writes.pending_cases (h : t.Writes x m id σ y) (hl : t.after.pending? t.index = some l) :
    t.Branches l ∨ t.before.pending? t.index = some l ∧ ¬ t.IsElse := by
  rw [h.pending?_after] at hl
  rw [h.pending?_before, h.branches_iff]
  refine (Context.pending_cases hl).imp_right fun ⟨hm, hpend⟩ => ⟨hpend, ?_⟩
  rintro ⟨m', ha, hm'⟩
  cases h.action.symm.trans ha
  exact hm hm'

/-- An expander goes on to wait until it branches again or comes to an else marker. -/
theorem Writes.pending_keeps (h : t.Writes x m id σ y) (hb : ∀ k, ¬ t.Branches k)
    (he : ¬ t.IsElse) : t.after.pending? t.index = t.before.pending? t.index := by
  have hb := hb (t.context x id).elseTarget
  rw [h.branches_iff] at hb
  rw [h.pending?_after, h.pending?_before, Context.pendingElse_steps]
  cases hm : m.kind with
  | test => exact if_neg fun hs => hb ⟨⟨hm, hs⟩, rfl⟩
  | elseBranch => exact absurd ⟨m, h.action, hm⟩ he
  | _ => rfl

theorem Writes.label_of_else (h : t.Writes x m id σ y) (he : t.IsElse)
    (hl : t.before.pending? t.index = some l) : .label l ∈ t.emitted := by
  obtain ⟨m', ha, hm⟩ := he
  cases h.action.symm.trans ha
  rw [h.emitted, Context.steps_of_else _ hm, Context.written_else, ← h.pending?_before, hl]
  exact List.mem_cons_self

end Turn

namespace Session

/-- What the labels of a session have in common. -/
structure Tidy (s : Session) : Prop where
  slots : s.Placed
  names : ∀ i ∈ s.buffer.code, ∀ l, i.Names l → l.id < s.buffer.nextLabel
  pending : ∀ i l, s.pending? i = some l →
    l.id < s.buffer.nextLabel ∧ .label l ∉ s.buffer.code
  /-- No two expanders wait for one label. -/
  apart : ∀ i j l, s.pending? i = some l → s.pending? j = some l → i = j
  once : (placed s.buffer.code).Nodup
  forward : Forward s.buffer.code
  framed : Framed s.buffer.code

theorem tidy_opened (expanders : List (Nat × Settings)) (firstSlot : UInt16) :
    (opened expanders firstSlot).Tidy := by
  have hpending (i : Nat) (l : Label) : (opened expanders firstSlot).pending? i ≠ some l := by
    intro h
    obtain ⟨x, hx, hl⟩ := Option.bind_eq_some_iff.1 h
    rw [cycle_of_mem_opened (List.mem_of_getElem? hx)] at hl
    cases hl
  exact ⟨placed_opened _ _, nofun, fun i l h => absurd h (hpending i l),
    fun i _ l h => absurd h (hpending i l), List.nodup_nil, .nil, .nil⟩

namespace Tidy

variable {s : Session} {t : Turn} {x y : Expander} {m : Marker} {id : Nat} {σ : Layout} {l : Label}

theorem label_notMem (h : t.before.Tidy) (hw : t.Writes x m id σ y) (hl : .label l ∈ t.emitted) :
    .label l ∉ t.before.buffer.code := fun hcode => by
  rcases hw.label_mem hl with hle | ⟨-, hpend⟩
  · exact Nat.not_lt.2 hle (h.names _ hcode l (.inl rfl))
  · exact (h.pending _ l hpend).2 hcode

/-- Who waits for a label behind a turn has waited before, or has just branched. -/
theorem waits_cases (h : t.before.Tidy) (hw : t.Writes x m id σ y) {i : Nat}
    (hi : t.after.pending? i = some l) :
    i = t.index ∧ t.Branches l ∨ t.before.pending? i = some l ∧ .label l ∉ t.emitted := by
  by_cases hself : i = t.index
  · subst hself
    refine (hw.pending_cases hi).imp (⟨rfl, ·⟩) fun ⟨hpend, helse⟩ => ⟨hpend, fun hl => ?_⟩
    rcases hw.label_mem hl with hle | ⟨he, -⟩
    · exact Nat.not_lt.2 hle (h.pending _ l hpend).1
    · exact helse he
  · rw [Turn.pending?_set_ne hw.expanders hself] at hi
    refine .inr ⟨hi, fun hl => ?_⟩
    rcases hw.label_mem hl with hle | ⟨-, hpend⟩
    · exact Nat.not_lt.2 hle (h.pending _ l hi).1
    · exact hself (h.apart _ _ l hi hpend)

theorem of_quiet (h : t.before.Tidy) (hq : t.Quiet) : t.after.Tidy := by
  refine ⟨placed_after h.slots, ?_, fun i l hi => ?_, fun i j l hi hj => ?_,
    ?_, ?_, ?_⟩
  · exact hq.buffer ▸ h.names
  · rw [hq.buffer]
    exact h.pending i l (hq.pending i ▸ hi)
  · exact h.apart i j l (hq.pending i ▸ hi) (hq.pending j ▸ hj)
  · exact hq.buffer ▸ h.once
  · exact hq.buffer ▸ h.forward
  · exact hq.buffer ▸ h.framed

theorem of_writes (h : t.before.Tidy) (hw : t.Writes x m id σ y) : t.after.Tidy := by
  have hnext : t.before.buffer.nextLabel ≤ t.after.buffer.nextLabel := by
    rw [hw.nextLabel]
    exact Nat.le_add_right _ _
  have hnames {i : Insn} {l : Label} (hi : i ∈ t.emitted) (hl : i.Names l) :
      l.id < t.after.buffer.nextLabel := hw.lt_of_names (fun l hp => (h.pending _ l hp).1) hi hl
  refine ⟨placed_after h.slots, fun i hi l hl => ?_, fun i l hi => ?_,
    fun i j l hi hj => ?_, ?_, ?_, ?_⟩
  · rw [Turn.code_after, List.mem_append] at hi
    exact hi.elim (fun hi => Nat.lt_of_lt_of_le (h.names i hi l hl) hnext) (hnames · hl)
  · rw [Turn.code_after, List.mem_append, not_or]
    rcases h.waits_cases hw hi with ⟨rfl, hb⟩ | ⟨hp, hnew⟩
    · obtain ⟨hjump, hnew, hle⟩ := hw.of_branches hb
      exact ⟨hnames hjump (.inr rfl),
        fun hcode => Nat.not_lt.2 hle (h.names _ hcode l (.inl rfl)), hnew⟩
    · obtain ⟨hlt, hold⟩ := h.pending i l hp
      exact ⟨Nat.lt_of_lt_of_le hlt hnext, hold, hnew⟩
  · rcases h.waits_cases hw hi with ⟨rfl, hb⟩ | ⟨hp, -⟩ <;>
      rcases h.waits_cases hw hj with ⟨rfl, hb'⟩ | ⟨hp', -⟩
    · rfl
    · exact absurd (h.pending j l hp').1 (Nat.not_lt.2 (hw.of_branches hb).2.2)
    · exact absurd (h.pending i l hp).1 (Nat.not_lt.2 (hw.of_branches hb').2.2)
    · exact h.apart i j l hp hp'
  · have honce : (placed t.emitted).Nodup := hw.emitted ▸ (Context.linked_steps _ m).once
    rw [Turn.code_after, placed_append, List.nodup_append]
    refine ⟨h.once, honce, fun l hl k hk he => ?_⟩
    exact h.label_notMem hw (mem_placed.1 (he ▸ hk)) (mem_placed.1 hl)
  · have hforward : Forward t.emitted := hw.emitted ▸ Context.forward_steps _
    rw [Turn.code_after]
    refine h.forward.append hforward fun l hl i hi ht => ?_
    rw [hw.emitted] at hi
    exact Nat.not_lt.2 (Context.le_target_steps _ hi ht) (h.names _ hl l (.inl rfl))
  · rw [Turn.code_after]
    exact h.framed.append (hw.emitted ▸ Context.framed_steps _ m)

/-- A turn that succeeds keeps the labels in order. -/
theorem after (h : t.before.Tidy) (hs : t.Succeeds) : t.after.Tidy := by
  rcases t.quiet_or_writes h.slots hs with hq | ⟨x, m, id, σ, y, hw⟩
  · exact h.of_quiet hq
  · exact h.of_writes hw

end Tidy

end Session

end MethodProbes
