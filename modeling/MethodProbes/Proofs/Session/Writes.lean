import MethodProbes.Proofs.Expansion.PlacedLabels
import MethodProbes.Proofs.Expansion.Sessions
import MethodProbes.Proofs.Machine.Paths
import MethodProbes.Proofs.Method.Route

/-!
# What a turn writes

A turn that expands a marker writes the code of the marker.  A test that branches loads the flag of
the sample and goes to a new label if the flag is zero.  No other jump of a turn leaves the code
that the turn writes.
-/
namespace MethodProbes

open Step

namespace Turn

variable (t : Turn)

def context (x : Expander) (id : Nat) : Context := x.context id t.before.buffer.nextLabel

/-- The expansion of a marker succeeds, and turns the expander `x` into `y`. -/
structure Writes (x : Expander) (m : Marker) (id : Nat) (σ : Layout) (y : Expander) : Prop where
  asked : t.expander? = some x
  action : t.action = .expand m
  expansion : x.Writes m t.before.buffer id σ y t.after.buffer
  expanders : t.after.expanders = t.before.expanders.set t.index y

variable {t} {x y : Expander} {m : Marker} {id : Nat} {σ : Layout}

namespace Writes

theorem emitted (h : t.Writes x m id σ y) :
    t.emitted = written σ ((t.context x id).steps m) := by
  rw [Turn.emitted, h.expansion.code, List.drop_left]
  rfl

theorem reaches_over (h : t.Writes x m id σ y) {w : World} {mem : Memory} {s : Machine}
    (hs : Machine.exec w (written σ ((t.context x id).steps m)) (.start mem) = some s) :
    Machine.Reaches t.emitted w (.start mem) s ∧ s.Over t.emitted := by
  rw [h.emitted]
  exact Machine.reaches_over (Context.forward_steps _) hs

theorem cycle (h : t.Writes x m id σ y) :
    y.cycle = afterAll σ (t.context x id).cycle ((t.context x id).steps m) := by
  rw [h.expansion.expander]
  rfl

theorem slot?_of_store (h : t.Writes x m id σ y) {v : Var}
    (hs : .store v ∈ (t.context x id).steps m) : y.cycle.slot? v = some (σ.slot v) := by
  rw [h.cycle, slot?_afterAll σ (Context.reset_notMem_of_store hs), if_pos hs]

theorem nextLabel (h : t.Writes x m id σ y) : t.after.buffer.nextLabel =
    (t.context x id).nextLabel + ((t.context x id).steps m).count .newLabel :=
  h.expansion.nextLabel

theorem expander_after (h : t.Writes x m id σ y) : t.after.expanders[t.index]? = some y := by
  rw [h.expanders]
  exact List.getElem?_set_self (List.getElem?_eq_some_iff.1 h.asked).1

end Writes

theorem exists_writes (hp : t.before.Placed) (hx : t.expander? = some x)
    (ha : t.action = .expand m) (he : t.error? = none) : ∃ id σ y, t.Writes x m id σ y := by
  cases t.moves with
  | nobody asked => cases asked.symm.trans hx
  | notes _ action => exact absurd ha (action m)
  | expands asked action error expanders buffer =>
    cases asked.symm.trans hx
    cases action.symm.trans ha
    have hplaced : Placed t.before.buffer x.cycle := hp x (List.mem_of_getElem? hx)
    have hexpand : x.expand m t.before.buffer = ⟨(x.expand m t.before.buffer).expander,
        (x.expand m t.before.buffer).buffer, (x.expand m t.before.buffer).registration, none⟩ := by
      rw [← error.symm.trans he]
    obtain ⟨id, σ, hw⟩ := Expander.exists_writes hplaced hexpand
    exact ⟨id, σ, _, asked, action, buffer ▸ hw, expanders⟩

end Turn

/-! ### Sample branches -/

def Session.pending? (s : Session) (i : Nat) : Option Label :=
  s.expanders[i]?.bind (·.cycle.pendingElse)

namespace Turn

variable (t : Turn)

/-- The turn writes a test that goes to `l` if the flag of the sample is zero. -/
def Branches (l : Label) : Prop :=
  ∃ x m s, t.expander? = some x ∧ t.action = .expand m ∧ m.kind = .test ∧
    x.cycle.sampleHit = some s ∧ [.load .int s, .jump .ifZero l] <:+: t.emitted

variable {t} {x y : Expander} {m : Marker} {id : Nat} {σ : Layout} {l : Label}

namespace Writes

theorem branches_iff (h : t.Writes x m id σ y) :
    t.Branches l ↔ (t.context x id).Branches m ∧ l = (t.context x id).elseTarget := by
  constructor
  · rintro ⟨x', m', s, hx, ha, hm, -, hcode⟩
    cases h.asked.symm.trans hx
    cases h.action.symm.trans ha
    rw [h.emitted] at hcode
    exact Context.branches_of_ifZero hm (hcode.subset (by simp))
  · rintro ⟨hb, rfl⟩
    obtain ⟨s, hs⟩ := Option.isSome_iff_exists.1 hb.2.2
    have hslot : σ.slot .sampleHit = s := h.expansion.fits _ _ hs
    refine ⟨x, m, s, h.asked, h.action, hb.1, hs, ?_⟩
    rw [h.emitted, ← hslot]
    exact Context.branch_infix hb

/-- Every jump of a turn goes to a label behind it, or is a sample branch. -/
theorem target (h : t.Writes x m id σ y) {i : Nat} {c : Cond}
    (hi : t.emitted[i]? = some (.jump c l)) :
    (∃ j, i < j ∧ t.emitted[j]? = some (.label l)) ∨ t.Branches l := by
  rw [h.branches_iff]
  rw [h.emitted] at hi ⊢
  have hforward : Forward (written σ ((t.context x id).steps m)) := Context.forward_steps _
  rcases (Context.linked_steps _ m).target _ (List.mem_of_getElem? hi) l rfl with hl | hl
  · obtain ⟨j, hj⟩ := List.mem_iff_getElem?.1 hl
    exact .inl ⟨j, hforward.lt_of_jump hi hj, hj⟩
  · exact .inr hl

theorem pending?_before (h : t.Writes x m id σ y) :
    t.before.pending? t.index = (t.context x id).cycle.pendingElse := by
  have hx : t.before.expanders[t.index]? = some x := h.asked
  rw [Session.pending?, hx]
  rfl

theorem pending?_after (h : t.Writes x m id σ y) : t.after.pending? t.index =
    (afterAll σ (t.context x id).cycle ((t.context x id).steps m)).pendingElse := by
  rw [Session.pending?, h.expander_after, Option.bind_some, h.cycle]

/-- A test that branches goes to a new label, which it does not place. -/
theorem of_branches (h : t.Writes x m id σ y) (hb : t.Branches l) :
    .jump .ifZero l ∈ t.emitted ∧ .label l ∉ t.emitted ∧ t.before.buffer.nextLabel ≤ l.id := by
  obtain ⟨hm, rfl⟩ := h.branches_iff.1 hb
  rw [h.emitted]
  exact ⟨(Context.branch_infix hm).subset (by simp), Context.elseTarget_notMem hm, Nat.le_succ _⟩

/-- A test that branches leaves its target to be placed. -/
theorem pending?_of_branches (h : t.Writes x m id σ y) (hb : t.Branches l) :
    t.after.pending? t.index = some l := by
  obtain ⟨⟨hm, hsampled⟩, rfl⟩ := h.branches_iff.1 hb
  rw [h.pending?_after, Context.pendingElse_steps, hm]
  exact if_pos hsampled

end Writes

end Turn

end MethodProbes
