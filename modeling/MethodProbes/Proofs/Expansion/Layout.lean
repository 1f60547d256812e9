import MethodProbes.Expansion.Session
import MethodProbes.Proofs.Expansion.Buffers
import MethodProbes.Proofs.Machine.Memory

/-!
# Slots of the variables

The code of a marker is its list of steps, written down under a layout that gives each variable a
slot of its own.  Variables that no code of the cycle uses yet have a place in the layout too.
-/
namespace MethodProbes

/-- Slots for the variables, no two of which share a word. -/
structure Layout where
  slot : Var → Slot
  apart : ∀ v u, v ≠ u → (slot v).Apart v.type (slot u) u.type

@[simp] theorem Var.carrier_type (v : Var) : v.type.carrier = v.type := by cases v <;> rfl

def Memory.get (m : Memory) (σ : Layout) (v : Var) : Const := m.read v.type (σ.slot v)

def Memory.set (m : Memory) (σ : Layout) (v : Var) (c : Const) : Memory := m.write (σ.slot v) c

theorem Memory.type_get (m : Memory) (σ : Layout) (v : Var) : (m.get σ v).type = v.type := by
  rw [get, type_read, Var.carrier_type]

theorem Memory.get_set (m : Memory) (σ : Layout) {v u : Var} {c : Const} (hc : c.type = v.type) :
    (m.set σ v c).get σ u = if u = v then c else m.get σ u := by
  have hc : c.type = v.type.carrier := hc.trans v.carrier_type.symm
  by_cases h : u = v
  · subst h
    rw [if_pos rfl]
    exact read_write_self m _ hc
  · rw [if_neg h]
    exact read_write_of_apart m hc (σ.apart v u (Ne.symm h))

namespace Layout

/-- The layout agrees with the slots that a cycle has bound. -/
def Fits (σ : Layout) (c : Cycle) : Prop := ∀ v s, c.slot? v = some s → σ.slot v = s

theorem Fits.get {σ : Layout} {c : Cycle} (h : σ.Fits c) {v : Var} {s : Slot}
    (hs : c.slot? v = some s) (m : Memory) : m.get σ v = m.read v.type s := by
  rw [Memory.get, h v s hs]

end Layout

/-- The slots that a cycle has bound lie below the next free one and share no word. -/
structure Placed (b : Buffer) (c : Cycle) : Prop where
  below : ∀ v s, c.slot? v = some s → s.index + v.type.width ≤ b.nextSlot
  apart : ∀ v u s r, v ≠ u → c.slot? v = some s → c.slot? u = some r → s.Apart v.type r u.type

namespace Placed

theorem initial (b : Buffer) : Placed b .initial := by
  constructor
  · intro v s h
    rw [Cycle.slot?_initial] at h
    cases h
  · intro v u s r _ h
    rw [Cycle.slot?_initial] at h
    cases h

theorem of_slots {b b' : Buffer} {c c' : Cycle} (h : Placed b c)
    (hb : b.nextSlot ≤ b'.nextSlot) (hc : ∀ v s, c'.slot? v = some s → c.slot? v = some s) :
    Placed b' c' :=
  ⟨fun v s hs => Nat.le_trans (h.below v s (hc v s hs)) hb,
    fun v u s r hne hs hr => h.apart v u s r hne (hc v s hs) (hc u r hr)⟩

theorem bind {b b' : Buffer} {c : Cycle} (h : Placed b c) (v : Var)
    (hb : b.nextSlot + v.type.width ≤ b'.nextSlot) : Placed b' (c.bind v ⟨b.nextSlot⟩) := by
  constructor
  · intro u s hs
    rw [Cycle.slot?_bind] at hs
    split at hs
    · next hu =>
      cases hs
      exact hu ▸ hb
    · exact Nat.le_trans (h.below u s hs) (Nat.le_trans (Nat.le_add_right _ _) hb)
  · intro u u' s r hne hs hr
    rw [Cycle.slot?_bind] at hs hr
    split at hs <;> split at hr
    · next hu hu' => exact absurd (hu.trans hu'.symm) hne
    · cases hs
      exact .inr (h.below u' r hr)
    · cases hr
      exact .inl (h.below u s hs)
    · exact h.apart u u' s r hne hs hr

theorem slot?_bind_self {c : Cycle} {v : Var} {s : Slot} (h : c.slot? v = some s)
    (u : Var) : (c.bind v s).slot? u = c.slot? u := by
  rw [Cycle.slot?_bind]
  split
  · next hu => rw [hu, h]
  · rfl

theorem take {p q : Progress} {st : Step} {e : Option SlotsExhausted}
    (h : Placed p.buffer p.cycle) (ht : st.take p = (e, q)) : Placed q.buffer q.cycle := by
  obtain ⟨b, c⟩ := p
  cases st with
  | emit i | newLabel | await l | settle | measured =>
    cases ht
    exact h.of_slots (Nat.le_refl _) fun v s hs => by cases v <;> exact hs
  | load v =>
    rw [Step.take] at ht
    split at ht <;> cases ht <;> exact h.of_slots (Nat.le_refl _) fun _ _ => id
  | reset =>
    cases ht
    apply h.of_slots (Nat.le_refl _)
    intro v s hs
    rw [Cycle.slot?_reset] at hs
    split at hs
    · next hv => exact hv ▸ hs
    · cases hs
  | store v =>
    rcases Step.take_store_cases b c v with ⟨r, hv, hs⟩ | ⟨-, hs⟩ | ⟨-, e, hs⟩ <;>
      cases ht.symm.trans hs
    · exact h.of_slots (Nat.le_refl _) fun u r hr => slot?_bind_self hv u ▸ hr
    · exact h.bind v (Nat.le_refl _)
    · exact h

theorem takeAll {p q : Progress} {ss : List Step} {e : Option SlotsExhausted}
    (h : Placed p.buffer p.cycle) (ht : Step.takeAll p ss = (e, q)) :
    Placed q.buffer q.cycle := by
  induction ss generalizing p with
  | nil =>
    cases ht
    exact h
  | cons st ss ih =>
    rcases hs : st.take p with ⟨_ | e', p'⟩
    · rw [Step.takeAll_cons_none hs] at ht
      exact ih (h.take hs) ht
    · rw [Step.takeAll_cons_some hs] at ht
      cases ht
      exact h.take hs

/-- Room behind the next free slot for the variables that have none. -/
private def spare (b : Buffer) : Var → Slot
  | .entryTs => ⟨b.nextSlot⟩
  | .sampleHit => ⟨b.nextSlot + 2⟩
  | .duration => ⟨b.nextSlot + 4⟩
  | .level => ⟨b.nextSlot + 6⟩

private theorem spare_apart (b : Buffer) {v u : Var} (h : v ≠ u) :
    (spare b v).Apart v.type (spare b u) u.type := by
  cases v <;> cases u <;>
    first
    | exact absurd rfl h
    | simp [spare, Slot.Apart, Var.type, ValueType.width]

theorem exists_layout {b : Buffer} {c : Cycle} (h : Placed b c) : ∃ σ : Layout, σ.Fits c := by
  have hspare (v : Var) : b.nextSlot ≤ (spare b v).index := by
    cases v <;> simp [spare]
  refine ⟨⟨fun v => (c.slot? v).getD (spare b v), fun v u hne => ?_⟩, fun v s hs => by simp [hs]⟩
  cases hv : c.slot? v with
  | none =>
    cases hu : c.slot? u with
    | none => exact spare_apart b hne
    | some r => exact .inr (Nat.le_trans (h.below u r hu) (hspare v))
  | some s =>
    cases hu : c.slot? u with
    | none => exact .inl (Nat.le_trans (h.below v s hv) (hspare u))
    | some r => exact h.apart v u s r hne hv hu

end Placed

end MethodProbes
