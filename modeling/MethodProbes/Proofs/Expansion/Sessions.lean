import MethodProbes.Proofs.Expansion.Layout
import MethodProbes.Proofs.Session.Turns

/-!
# Slots in sessions

Whatever the expanders of a session are asked, and whether they fail or not, the slots that each of
them has bound stay apart and below the next free one.
-/
namespace MethodProbes

namespace Session

def Placed (s : Session) : Prop := ∀ x ∈ s.expanders, MethodProbes.Placed s.buffer x.cycle

theorem placed_new {xs : List Expander} (h : ∀ x ∈ xs, x.cycle = .initial) (n : UInt16) :
    (new xs n).Placed := fun x hx => by
  rw [h x hx]
  exact .initial _

/-- An expander that is replaced keeps its order, and the others keep theirs in a longer buffer. -/
private theorem placed_set {xs : List Expander} {b b' : Buffer} {i : Nat} {y : Expander}
    (h : ∀ x ∈ xs, MethodProbes.Placed b x.cycle) (hb : b.nextSlot ≤ b'.nextSlot)
    (hy : MethodProbes.Placed b' y.cycle) :
    ∀ x ∈ xs.set i y, MethodProbes.Placed b' x.cycle := fun x hx => by
  rcases List.mem_or_eq_of_mem_set hx with hx | rfl
  · exact (h x hx).of_slots hb fun _ _ => id
  · exact hy

theorem placed_after {t : Turn} (h : t.before.Placed) : t.after.Placed := by
  have hnext := t.extends_after.nextSlot
  cases t.moves with
  | nobody _ _ after => rwa [after]
  | notes asked _ slots _ after =>
    have hx := h _ (List.mem_of_getElem? asked)
    rw [after]
    exact placed_set h (Nat.le_refl _) (hx.of_slots (Nat.le_refl _) fun v _ hs => slots v ▸ hs)
  | @expands x m asked _ _ expanders buffer =>
    have hx : MethodProbes.Placed t.before.buffer x.cycle := h x (List.mem_of_getElem? asked)
    rw [Placed, expanders]
    refine placed_set h hnext ?_
    rw [buffer]
    rcases x.expand_cases m t.before.buffer with ⟨e, -, he⟩ | ⟨id, e, q, -, hq, he⟩ <;> rw [he]
    · exact hx
    · exact hx.takeAll hq

theorem placed_actAll {s : Session} (h : s.Placed) (as : List (Nat × Action)) :
    (s.actAll as).Placed :=
  actAll_induction h fun _ _ => placed_after

theorem placed_opened (expanders : List (Nat × Settings)) (n : UInt16) :
    (opened expanders n).Placed :=
  placed_new (fun _ hx => cycle_of_mem_opened (n := n) hx) n

theorem placed_of_mem_turns {s : Session} (h : s.Placed) {as : List (Nat × Action)} {t : Turn}
    (ht : t ∈ s.turns as) : t.before.Placed := by
  obtain ⟨pre, -, -, hbefore⟩ := exists_of_mem_turns ht
  rw [hbefore]
  exact placed_actAll h pre

end Session

end MethodProbes
