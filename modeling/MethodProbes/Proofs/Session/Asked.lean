import Mathlib.Data.List.Induction
import MethodProbes.Proofs.Method.Registrations
import MethodProbes.Proofs.Session.Renaming

/-!
# What an expander has been asked

What an expander of a session has bound depends on the actions that it was asked for itself.  An expander
that is asked to expand nothing has bound nothing, so nothing that it has bound is older than its last
record if it is asked for its records first.
-/
namespace MethodProbes

namespace Action

def isRecord : Action → Bool
  | record _ => true
  | _ => false

def expanded? : Action → Option Marker
  | expand m => some m
  | _ => none

end Action

/-- An attempt to record a marker keeps a tracking sound and the cycle as it is. -/
theorem Expander.perform_record {x : Expander} (hx : x.tracking.Sound) (b : Buffer) (m : Marker) :
    (x.perform b (.record m)).expander.tracking.Sound ∧
      (x.perform b (.record m)).expander.cycle = x.cycle := by
  rw [perform, record]
  cases hr : x.tracking.record m x.settings.defaultMean with
  | error e => exact ⟨hx, rfl⟩
  | ok u => exact ⟨Tracking.sound_record hx hr, rfl⟩

namespace Session

def asked (i : Nat) (as : List (Nat × Action)) : List Action := (as.filter (·.1 = i)).map Prod.snd

/-- Once an expander is asked to expand a marker, it is not asked to record one. -/
def RecordsFirst (i : Nat) (as : List (Nat × Action)) : Prop :=
  (asked i as).Pairwise fun a b => a.expanded?.isSome = true → b.isRecord = false

instance (i : Nat) (as : List (Nat × Action)) : Decidable (RecordsFirst i as) :=
  inferInstanceAs (Decidable (List.Pairwise _ _))

section
variable {i : Nat} {as bs : List (Nat × Action)} {a : Nat × Action}

theorem asked_append : asked i (as ++ bs) = asked i as ++ asked i bs := by
  simp [asked]

theorem asked_concat_self (h : a.1 = i) : asked i (as ++ [a]) = asked i as ++ [a.2] := by
  simp [asked, h]

theorem asked_concat_ne (h : a.1 ≠ i) : asked i (as ++ [a]) = asked i as := by
  simp [asked, h]

theorem RecordsFirst.of_append (h : RecordsFirst i (as ++ bs)) : RecordsFirst i as := by
  rw [RecordsFirst, asked_append, List.pairwise_append] at h
  exact h.1

variable {expanders : List (Nat × Settings)} {firstSlot : UInt16} {x : Expander}

theorem mem_turns_of_begins {s : Session} (h : bs ++ [a] <+: as) :
    Turn.mk (s.actAll bs) a.1 a.2 ∈ s.turns as := by
  obtain ⟨rest, rfl⟩ := h
  rw [turns_append, turns_concat]
  exact List.mem_append_left _ (List.mem_append_right _ List.mem_cons_self)

/-- What holds of an expander that was asked nothing, and is kept by each action that it is asked for, holds
of it in every run, whatever the others are asked. -/
theorem asked_induction {P : List Action → Expander → Prop}
    (hnew : ∀ id settings, P [] (.new id settings))
    (hact : ∀ bs a x, bs ++ [(i, a)] <+: as →
      ((opened expanders firstSlot).actAll bs).expanders[i]? = some x → P (asked i bs) x →
        P (asked i bs ++ [a]) (x.perform ((opened expanders firstSlot).actAll bs).buffer a).expander)
    (hx : ((opened expanders firstSlot).actAll as).expanders[i]? = some x) : P (asked i as) x := by
  induction as using List.reverseRecOn generalizing x with
  | nil =>
    obtain ⟨e, -, rfl⟩ := List.mem_map.1 (List.mem_of_getElem? hx)
    exact hnew _ _
  | append_singleton as a ih =>
    have hearlier {x : Expander} := ih (x := x) fun bs b y hb =>
      hact bs b y (hb.trans (List.prefix_append _ _))
    let t : Turn := ⟨(opened expanders firstSlot).actAll as, a.1, a.2⟩
    rw [actAll_concat] at hx
    by_cases hi : a.1 = i
    · rw [asked_concat_self hi]
      cases hy : t.expander? with
      | none =>
        rw [t.after_of_none hy, ← hi] at hx
        cases hy.symm.trans hx
      | some y =>
        have hy' : t.before.expanders[t.index]? = some y := hy
        rw [← hi, (t.performs hy).2.1,
          List.getElem?_set_self (List.getElem?_eq_some_iff.1 hy').1] at hx
        obtain rfl := Option.some.inj hx
        subst hi
        exact hact as a.2 y List.prefix_rfl hy' (hearlier hy')
    · rw [asked_concat_ne hi]
      exact hearlier (t.expanders_ne (Ne.symm hi) ▸ hx)

/-- An expander is sound, and if it was asked to expand nothing, it has bound nothing. -/
theorem sound_of_asked (hx : ((opened expanders firstSlot).actAll as).expanders[i]? = some x) :
    x.tracking.Sound ∧ ((∀ a ∈ asked i as, a.expanded? = none) → x.cycle = .initial) := by
  refine asked_induction (P := fun as x => x.tracking.Sound ∧
    ((∀ a ∈ as, a.expanded? = none) → x.cycle = .initial))
    (fun _ _ => ⟨Tracking.sound_initial, fun _ => rfl⟩) (fun bs a y _ _ ih => ?_) hx
  cases a with
  | record m =>
    obtain ⟨hsound, hcycle⟩ := Expander.perform_record ih.1
      ((opened expanders firstSlot).actAll bs).buffer m
    exact ⟨hsound, fun h => hcycle.trans (ih.2 (List.forall_mem_append.1 h).1)⟩
  | expand m =>
    rw [Expander.perform, (y.expand_keeps m _).2]
    refine ⟨ih.1, fun h => ?_⟩
    cases h (.expand m) (List.mem_append_right _ List.mem_cons_self)
  | forgetMeasurement =>
    refine ⟨ih.1, fun h => ?_⟩
    rw [Expander.perform, Expander.forgetMeasurement, ih.2 (List.forall_mem_append.1 h).1]
    rfl

/-- A record comes before all expansions of the same expander. -/
theorem RecordsFirst.expanded?_eq_none {m : Marker} (h : RecordsFirst i as)
    (hb : bs ++ [(i, .record m)] <+: as) : ∀ a ∈ asked i bs, a.expanded? = none := by
  obtain ⟨rest, rfl⟩ := hb
  have hfirst := h.of_append
  rw [RecordsFirst, asked_concat_self (a := (i, .record m)) rfl, List.pairwise_append] at hfirst
  intro a ha
  rw [← Option.not_isSome_iff_eq_none]
  intro hsome
  cases hfirst.2.2 a ha _ List.mem_cons_self hsome

/-- An expander that is asked for its records first has bound nothing until it is asked to expand
something. -/
theorem RecordsFirst.induction {P : List Action → Expander → Prop} (h : RecordsFirst i as)
    (hnew : ∀ as x, x.cycle = .initial → (∀ a ∈ as, a.expanded? = none) → P as x)
    (hexpand : ∀ bs m x, bs ++ [(i, .expand m)] <+: as → x.tracking.Sound →
      ((opened expanders firstSlot).actAll bs).expanders[i]? = some x → P (asked i bs) x →
        P (asked i bs ++ [.expand m])
          (x.expand m ((opened expanders firstSlot).actAll bs).buffer).expander)
    (hforget : ∀ before x, P before x → P (before ++ [.forgetMeasurement]) x.forgetMeasurement)
    (hx : ((opened expanders firstSlot).actAll as).expanders[i]? = some x) : P (asked i as) x := by
  refine asked_induction (fun id settings => hnew [] _ rfl nofun) (fun bs a y hb hy ih => ?_) hx
  obtain ⟨hsound, hinitial⟩ := sound_of_asked hy
  cases a with
  | record m =>
    have hnone := h.expanded?_eq_none hb
    refine hnew _ _ ?_ (List.forall_mem_append.2 ⟨hnone, by simp [Action.expanded?]⟩)
    rw [(Expander.perform_record hsound _ m).2, hinitial hnone]
  | expand m => exact hexpand bs m y hb hsound hy ih
  | forgetMeasurement => exact hforget _ y ih

end

end Session

end MethodProbes
