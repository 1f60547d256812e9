import Mathlib.Data.Finset.Card
import Mathlib.Data.List.Induction
import MethodProbes.Proofs.Session.Renaming

/-!
# Expanders do not influence each other

What an expander writes to a buffer that it shares is what it writes to a buffer of its own, up to the
names of slots and labels.  A renaming that takes the one to the other is put together turn by turn: the
turns of the other expanders push the names that are not handed out yet further up.
-/
namespace MethodProbes

section
variable {f : Nat → Nat} {n m : Nat}

/-- An injective function that moves the numbers from `n` on to those from `m` on has the places below `m` for
the numbers below `n`. -/
theorem Shifts.lt_of_lt (h : Shifts f n m) (hf : f.Injective) {k : Nat} (hk : k < n) : f k < m := by
  apply Nat.not_le.1
  intro hmk
  have heq : f k = f (n + (f k - m)) := by
    rw [h, Nat.add_sub_of_le hmk]
  have := hf heq
  omega

theorem Shifts.le_of_injective (h : Shifts f n m) (hf : f.Injective) : n ≤ m := by
  have hmaps : ∀ k ∈ Finset.range n, f k ∈ Finset.range m := fun k hk =>
    Finset.mem_range.2 (h.lt_of_lt hf (Finset.mem_range.1 hk))
  simpa only [Finset.card_range] using Finset.card_le_card_of_injOn f hmaps hf.injOn

/-- Numbers may be moved further up. -/
theorem injective_spliceAt {m' : Nat} (hf : f.Injective) (h : Shifts f n m) (hle : m ≤ m') :
    (spliceAt f n m').Injective := by
  intro a b hab
  rw [spliceAt, spliceAt] at hab
  split at hab <;> split at hab
  · exact hf hab
  · next ha _ =>
    have := h.lt_of_lt hf ha
    omega
  · next hb =>
    have := h.lt_of_lt hf hb
    omega
  · omega

/-- A relation that pairs each number with one other at most, either way, is told on finitely many numbers by a
function that is injective. -/
theorem exists_injective_of_relates {R : Nat → Nat → Prop}
    (h : ∀ j k j' k', R j j' → R k k' → (j = k ↔ j' = k')) (ks : List Nat) :
    ∃ g : Nat → Nat, g.Injective ∧ ∀ k ∈ ks, ∀ k', R k k' → g k = k' := by
  classical
  have hunique {k k' k'' : Nat} (hk : R k k') (hk' : R k k'') : k' = k'' := (h _ _ _ _ hk hk').1 rfl
  obtain ⟨bound, hbound⟩ : ∃ bound, ∀ k ∈ ks, ∀ k', R k k' → k' < bound := by
    induction ks with
    | nil => exact ⟨0, nofun⟩
    | cons k ks ih =>
      obtain ⟨bound, hbound⟩ := ih
      by_cases hk : ∃ k', R k k'
      · obtain ⟨k', hk'⟩ := hk
        refine ⟨bound + k' + 1, List.forall_mem_cons.2 ⟨fun j hj => ?_, fun j hj j' hj' => ?_⟩⟩
        · rw [hunique hj hk']
          omega
        · have := hbound j hj j' hj'
          omega
      · exact ⟨bound, List.forall_mem_cons.2 ⟨fun j hj => absurd ⟨j, hj⟩ hk, hbound⟩⟩
  -- the other numbers go above all values that are taken
  have hvalue (k : Nat) : ∃ v, (k ∈ ks ∧ R k v) ∨ (¬ (k ∈ ks ∧ ∃ k', R k k') ∧ v = bound + k) := by
    by_cases hk : k ∈ ks ∧ ∃ k', R k k'
    · obtain ⟨hk, v, hv⟩ := hk
      exact ⟨v, .inl ⟨hk, hv⟩⟩
    · exact ⟨_, .inr ⟨hk, rfl⟩⟩
  choose g hg using hvalue
  refine ⟨g, fun j k hjk => ?_, fun k hk k' hR => ?_⟩
  · rcases hg j with ⟨hj, hgj⟩ | ⟨-, hgj⟩ <;> rcases hg k with ⟨hk, hgk⟩ | ⟨-, hgk⟩
    · exact (h _ _ _ _ hgj hgk).2 hjk
    · have := hbound j hj _ hgj
      omega
    · have := hbound k hk _ hgk
      omega
    · omega
  · rcases hg k with ⟨-, hgk⟩ | ⟨hno, -⟩
    · exact hunique hgk hR
    · exact absurd ⟨hk, k', hR⟩ hno

/-- A function that is injective on the numbers with a property agrees on finitely many of them with a
function that is injective. -/
theorem exists_injective_of_inj {P : Nat → Prop} (h : ∀ j k, P j → P k → f j = f k → j = k)
    (ks : List Nat) : ∃ g : Nat → Nat, g.Injective ∧ ∀ k ∈ ks, P k → g k = f k := by
  obtain ⟨g, hg, hgf⟩ := exists_injective_of_relates (R := fun k k' => P k ∧ f k = k')
    (fun j k _ _ ⟨hj, hj'⟩ ⟨hk, hk'⟩ => by
      subst hj' hk'
      exact ⟨congrArg f, h j k hj hk⟩) ks
  exact ⟨g, hg, fun k hk hP => hgf k hk _ ⟨hP, rfl⟩⟩

end

namespace Session

/-- The actions that one expander is asked for, as those of a session in which it is alone. -/
def own (i : Nat) (as : List (Nat × Action)) : List (Nat × Action) :=
  (as.filter (·.1 = i)).map fun a => (0, a.2)

def writtenBy (s : Session) (as : List (Nat × Action)) (i : Nat) : List Insn :=
  ((s.turns as).filter (·.index = i)).flatMap Turn.emitted

section
variable {s : Session} {i : Nat} {as : List (Nat × Action)} {a : Nat × Action}

theorem own_concat_self (h : a.1 = i) : own i (as ++ [a]) = own i as ++ [(0, a.2)] := by
  simp [own, h]

theorem own_concat_ne (h : a.1 ≠ i) : own i (as ++ [a]) = own i as := by
  simp [own, h]

theorem writtenBy_concat_self (h : a.1 = i) : s.writtenBy (as ++ [a]) i =
    s.writtenBy as i ++ (Turn.mk (s.actAll as) a.1 a.2).emitted := by
  simp [writtenBy, turns_concat, h]

theorem writtenBy_concat_ne (h : a.1 ≠ i) : s.writtenBy (as ++ [a]) i = s.writtenBy as i := by
  simp [writtenBy, turns_concat, h]

theorem writtenBy_append_ne {bs : List (Nat × Action)} (h : ∀ b ∈ bs, b.1 ≠ i) :
    s.writtenBy (as ++ bs) i = s.writtenBy as i := by
  induction bs using List.reverseRecOn with
  | nil => rw [List.append_nil]
  | append_singleton bs b ih =>
    obtain ⟨hbs, hb⟩ := List.forall_mem_append.1 h
    rw [← List.append_assoc, writtenBy_concat_ne (hb b List.mem_cons_self), ih hbs]

end

end Session

/-- The renaming takes a session of one expander to a session in which it has the index `i` and has
written `code`. -/
structure Renaming.Leads (r : Renaming) (solo s : Session) (i : Nat) (code : List Insn) : Prop where
  slot : r.slot.Injective
  label : r.label.Injective
  expander : ∃ x, solo.expanders[0]? = some x ∧ s.expanders[i]? = some (x.rename r)
  carries : r.Carries solo.buffer s.buffer
  nextSlot : solo.buffer.nextSlot ≤ s.buffer.nextSlot
  code : code = solo.buffer.code.map (Insn.rename r)

namespace Renaming.Leads

variable {r : Renaming} {solo : Session} {i : Nat} {code : List Insn} {t u : Turn}

/-- At the start nothing is written, and slots are moved from the one first slot to the other. -/
theorem exists_opened {expanders : List (Nat × Settings)} {e : Nat × Settings}
    (he : expanders[i]? = some e) {firstSlot firstSlot' : UInt16} (hle : firstSlot' ≤ firstSlot) :
    ∃ r : Renaming, r.Leads (.opened [e] firstSlot') (.opened expanders firstSlot) i [] := by
  have hle : firstSlot'.toNat ≤ firstSlot.toNat := UInt16.le_iff_toNat_le.1 hle
  have hx : (Session.opened expanders firstSlot).expanders[i]? = some (.new e.1 e.2) := by
    simp [Session.opened, Session.new, he]
  refine ⟨⟨(· + (firstSlot.toNat - firstSlot'.toNat)), id⟩, ?_, fun _ _ => id, ?_, ⟨?_, ?_⟩, hle, rfl⟩
  · exact fun a b hab => Nat.add_right_cancel hab
  · exact ⟨.new e.1 e.2, rfl, hx⟩
  · intro k
    simp only [Session.opened, Session.new, Buffer.empty]
    omega
  · exact fun _ => rfl

theorem other (h : r.Leads solo t.before i code) (hsolo : solo.Known) (hi : i ≠ t.index) :
    ∃ r' : Renaming, r'.Leads solo t.after i code := by
  obtain ⟨x, hx, hx'⟩ := h.expander
  have hextends := t.extends_after
  let r' : Renaming :=
    ⟨spliceAt r.slot solo.buffer.nextSlot t.after.buffer.nextSlot,
      spliceAt r.label solo.buffer.nextLabel t.after.buffer.nextLabel⟩
  have hslot {k : Nat} (hk : k < solo.buffer.nextSlot) : r.slot k = r'.slot k :=
    (spliceAt_of_lt hk).symm
  have hlabel {k : Nat} (hk : k < solo.buffer.nextLabel) : r.label k = r'.label k :=
    (spliceAt_of_lt hk).symm
  refine ⟨r', injective_spliceAt h.slot h.carries.slot hextends.nextSlot,
    injective_spliceAt h.label h.carries.label hextends.nextLabel, ⟨x, hx, ?_⟩,
    ⟨shifts_spliceAt _ _ _, shifts_spliceAt _ _ _⟩,
    Nat.le_trans h.nextSlot hextends.nextSlot, ?_⟩
  · have hcycle : x.cycle.rename r = x.cycle.rename r' :=
      Cycle.rename_congr (fun v s hs => hslot (hsolo.held 0 v s ⟨x, hx, hs⟩))
        fun l hl => hlabel (hsolo.pending 0 l (by rw [Session.pending?, hx]; exact hl))
    rw [Turn.expanders_ne hi, hx', Expander.rename, hcycle]
    rfl
  · rw [h.code]
    exact List.map_congr_left fun insn hinsn => Insn.rename_congr
      (fun s ty hs => hslot (hsolo.used insn hinsn s ty hs))
      fun l hl => hlabel (hsolo.named insn hinsn l hl)

/-- A turn of the expander itself is taken in both sessions. -/
theorem own (h : r.Leads t.before u.before u.index code) (hi : t.index = 0)
    (ha : u.action = t.action) (he : u.error? = none) :
    t.error? = none ∧ r.Leads t.after u.after u.index (code ++ u.emitted) := by
  obtain ⟨x, hx, hx'⟩ := h.expander
  have hasked : t.expander? = some x := by
    rw [Turn.expander?, hi]
    exact hx
  obtain ⟨herror, hle⟩ := Turn.succeeds_of_le ha hasked hx' h.carries h.nextSlot he
  obtain ⟨⟨y, hy, hy'⟩, hcopies⟩ := Turn.copies ha hasked hx' h.carries herror he
  refine ⟨herror, h.slot, h.label, ⟨y, hi ▸ hy, hy'⟩, hcopies.carries, hle, ?_⟩
  rw [h.code, Turn.emitted_of_copies hcopies, Turn.code_after, List.map_append]

end Renaming.Leads

namespace Session

variable {expanders : List (Nat × Settings)} {firstSlot firstSlot' : UInt16}
  {as : List (Nat × Action)} {i : Nat} {e : Nat × Settings}

/-- In a run in which nothing fails there is a renaming from the expander's own session at every time. -/
theorem exists_leads (h : ∀ t ∈ (opened expanders firstSlot).turns as, t.error? = none)
    (he : expanders[i]? = some e) (hle : firstSlot' ≤ firstSlot) :
    (∀ t ∈ (opened [e] firstSlot').turns (own i as), t.error? = none) ∧
      ∃ r : Renaming, r.Leads ((opened [e] firstSlot').actAll (own i as))
        ((opened expanders firstSlot).actAll as) i ((opened expanders firstSlot).writtenBy as i) := by
  induction as using List.reverseRecOn with
  | nil => exact ⟨nofun, Renaming.Leads.exists_opened he hle⟩
  | append_singleton as a ih =>
    rw [turns_concat, List.forall_mem_append] at h
    obtain ⟨hsolo, r, hr⟩ := ih h.1
    have hlast := h.2 _ List.mem_cons_self
    rw [actAll_concat]
    by_cases ha : a.1 = i
    · subst ha
      obtain ⟨hown, hr⟩ := hr.own
        (t := ⟨(opened [e] firstSlot').actAll (own a.1 as), 0, a.2⟩)
        (u := ⟨(opened expanders firstSlot).actAll as, a.1, a.2⟩) rfl rfl hlast
      rw [own_concat_self rfl, writtenBy_concat_self rfl, turns_concat, actAll_concat,
        List.forall_mem_append]
      exact ⟨⟨hsolo, by simpa using hown⟩, r, hr⟩
    · rw [own_concat_ne ha, writtenBy_concat_ne ha]
      exact ⟨hsolo, hr.other (t := ⟨(opened expanders firstSlot).actAll as, a.1, a.2⟩)
        (known_actAll_opened hsolo) (Ne.symm ha)⟩

end Session

end MethodProbes
