import MethodProbes.Proofs.Expansion.Written

/-!
# How many slots steps use

Steps hand out slots exactly for the variables that they bind.  They run out of slots only if all
these do not fit.
-/
namespace MethodProbes

open Step

namespace Cycle

def held (c : Cycle) : Nat :=
  2 * (c.isBound .entryTs).toNat + (c.isBound .sampleHit).toNat +
    2 * (c.isBound .duration).toNat + (c.isBound .level).toNat

theorem isBound_bind (c : Cycle) (v w : Var) (s : Slot) :
    (c.bind v s).isBound w = (decide (w = v) || c.isBound w) := by
  rw [isBound, slot?_bind]
  split
  next h => simp [h]
  next h => simp [h, isBound]

theorem held_congr {c d : Cycle} (h : ∀ v, c.isBound v = d.isBound v) : c.held = d.held := by
  simp only [held, h]

theorem held_mono {c d : Cycle} (h : ∀ v, c.isBound v = true → d.isBound v = true) :
    c.held ≤ d.held := by
  have hle (v : Var) : (c.isBound v).toNat ≤ (d.isBound v).toNat := by
    cases hv : c.isBound v with
    | false => exact Nat.zero_le _
    | true => simp [h v hv]
  have hts := hle .entryTs
  have hhit := hle .sampleHit
  have hdur := hle .duration
  have hlevel := hle .level
  simp only [held]
  omega

/-- A variable that is bound anew fills indices of its own. -/
theorem held_bind_new {c : Cycle} {v : Var} (h : c.isBound v = false) (s : Slot) :
    (c.bind v s).held = c.held + v.type.width := by
  cases v <;> simp [held, isBound_bind, h, Var.type, ValueType.width] <;> omega

theorem isBound_bind_old {c : Cycle} {v : Var} (h : c.isBound v = true) (w : Var) (s : Slot) :
    (c.bind v s).isBound w = c.isBound w := by
  rw [isBound_bind]
  by_cases hw : w = v
  · simp [hw, h]
  · simp [hw]

end Cycle

namespace Step

variable {p q : Progress} {σ : Layout}

/-- Which variables are bound behind steps does not depend on their slots. -/
theorem isBound_afterAll_congr {ss : List Step} (hr : reset ∉ ss) {c d : Cycle}
    (h : ∀ v, c.isBound v = d.isBound v) (v : Var) :
    (afterAll σ c ss).isBound v = (afterAll σ d ss).isBound v := by
  rw [Bool.eq_iff_iff, isBound_afterAll σ hr, isBound_afterAll σ hr, h]

theorem held_le_afterAll {ss : List Step} (hr : reset ∉ ss) (c : Cycle) :
    c.held ≤ (afterAll σ c ss).held :=
  Cycle.held_mono fun v hv => (isBound_afterAll σ hr c v).2 (.inr hv)

/-- The next free slot has moved by what the variables fill that are bound anew. -/
structure Allots (p q : Progress) : Prop where
  nextSlot : q.buffer.nextSlot + p.cycle.held = p.buffer.nextSlot + q.cycle.held
  le : p.buffer.nextSlot ≤ slotSpace → q.buffer.nextSlot ≤ slotSpace

theorem Allots.refl (p : Progress) : Allots p p := ⟨rfl, id⟩

theorem Allots.trans {o : Progress} (h : Allots p q) (h' : Allots q o) : Allots p o where
  nextSlot := by
    have hpq := h.nextSlot
    have hqo := h'.nextSlot
    omega
  le := h'.le ∘ h.le

theorem Allots.of_slots {b b' : Buffer} {c c' : Cycle} (hb : b'.nextSlot = b.nextSlot)
    (hc : ∀ v, c'.isBound v = c.isBound v) : Allots ⟨b, c⟩ ⟨b', c'⟩ where
  nextSlot := by
    rw [hb, Cycle.held_congr hc]
  le h := hb ▸ h

theorem take_slots {s : Step} {e : Option SlotsExhausted} (hr : s ≠ reset)
    (h : s.take p = (e, q)) (σ : Layout) :
    (e = none ∧ Allots p q ∧ ∀ v, q.cycle.isBound v = (after σ p.cycle s).isBound v) ∨
      ∃ f, e = some f ∧
        slotSpace + p.cycle.held < p.buffer.nextSlot + (after σ p.cycle s).held := by
  obtain ⟨b, c⟩ := p
  cases s with
  | reset => exact absurd rfl hr
  | emit i | newLabel =>
    cases h
    exact .inl ⟨rfl, .of_slots rfl fun _ => rfl, fun _ => rfl⟩
  | await l | settle | measured =>
    cases h
    refine .inl ⟨rfl, .of_slots rfl fun v => ?_, fun _ => rfl⟩
    cases v <;> rfl
  | load v =>
    rw [take] at h
    split at h <;> cases h <;> exact .inl ⟨rfl, .of_slots rfl fun _ => rfl, fun _ => rfl⟩
  | store v =>
    have hbound (r : Slot) (u : Var) :
        (c.bind v r).isBound u = (c.bind v (σ.slot v)).isBound u := by
      rw [Cycle.isBound_bind, Cycle.isBound_bind]
    rw [take] at h
    cases hv : c.slot? v with
    | some r =>
      have hold : c.isBound v = true := by simp [Cycle.isBound, hv]
      rw [hv, Buffer.storeInto] at h
      cases h
      exact .inl ⟨rfl, .of_slots rfl fun u => Cycle.isBound_bind_old hold u r, hbound r⟩
    | none =>
      have hnew : c.isBound v = false := by simp [Cycle.isBound, hv]
      rw [hv, Buffer.storeInto] at h
      by_cases hle : b.nextSlot + v.type.width ≤ slotSpace
      · rw [Buffer.storeNew_of_le hle] at h
        cases h
        refine .inl ⟨rfl, ⟨?_, fun _ => hle⟩, hbound _⟩
        simp only [Cycle.held_bind_new hnew, Buffer.nextSlot_emit, Buffer.reserve]
        omega
      · rw [Buffer.storeNew_of_lt (Nat.lt_of_not_le hle)] at h
        cases h
        refine .inr ⟨_, rfl, ?_⟩
        simp only [after, Cycle.held_bind_new hnew]
        omega

/-- Steps have the slots that they need, or there is no room for all of them. -/
theorem takeAll_slots {ss : List Step} {e : Option SlotsExhausted} (hr : reset ∉ ss)
    (h : takeAll p ss = (e, q)) (σ : Layout) :
    (e = none ∧ Allots p q ∧ ∀ v, q.cycle.isBound v = (afterAll σ p.cycle ss).isBound v) ∨
      ∃ f, e = some f ∧
        slotSpace + p.cycle.held < p.buffer.nextSlot + (afterAll σ p.cycle ss).held := by
  induction ss generalizing p with
  | nil =>
    cases h
    exact .inl ⟨rfl, .refl _, fun _ => rfl⟩
  | cons s ss ih =>
    obtain ⟨hs, hr⟩ := not_or.1 (mt List.mem_cons.2 hr)
    rcases ht : s.take p with ⟨e', o⟩
    rcases take_slots (Ne.symm hs) ht σ with ⟨rfl, hallots, hbound⟩ | ⟨f, rfl, hlt⟩
    · rw [takeAll_cons_none ht] at h
      have hrest (v : Var) : (afterAll σ o.cycle ss).isBound v =
          (afterAll σ (after σ p.cycle s) ss).isBound v := isBound_afterAll_congr hr hbound v
      rcases ih hr h with ⟨he, hallots', hbound'⟩ | ⟨f, hf, hlt⟩
      · exact .inl ⟨he, hallots.trans hallots', fun v => (hbound' v).trans (hrest v)⟩
      · refine .inr ⟨f, hf, ?_⟩
        have hnext := hallots.nextSlot
        rw [Cycle.held_congr hrest] at hlt
        rw [afterAll_cons]
        omega
    · rw [takeAll_cons_some ht] at h
      cases h
      refine .inr ⟨f, rfl, ?_⟩
      have hle := held_le_afterAll (σ := σ) hr (after σ p.cycle s)
      rw [afterAll_cons]
      omega

end Step

end MethodProbes
