import MethodProbes.Proofs.Expansion.Phrases

/-!
# Slots that steps take

Steps, taken as far as they go, keep the slots that are held, or hand out new ones.  They load and
store nothing but these.
-/
namespace MethodProbes

open Step

def Insn.slot? : Insn → Option (Slot × ValueType)
  | .load ty r | .store ty r => some (r, ty)
  | _ => none

/-- The steps use slots through variables only. -/
def Bare (ss : List Step) : Prop := ∀ i, .emit i ∈ ss → i.slot? = none

theorem Bare.append {ss ts : List Step} (hs : Bare ss) (ht : Bare ts) : Bare (ss ++ ts) :=
  fun i hi => (List.mem_append.1 hi).elim (hs i) (ht i)

theorem Step.exists_store_of_mem_written {σ : Layout} {ss : List Step} (hb : Bare ss)
    {ty : ValueType} {r : Slot} (h : .store ty r ∈ written σ ss) :
    ∃ v, store v ∈ ss ∧ ty = v.type ∧ r = σ.slot v := by
  obtain ⟨s, hs, hi⟩ := List.mem_flatMap.1 h
  cases s with
  | emit i =>
    cases List.mem_singleton.1 hi
    cases hb _ hs
  | store v =>
    cases List.mem_singleton.1 hi
    exact ⟨v, hs, rfl, rfl⟩
  | load v => cases List.mem_singleton.1 hi
  | _ => cases hi

theorem Asks.bare {call : ProbeCall} {ss : List Step} (h : Asks call ss) : Bare ss := by
  cases h <;> intro i hi <;> simp at hi <;> rcases hi with rfl | rfl <;> rfl

theorem Phrase.bare {p : List Step} (h : Phrase p) : Bare p := by
  have hlevel (field : String) (bound : Bool) : Bare (Gate.pushLevel field bound) := by
    cases bound <;> intro i hi <;> simp [Gate.pushLevel] at hi
    rcases hi with rfl | rfl <;> rfl
  have hcompare (n : Int32) (c d : Cond) (l : Label) : Bare (Gate.compare n c d l) := by
    intro i hi
    rw [Gate.compare] at hi
    split at hi <;> simp at hi
    · exact hi ▸ rfl
    · rcases hi with rfl | rfl <;> rfl
  cases h with
  | @note s h =>
    intro i hi
    rw [← List.mem_singleton.1 hi] at h
    cases h
  | levelTest field bound n => exact (hlevel field bound).append (hcompare n _ _ _)
  | keep h => exact h.bare.append (by simp [Bare])
  | keepTimeAndFlag h => exact h.bare.append (by simp [Bare, Insn.slot?])
  | elapsed h => exact h.bare.append (by simp [Bare, Insn.slot?])
  | tell h => exact h.bare
  | merge | goto | constant | flagTest => simp [Bare, Step.merge, Insn.slot?]

theorem Phrased.bare {ss : List Step} (h : Phrased ss) : Bare ss := by
  induction h with
  | nil => exact fun _ hi => absurd hi List.not_mem_nil
  | append phrase _ ih => exact phrase.bare.append ih

theorem Context.bare_steps (x : Context) (m : Marker) : Bare (x.steps m) := by
  by_cases hm : m.kind = .duration
  · rw [steps, hm]
    dsimp only [durationSteps]
    split <;> simp [Bare, Insn.slot?]
  · exact (x.phrased_steps hm).bare

/-- What taking steps adds to the code and to the slots handed out. -/
structure Grows (p q : Progress) (code : List Insn) (slots : List (Slot × ValueType)) : Prop where
  writes : q.buffer.code = p.buffer.code ++ code
  allots : q.buffer.slots.toList = p.buffer.slots.toList ++ slots
  nextSlot : p.buffer.nextSlot ≤ q.buffer.nextSlot
  /-- A variable keeps its slot, or has a new one. -/
  held : ∀ v r, q.cycle.slot? v = some r → p.cycle.slot? v = some r ∨
    (r, v.type) ∈ slots ∧ p.buffer.nextSlot ≤ r.index ∧ r.index + v.type.width ≤ q.buffer.nextSlot
  used : ∀ i ∈ code, ∀ r ty, i.slot? = some (r, ty) →
    ∃ v, ty = v.type ∧ (p.cycle.slot? v = some r ∨ (r, v.type) ∈ slots)
  duration : ∀ r, p.cycle.slot? .duration = some r → q.cycle.slot? .duration = some r

namespace Grows

variable {p q o : Progress} {a b : List Insn} {e f : List (Slot × ValueType)}

theorem refl (p : Progress) : Grows p p [] [] :=
  ⟨(List.append_nil _).symm, (List.append_nil _).symm, Nat.le_refl _, fun _ _ => .inl, nofun,
    fun _ => id⟩

theorem trans (h : Grows p q a e) (h' : Grows q o b f) : Grows p o (a ++ b) (e ++ f) where
  writes := by rw [h'.writes, h.writes, List.append_assoc]
  allots := by rw [h'.allots, h.allots, List.append_assoc]
  nextSlot := Nat.le_trans h.nextSlot h'.nextSlot
  held v r hr := by
    rcases h'.held v r hr with hr | ⟨hmem, hle, hlt⟩
    · refine (h.held v r hr).imp_right fun ⟨hmem, hle, hlt⟩ => ?_
      exact ⟨List.mem_append_left _ hmem, hle, Nat.le_trans hlt h'.nextSlot⟩
    · exact .inr ⟨List.mem_append_right _ hmem, Nat.le_trans h.nextSlot hle, hlt⟩
  used i hi r ty hr := by
    rcases List.mem_append.1 hi with hi | hi
    · obtain ⟨v, rfl, hv⟩ := h.used i hi r ty hr
      exact ⟨v, rfl, hv.imp_right (List.mem_append_left _)⟩
    · obtain ⟨v, rfl, hv | hmem⟩ := h'.used i hi r ty hr
      · exact ⟨v, rfl, (h.held v r hv).imp_right fun hnew => List.mem_append_left _ hnew.1⟩
      · exact ⟨v, rfl, .inr (List.mem_append_right _ hmem)⟩
  duration r hr := h'.duration r (h.duration r hr)

theorem of_emit {b b' : Buffer} {c c' : Cycle} (hcode : b'.code = b.code ++ a)
    (hslots : b'.slots = b.slots) (hnext : b'.nextSlot = b.nextSlot)
    (hheld : ∀ v r, c'.slot? v = some r → c.slot? v = some r)
    (hused : ∀ i ∈ a, ∀ r ty, i.slot? = some (r, ty) → ∃ v, ty = v.type ∧ c.slot? v = some r)
    (hdur : c'.slot? .duration = c.slot? .duration) : Grows ⟨b, c⟩ ⟨b', c'⟩ a [] where
  writes := hcode
  allots := by rw [hslots, List.append_nil]
  nextSlot := Nat.le_of_eq hnext.symm
  held v r hr := .inl (hheld v r hr)
  used i hi r ty hr := (hused i hi r ty hr).imp fun _ h => h.imp_right .inl
  duration r hr := hdur.trans hr

theorem of_cycle {b b' : Buffer} {c c' : Cycle} (hcode : b'.code = b.code)
    (hslots : b'.slots = b.slots) (hnext : b'.nextSlot = b.nextSlot)
    (hheld : ∀ v r, c'.slot? v = some r → c.slot? v = some r)
    (hdur : c'.slot? .duration = c.slot? .duration) : Grows ⟨b, c⟩ ⟨b', c'⟩ [] [] :=
  .of_emit (by rw [hcode, List.append_nil]) hslots hnext hheld
    (fun _ hi => absurd hi List.not_mem_nil) hdur

end Grows

namespace Step

theorem exists_grows_take {p q : Progress} {s : Step} {e : Option SlotsExhausted}
    (hs : ∀ i, s = emit i → i.slot? = none) (h : s.take p = (e, q)) :
    ∃ code slots, Grows p q code slots := by
  obtain ⟨b, c⟩ := p
  cases s with
  | emit i =>
    cases h
    refine ⟨[i], [], .of_emit (b.code_emit i) rfl rfl (fun _ _ => id) ?_ rfl⟩
    intro i' hi r ty hr
    rw [List.mem_singleton.1 hi, hs i rfl] at hr
    cases hr
  | load v =>
    cases hv : c.slot? v with
    | none =>
      simp only [take, hv] at h
      cases h
      exact ⟨[], [], .refl _⟩
    | some r =>
      simp only [take, hv] at h
      cases h
      refine ⟨[.load v.type r], [], .of_emit (b.code_emit _) rfl rfl (fun _ _ => id) ?_ rfl⟩
      intro i hi r' ty hr
      rw [List.mem_singleton.1 hi] at hr
      cases hr
      exact ⟨v, rfl, hv⟩
  | store v =>
    rcases take_store_cases b c v with ⟨r, hv, ht⟩ | ⟨hv, ht⟩ | ⟨hv, e, ht⟩
    · cases h.symm.trans ht
      have hself (u : Var) : (c.bind v r).slot? u = c.slot? u := Placed.slot?_bind_self hv u
      refine ⟨[.store v.type r], [], .of_emit (b.code_emit _) rfl rfl (fun u r hr => hself u ▸ hr)
        ?_ (hself .duration)⟩
      intro i hi r' ty hr
      rw [List.mem_singleton.1 hi] at hr
      cases hr
      exact ⟨v, rfl, hv⟩
    · cases h.symm.trans ht
      have hmem : ((⟨b.nextSlot⟩ : Slot), v.type) ∈ [((⟨b.nextSlot⟩ : Slot), v.type)] :=
        List.mem_cons_self
      refine ⟨[.store v.type ⟨b.nextSlot⟩], [(⟨b.nextSlot⟩, v.type)], by simp,
        by simp [Buffer.reserve], Nat.le_add_right _ _, fun u r hr => ?_, ?_, fun r hr => ?_⟩
      · rw [Cycle.slot?_bind] at hr
        split at hr
        · next hu =>
          cases hr
          exact .inr ⟨hu ▸ hmem, Nat.le_refl _, hu ▸ Nat.le_refl _⟩
        · exact .inl hr
      · intro i hi r ty hr
        rw [List.mem_singleton.1 hi] at hr
        cases hr
        exact ⟨v, rfl, .inr hmem⟩
      · rw [Cycle.slot?_bind, if_neg, hr]
        rintro rfl
        cases hv.symm.trans hr
    · cases h.symm.trans ht
      exact ⟨[], [], .refl _⟩
  | newLabel =>
    cases h
    exact ⟨[], [], .of_cycle rfl rfl rfl (fun _ _ => id) rfl⟩
  | await l | settle | measured =>
    cases h
    refine ⟨[], [], .of_cycle rfl rfl rfl (fun v r hr => ?_) rfl⟩
    cases v <;> exact hr
  | reset =>
    cases h
    refine ⟨[], [], .of_cycle rfl rfl rfl (fun v r hr => ?_) rfl⟩
    rw [Cycle.slot?_reset] at hr
    split at hr
    · next hv => exact hv ▸ hr
    · cases hr

theorem exists_grows_takeAll {p q : Progress} {ss : List Step} {e : Option SlotsExhausted}
    (hs : Bare ss) (h : takeAll p ss = (e, q)) : ∃ code slots, Grows p q code slots := by
  induction ss generalizing p with
  | nil =>
    cases h
    exact ⟨[], [], .refl _⟩
  | cons s ss ih =>
    have hhead (i : Insn) (hi : s = emit i) : i.slot? = none := hs i (hi ▸ List.mem_cons_self)
    rcases ht : s.take p with ⟨_ | e', o⟩
    · rw [takeAll_cons_none ht] at h
      obtain ⟨a, f, hfirst⟩ := exists_grows_take hhead ht
      obtain ⟨b, g, hrest⟩ := ih (fun i hi => hs i (List.mem_cons_of_mem _ hi)) h
      exact ⟨_, _, hfirst.trans hrest⟩
    · rw [takeAll_cons_some ht] at h
      cases h
      exact exists_grows_take hhead ht

end Step

end MethodProbes
