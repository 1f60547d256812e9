import MethodProbes.Tracking.Basic
import MethodProbes.Expansion.Cycle

/-!
# The call of an entry

A sampled method has a sampler, whose call decides the sample.  A method that is timed and not
sampled asks for the time.
-/
namespace MethodProbes

namespace Tracking

def Sound (t : Tracking) : Prop := t.isSampled = true → t.sampler.isSome = true

theorem sound_initial : initial.Sound := nofun

theorem sound_declare (t : Tracking) (d : Declaration) (n : Nat) : (t.declare d n).Sound := by
  intro hs
  rw [declare] at hs ⊢
  cases hd : d.sampler with
  | none =>
    rw [hd] at hs
    cases hs
  | some s =>
    rw [hd] at hs
    simp only [addSampler] at hs ⊢
    split at hs
    next hm =>
      rw [isSampled, hm] at hs
      cases hs
    next hm =>
      rw [if_neg hm]
      dsimp only
      split
      next hc => rw [hc]; rfl
      next => rfl

theorem sound_record {t u : Tracking} (h : t.Sound) {m : Marker} {n : Nat}
    (hr : t.record m n = .ok u) : u.Sound := by
  rw [record] at hr
  split at hr
  · cases hd : Declaration.ofMarker m with
    | error e =>
      rw [hd] at hr
      cases hr
    | ok d =>
      rw [hd] at hr
      cases hr
      exact sound_declare t d n
  · cases hr
    exact h

theorem sampling?_of_sampled {t : Tracking} (h : t.Sound) (hs : t.isSampled = true) :
    ∃ n s, t.sampling? = some (n, s.hitCall t.timed) ∧ t.sampler = some s := by
  obtain ⟨n, hn⟩ := Option.isSome_iff_exists.1 hs
  obtain ⟨s, hsampler⟩ := Option.isSome_iff_exists.1 (h hs)
  exact ⟨n, s, by simp [sampling?, hn, hsampler], hsampler⟩

theorem sampling?_of_not_sampled {t : Tracking} (hs : t.isSampled = false) :
    t.sampling? = none := by
  have hn : t.mean.get? = none := by simpa [isSampled] using hs
  simp [sampling?, hn]

def entryVars (t : Tracking) : List Var :=
  (if t.timed then [.entryTs] else []) ++ if t.isSampled then [.sampleHit] else []

theorem mem_entryVars {t : Tracking} {v : Var} : v ∈ t.entryVars ↔
    v = .entryTs ∧ t.timed = true ∨ v = .sampleHit ∧ t.isSampled = true := by
  rw [entryVars]
  split <;> split <;> simp_all

def call? (t : Tracking) : Option ProbeCall :=
  match t.sampling? with
  | some s => some s.2
  | none => if t.timed then some .nanoTime else none

theorem eq_nanoTime_of_call? {t : Tracking} {call : ProbeCall} (h : t.call? = some call)
    (hs : t.isSampled = false) : call = .nanoTime := by
  rw [call?, sampling?_of_not_sampled hs] at h
  cases ht : t.timed with
  | true =>
    rw [ht] at h
    exact (Option.some.inj h).symm
  | false =>
    rw [ht] at h
    cases h

theorem exists_sampler_of_call? {t : Tracking} (hT : t.Sound) {call : ProbeCall}
    (h : t.call? = some call) (hs : t.isSampled = true) :
    ∃ k, t.sampler = some k ∧ call = k.hitCall t.timed := by
  obtain ⟨n, k, hk, hsampler⟩ := sampling?_of_sampled hT hs
  rw [call?, hk] at h
  exact ⟨k, hsampler, (Option.some.inj h).symm⟩

/-- A method whose entries make a call has variables for the result. -/
theorem exists_mem_entryVars {t : Tracking} {call : ProbeCall} (h : t.call? = some call) :
    ∃ v, v ∈ t.entryVars := by
  cases hm : t.isSampled with
  | true => exact ⟨.sampleHit, mem_entryVars.2 (.inr ⟨rfl, hm⟩)⟩
  | false =>
    rw [call?, sampling?_of_not_sampled hm] at h
    cases ht : t.timed with
    | true => exact ⟨.entryTs, mem_entryVars.2 (.inl ⟨rfl, ht⟩)⟩
    | false =>
      rw [ht] at h
      cases h

end Tracking

end MethodProbes
