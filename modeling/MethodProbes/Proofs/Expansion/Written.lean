import MethodProbes.Proofs.Expansion.Layout

/-!
# What a list of steps writes

Steps that all succeed write the code that they stand for under the final slots, and what they
leave for later markers depends on the steps alone.
-/
namespace MethodProbes

namespace Step

def insns (σ : Layout) : Step → List Insn
  | emit i => [i]
  | load v => [.load v.type (σ.slot v)]
  | store v => [.store v.type (σ.slot v)]
  | newLabel | await _ | settle | measured | reset => []

def written (σ : Layout) (ss : List Step) : List Insn := ss.flatMap (insns σ)

def after (σ : Layout) (c : Cycle) : Step → Cycle
  | store v => c.bind v (σ.slot v)
  | await l => { c with pendingElse := some l }
  | settle => { c with pendingElse := none }
  | measured => { c with measured := true }
  | reset => c.reset
  | emit _ | load _ | newLabel => c

def afterAll (σ : Layout) (c : Cycle) (ss : List Step) : Cycle := ss.foldl (after σ) c

/-- Variables are loaded only when they are bound, at first those of `B`, and they stay bound. -/
def Scoped : (Var → Prop) → List Step → Prop
  | _, [] => True
  | _, reset :: _ => False
  | B, load v :: ss => B v ∧ Scoped B ss
  | B, store v :: ss => Scoped (fun u => u = v ∨ B u) ss
  | B, _ :: ss => Scoped B ss

section
variable (σ : Layout)

@[simp] theorem written_nil : written σ [] = [] := rfl

@[simp] theorem written_cons (s : Step) (ss : List Step) :
    written σ (s :: ss) = s.insns σ ++ written σ ss := rfl

@[simp] theorem written_append (ss ts : List Step) :
    written σ (ss ++ ts) = written σ ss ++ written σ ts := List.flatMap_append

@[simp] theorem written_merge (l : Label) : written σ (merge l) = [.label l, .frame l] := rfl

@[simp] theorem afterAll_nil (c : Cycle) : afterAll σ c [] = c := rfl

@[simp] theorem afterAll_cons (c : Cycle) (s : Step) (ss : List Step) :
    afterAll σ c (s :: ss) = afterAll σ (after σ c s) ss := rfl

@[simp] theorem afterAll_append (c : Cycle) (ss ts : List Step) :
    afterAll σ c (ss ++ ts) = afterAll σ (afterAll σ c ss) ts := List.foldl_append

theorem slot?_afterAll {ss : List Step} (hr : reset ∉ ss) (c : Cycle) (v : Var) :
    (afterAll σ c ss).slot? v = if store v ∈ ss then some (σ.slot v) else c.slot? v := by
  induction ss generalizing c with
  | nil => rfl
  | cons s ss ih =>
    obtain ⟨hs, hr⟩ := not_or.1 (mt List.mem_cons.2 hr)
    rw [afterAll_cons, ih hr]
    cases s with
    | reset => exact absurd rfl hs
    | store u =>
      by_cases hv : v = u <;> by_cases hm : store v ∈ ss <;> simp_all [after]
    | _ => cases v <;> simp [after, Cycle.slot?]

theorem isBound_afterAll {ss : List Step} (hr : reset ∉ ss) (c : Cycle) (v : Var) :
    (afterAll σ c ss).isBound v = true ↔ store v ∈ ss ∨ c.isBound v = true := by
  rw [Cycle.isBound, slot?_afterAll σ hr]
  by_cases h : store v ∈ ss <;> simp [h, Cycle.isBound]

theorem measured_afterAll {ss : List Step} (hr : reset ∉ ss) (c : Cycle) :
    (afterAll σ c ss).measured = true ↔ measured ∈ ss ∨ c.measured = true := by
  induction ss generalizing c with
  | nil => simp
  | cons s ss ih =>
    obtain ⟨hs, hr⟩ := not_or.1 (mt List.mem_cons.2 hr)
    rw [afterAll_cons, ih hr]
    cases s with
    | reset => exact absurd rfl hs
    | _ => simp [after]

theorem pendingElse_afterAll {ss : List Step} (ha : ∀ l, await l ∉ ss) (hs : settle ∉ ss)
    (c : Cycle) : (afterAll σ c ss).pendingElse = c.pendingElse := by
  induction ss generalizing c with
  | nil => rfl
  | cons s ss ih =>
    rw [afterAll_cons, ih (fun l h => ha l (List.mem_cons_of_mem _ h))
      fun h => hs (List.mem_cons_of_mem _ h)]
    cases s with
    | await l => exact absurd List.mem_cons_self (ha l)
    | settle => exact absurd List.mem_cons_self hs
    | store v => exact Cycle.pendingElse_bind c v _
    | _ => rfl

end

theorem Scoped.mono {B C : Var → Prop} {ss : List Step} (h : Scoped B ss) (hBC : ∀ v, B v → C v) :
    Scoped C ss := by
  induction ss generalizing B C with
  | nil => trivial
  | cons s ss ih =>
    cases s with
    | reset => exact h
    | load v => exact ⟨hBC v h.1, ih h.2 hBC⟩
    | store v => exact ih h fun u hu => hu.imp id (hBC u)
    | _ => exact ih h hBC

theorem scoped_append {B : Var → Prop} {a b : List Step} (hs : Scoped B a)
    (ht : Scoped (fun u => .store u ∈ a ∨ B u) b) : Scoped B (a ++ b) := by
  induction a generalizing B with
  | nil => exact ht.mono fun u hu => hu.resolve_left List.not_mem_nil
  | cons s a ih =>
    cases s with
    | reset => exact hs
    | load v =>
      refine ⟨hs.1, ih hs.2 (ht.mono fun u hu => hu.imp (fun h => ?_) id)⟩
      exact (List.mem_cons.1 h).resolve_left (by simp)
    | store v =>
      refine ih (B := fun u => u = v ∨ B u) hs (ht.mono fun u hu => ?_)
      rcases hu with hu | hu
      · rcases List.mem_cons.1 hu with hv | hu
        · cases hv
          exact .inr (.inl rfl)
        · exact .inl hu
      · exact .inr (.inr hu)
    | _ =>
      refine ih hs (ht.mono fun u hu => hu.imp (fun h => ?_) id)
      exact (List.mem_cons.1 h).resolve_left (by simp)

theorem take_eq {σ : Layout} {p q : Progress} {s : Step} (ht : s.take p = (none, q))
    (hb : ∀ v, s = load v → (p.cycle.slot? v).isSome) (hr : s ≠ reset) (hq : σ.Fits q.cycle) :
    σ.Fits p.cycle ∧ q.buffer.code = p.buffer.code ++ s.insns σ ∧
      q.cycle = after σ p.cycle s ∧
      q.buffer.nextLabel = p.buffer.nextLabel + [s].count .newLabel := by
  obtain ⟨b, c⟩ := p
  cases s with
  | reset => exact absurd rfl hr
  | emit i =>
    cases ht
    exact ⟨hq, by simp [insns], rfl, rfl⟩
  | newLabel =>
    cases ht
    exact ⟨hq, by simp [insns, Buffer.newLabel, Buffer.code], rfl, rfl⟩
  | await l | settle | measured =>
    cases ht
    exact ⟨fun v s hs => hq v s (by cases v <;> exact hs), by simp [insns], rfl, rfl⟩
  | load v =>
    obtain ⟨s, hs⟩ := Option.isSome_iff_exists.1 (hb v rfl)
    simp only [take, hs] at ht
    cases ht
    exact ⟨hq, by simp [insns, hq v s hs], rfl, rfl⟩
  | store v =>
    have hok {s : Slot} {b' : Buffer} (hc : b'.code = b.code ++ [.store v.type s])
        (hn : b'.nextLabel = b.nextLabel) (hs : ∀ r, c.slot? v = some r → r = s)
        (h : (none, ⟨b', c.bind v s⟩) = ((none, q) : Option SlotsExhausted × Progress)) :
        σ.Fits c ∧ q.buffer.code = b.code ++ insns σ (store v) ∧
          q.cycle = after σ c (store v) ∧
          q.buffer.nextLabel = b.nextLabel + [store v].count .newLabel := by
      cases h
      have hv : σ.slot v = s := hq v s (by simp)
      refine ⟨fun u r hu => ?_, by simp [insns, hc, hv], by simp [after, hv], hn⟩
      by_cases h : u = v
      · subst h
        rw [hv, hs r hu]
      · exact hq u r (by rw [Cycle.slot?_bind, if_neg h, hu])
    rcases take_store_cases b c v with ⟨r, hv, hs⟩ | ⟨hv, hs⟩ | ⟨-, e, hs⟩
    · exact hok (b.code_emit _) rfl (fun q hq => Option.some.inj (hq.symm.trans hv))
        (hs.symm.trans ht)
    · exact hok ((b.reserve v.type).code_emit _) rfl (fun q hq => by simp [hv] at hq)
        (hs.symm.trans ht)
    · cases ht.symm.trans hs

/-- A step that succeeds keeps the variables bound, and binds the one that it stores. -/
theorem scoped_take {p q : Progress} {s : Step} {ss : List Step} (ht : s.take p = (none, q))
    (hb : Scoped (fun v => (p.cycle.slot? v).isSome) (s :: ss)) :
    Scoped (fun v => (q.cycle.slot? v).isSome) ss := by
  obtain ⟨b, c⟩ := p
  cases s with
  | reset => exact hb.elim
  | emit i | newLabel | await l | settle | measured =>
    cases ht
    exact hb.mono fun v hv => by cases v <;> exact hv
  | load v =>
    obtain ⟨s, hs⟩ := Option.isSome_iff_exists.1 hb.1
    simp only [take, hs] at ht
    cases ht
    exact hb.2
  | store v =>
    rw [take] at ht
    split at ht
    · cases ht
      apply Scoped.mono (B := fun u => u = v ∨ (c.slot? u).isSome) hb
      intro u hu
      rw [Cycle.slot?_bind]
      split
      · rfl
      · next h => exact hu.resolve_left h
    · cases ht

theorem takeAll_eq {σ : Layout} {p q : Progress} {ss : List Step}
    (ht : takeAll p ss = (none, q))
    (hb : Scoped (fun v => (p.cycle.slot? v).isSome) ss) (hq : σ.Fits q.cycle) :
    σ.Fits p.cycle ∧ q.buffer.code = p.buffer.code ++ written σ ss ∧
      q.cycle = afterAll σ p.cycle ss ∧
      q.buffer.nextLabel = p.buffer.nextLabel + ss.count .newLabel := by
  induction ss generalizing p with
  | nil =>
    cases ht
    exact ⟨hq, by simp, rfl, rfl⟩
  | cons s ss ih =>
    rcases hs : s.take p with ⟨_ | e, p'⟩
    · rw [takeAll_cons_none hs] at ht
      have hreset : s ≠ reset := by
        rintro rfl
        exact hb
      have hload : ∀ v, s = load v → (p.cycle.slot? v).isSome := by
        rintro v rfl
        exact hb.1
      -- the layout fits the last cycle, so it fits the one after the first step
      obtain ⟨hp', hcode, hcycle, hlabel⟩ := ih ht (scoped_take hs hb)
      obtain ⟨hp, hcode', hcycle', hlabel'⟩ := take_eq hs hload hreset hp'
      refine ⟨hp, ?_, ?_, ?_⟩
      · rw [hcode, hcode', written_cons, List.append_assoc]
      · rw [hcycle, hcycle', afterAll_cons]
      · rw [hlabel, hlabel', Nat.add_assoc, ← List.count_append, List.singleton_append]
    · rw [takeAll_cons_some hs] at ht
      cases ht

end Step

end MethodProbes
