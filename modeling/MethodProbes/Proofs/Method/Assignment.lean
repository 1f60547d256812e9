import MethodProbes.Proofs.Cycles.EntryKnown
import MethodProbes.Proofs.Expansion.EarlyStores
import MethodProbes.Proofs.Expansion.Growth
import MethodProbes.Proofs.Machine.Assigned

/-!
# Definite assignment in methods

A variable is bound once a store of it stands in the code.  Jumps skip no first store, neither those
of a gate nor the one from a test to its else marker, unless a reset stands between these two.
-/
namespace MethodProbes

open Step

namespace Step

variable {σ : Layout} {ss : List Step}

/-- An instruction of a list of steps stands behind those of the steps before its own. -/
theorem exists_of_getElem?_written {k : Nat} {i : Insn} (h : (written σ ss)[k]? = some i) :
    ∃ a s b, ss = a ++ s :: b ∧ s.insns σ = [i] ∧ (written σ ss).take k = written σ a := by
  induction ss generalizing k with
  | nil => cases h
  | cons s ss ih =>
    rw [written_cons] at h
    rcases getElem?_append_cases h with ⟨hk, h, -⟩ | ⟨j, rfl, h, htake⟩
    · have hone : s.insns σ = [i] ∧ k = 0 := by
        cases s <;> simp_all [insns]
      obtain ⟨hs, rfl⟩ := hone
      exact ⟨[], s, ss, rfl, hs, rfl⟩
    · obtain ⟨a, s', b, rfl, hs, ha⟩ := ih h
      exact ⟨s :: a, s', b, rfl, hs, by rw [written_cons, htake, ha, written_cons]⟩

theorem Scoped.bound_or_store {B : Var → Prop} {a b : List Step} {v : Var}
    (h : Scoped B (a ++ load v :: b)) : B v ∨ store v ∈ a := by
  induction a generalizing B with
  | nil => exact .inl h.1
  | cons s a ih =>
    cases s with
    | reset => exact h.elim
    | load u => exact (ih h.2).imp_right (List.mem_cons_of_mem _)
    | store u =>
      rcases ih (B := fun w => w = u ∨ B w) h with (rfl | hb) | hs
      · exact .inr List.mem_cons_self
      · exact .inl hb
      · exact .inr (List.mem_cons_of_mem _ hs)
    | _ => exact (ih (B := B) h).imp_right (List.mem_cons_of_mem _)

theorem store_mem_written {v : Var} (h : store v ∈ ss) :
    .store v.type (σ.slot v) ∈ written σ ss :=
  List.mem_flatMap.2 ⟨_, h, List.mem_cons_self⟩

end Step

def Stored (before : List Insn) (c : Cycle) : Prop :=
  ∀ v r, c.slot? v = some r → .store v.type r ∈ before

namespace Context

variable {x : Context} {σ : Layout} {m : Marker} {before : List Insn}

theorem stored_of_bound (hs : Stored before x.cycle) (hσ : σ.Fits x.cycle) {v : Var}
    (hv : x.Bound v) : .store v.type (σ.slot v) ∈ before := by
  obtain ⟨r, hr⟩ := Option.isSome_iff_exists.1 hv
  rw [hσ v r hr]
  exact hs v r hr

theorem stored_steps (hs : Stored before x.cycle) (m : Marker) :
    Stored (before ++ written σ (x.steps m)) (afterAll σ x.cycle (x.steps m)) := by
  intro v r hr
  by_cases hm : m.kind = .reset
  · rw [steps, hm] at hr
    simp only [afterAll_cons, afterAll_nil, after, Cycle.slot?_reset] at hr
    split at hr
    next hv => exact List.mem_append_left _ (hv ▸ hs v r (hv ▸ hr))
    next => cases hr
  · rw [slot?_afterAll σ (x.scoped_steps hm).reset_notMem] at hr
    split at hr
    next hv =>
      cases hr
      exact List.mem_append_right _ (store_mem_written hv)
    next => exact List.mem_append_left _ (hs v r hr)

theorem stored_before_jump (hc : x.cycle.Coherent x.tracking) (hσ : σ.Fits x.cycle)
    (hs : Stored before x.cycle) {i : Nat} {c : Cond} {l : Label}
    (hi : (written σ (x.steps m))[i]? = some (.jump c l)) {ty : ValueType} {r : Slot}
    (hr : .store ty r ∈ written σ (x.steps m)) :
    .store ty r ∈ before ++ (written σ (x.steps m)).take i := by
  obtain ⟨v, hv, rfl, rfl⟩ := exists_store_of_mem_written (x.bare_steps m) hr
  obtain ⟨a, s, b, hsteps, hjump, htake⟩ := exists_of_getElem?_written hi
  rw [htake, List.mem_append]
  refine (storesEarly_steps hc.backed m v hv).imp (stored_of_bound hs hσ) fun hearly => ?_
  have hs : s.isFlow = true := by
    cases s <;> simp_all [insns, isFlow]
  rw [hsteps] at hearly
  exact store_mem_written (mem_of_mem_early hs hearly)

theorem assigned_steps (hc : x.cycle.Coherent x.tracking) (hσ : σ.Fits x.cycle)
    (hs : Stored before x.cycle) : Assigned before (written σ (x.steps m)) := by
  refine ⟨fun k ty r hk => ?_, fun i j c l hi _ ty r hr =>
    stored_before_jump hc hσ hs hi (List.mem_of_mem_take hr)⟩
  obtain ⟨a, s, b, hsteps, hload, htake⟩ := exists_of_getElem?_written hk
  rw [htake, List.mem_append]
  cases s with
  | load v =>
    cases hload
    have hm : m.kind ≠ .reset := fun hm => by
      have hmem : Step.load v ∈ x.steps m := hsteps ▸ List.mem_append_right _ List.mem_cons_self
      simp [steps, hm] at hmem
    have hscoped := x.scoped_steps hm
    rw [hsteps] at hscoped
    exact hscoped.bound_or_store.imp (stored_of_bound hs hσ) store_mem_written
  | emit i =>
    have hbare := x.bare_steps m i (hsteps ▸ List.mem_append_right _ List.mem_cons_self)
    obtain rfl := (List.cons.inj hload).1
    cases hbare
  | _ => cases hload

theorem entered_steps (he : x.cycle.Entered) (hm : m.kind ≠ .reset) :
    (afterAll σ x.cycle (x.steps m)).Entered := by
  have hbound (v : Var) (h : x.cycle.isBound v = true) :
      (afterAll σ x.cycle (x.steps m)).isBound v = true :=
    (isBound_afterAll σ (x.scoped_steps hm).reset_notMem _ _).2 (.inr h)
  exact he.imp (hbound _) (hbound _)

theorem slot?_of_entered (hc : x.cycle.Coherent x.tracking) (hσ : σ.Fits x.cycle)
    (he : x.cycle.Entered) (hm : m.kind ≠ .reset) {v : Var} {r : Slot}
    (hr : (afterAll σ x.cycle (x.steps m)).slot? v = some r) : x.cycle.slot? v = some r := by
  rw [slot?_afterAll σ (x.scoped_steps hm).reset_notMem] at hr
  split at hr
  next hv =>
    obtain ⟨q, hq⟩ := Option.isSome_iff_exists.1 (bound_of_entered hc he hv)
    rw [hq, ← hσ v q hq, hr]
  next => exact hr

end Context

namespace Route

variable {t : Tracking} {c : Cycle} {n : Nat} {ms : List Marker} {parts : List (List Insn)}
  {l : Label}

/-- The code of markers places labels that are taken on the way, and the one that is pending if
there is an else marker. -/
theorem label_mem (h : Route t c n ms parts) (hl : .label l ∈ parts.flatten) :
    n ≤ l.id ∨ c.pendingElse = some l ∧ ∃ m ∈ ms, m.kind = .elseBranch := by
  induction h with
  | nil => cases hl
  | @cons x σ m ms parts _ _ _ ih =>
    rw [List.flatten_cons, List.mem_append] at hl
    rcases hl with hl | hl
    · exact (x.label_mem_steps hl).imp (·.1) fun h => ⟨h.2, m, List.mem_cons_self, h.1⟩
    · rcases ih hl with hle | ⟨hpend, e, he, hels⟩
      · exact .inl (Nat.le_of_add_right_le hle)
      · rcases Context.pending_cases hpend with ⟨-, rfl⟩ | ⟨-, hpend⟩
        · exact .inl (Nat.le_succ _)
        · exact .inr ⟨hpend, e, List.mem_cons_of_mem _ he, hels⟩

/-- Up to the else marker of a test, markers store nothing but what is bound behind the test. -/
theorem bound_of_store (h : Route t c n ms parts) (hT : t.Sound) (hc : c.Coherent t)
    (he : c.Entered) (hp : c.pendingElse = some l) (hlt : l.id < n) (hfirst : ElseFirst ms)
    {j : Nat} (hj : parts.flatten[j]? = some (.label l)) {ty : ValueType} {r : Slot}
    (hr : .store ty r ∈ parts.flatten.take j) : ∃ v, ty = v.type ∧ c.slot? v = some r := by
  induction h generalizing j with
  | nil => cases hj
  | @cons x σ m ms parts htracking fits hroute ih =>
    subst htracking
    rw [List.flatten_cons] at hj hr
    rcases getElem?_append_cases hj with ⟨-, hj, htake⟩ | ⟨j, rfl, hj, htake⟩
    · -- the code of the else marker begins with the label
      rcases x.label_mem_steps (List.mem_of_getElem? hj) with ⟨hle, -⟩ | ⟨hm, -⟩
      · exact absurd hlt (Nat.not_lt.2 hle)
      · rw [x.steps_of_else hm, Context.written_else, hp] at hj
        obtain rfl : j = 0 := by
          rcases j with _ | _ | j
          · rfl
          all_goals cases hj
        cases hr
    · rcases hroute.label_mem (List.mem_of_getElem? hj) with hle | ⟨hpend, e, he', hels⟩
      · exact absurd (Nat.le_of_add_right_le hle) (Nat.not_le.2 hlt)
      rcases Context.pending_cases hpend with ⟨-, rfl⟩ | ⟨hm, -⟩
      · exact absurd hlt (Nat.not_lt.2 (Nat.le_succ _))
      have hreset : m.kind ≠ .reset := fun hreset =>
        hfirst.no_else_of_reset hreset e he' hels
      rw [htake, List.mem_append] at hr
      rcases hr with hr | hr
      · obtain ⟨v, hv, rfl, rfl⟩ := exists_store_of_mem_written (x.bare_steps m) hr
        obtain ⟨q, hq⟩ := Option.isSome_iff_exists.1 (Context.bound_of_entered hc he hv)
        exact ⟨v, rfl, by rw [fits v q hq, hq]⟩
      · obtain ⟨v, rfl, hv⟩ := ih (hc.steps hT m σ) (Context.entered_steps he hreset) hpend
          (Nat.lt_of_lt_of_le hlt (Nat.le_add_right _ _)) (hfirst.tail hm) hj hr
        exact ⟨v, rfl, Context.slot?_of_entered hc fits he hreset hv⟩

theorem assigned (h : Route t c n ms parts) (hT : t.Sound) (hc : c.Coherent t)
    (hp : ∀ l ∈ c.pendingElse, l.id < n) (he : ElseBeforeReset ms) {before : List Insn}
    (hs : Stored before c) : Assigned before parts.flatten := by
  have hforward := h.forward hp
  induction h generalizing before with
  | nil => exact .nil
  | @cons x σ m ms parts htracking fits hroute ih =>
    subst htracking
    have hpending := x.pendingElse_lt (σ := σ) m hp
    have hcoherent := hc.steps hT m σ
    rw [List.flatten_cons] at hforward ⊢
    refine .append (Context.assigned_steps hc fits hs)
      (ih hcoherent hpending he.tail (x.stored_steps hs m) (hroute.forward hpending)) hforward ?_
    -- a jump to the code of later markers is a sample branch, whose else marker comes first
    intro i j k l hi hj ty r hr
    have hjump := List.mem_of_getElem? hi
    have hpend := (hroute.label_mem (List.mem_of_getElem? hj)).resolve_left
      (Nat.not_le.2 (x.lt_of_names_steps hp hjump (.inr rfl)))
    rcases Context.pending_cases hpend.1 with ⟨⟨hm, -, hbound⟩, -⟩ | ⟨-, hold⟩
    · have hentered : x.cycle.Entered := .inr hbound
      have hreset : m.kind ≠ .reset := by simp [hm]
      rcases List.mem_append.1 hr with hr | hr
      · exact Context.stored_before_jump hc fits hs hi hr
      · obtain ⟨v, rfl, hv⟩ := hroute.bound_of_store hT hcoherent
          (Context.entered_steps hentered hreset) hpend.1 (hpending l hpend.1) (he.elseFirst hm)
          hj hr
        exact List.mem_append_left _ (hs v r (Context.slot?_of_entered hc fits hentered hreset hv))
    · exact absurd (x.le_target_steps hjump rfl) (Nat.not_le.2 (hp l hold))

end Route

namespace Body

variable {b : Body} {settings : Settings} {firstSlot : UInt16} {M : ProbedMethod}

/-- If no reset stands between a test and the first else marker behind it, every load on every path
through the code of a method reads a slot that an earlier store on the path has written. -/
theorem exists_store_before_load (h : (b.attempt settings firstSlot).result = .ok M)
    (he : ElseBeforeReset b.markers) {k : Nat} {is : List Nat} (path : Path M.code.toList (k :: is))
    {ty : ValueType} {r : Slot} (hk : M.code.toList[k]? = some (.load ty r)) :
    ∃ j ∈ is, M.code.toList[j]? = some (.store ty r) := by
  obtain ⟨hT, parts, hroute, hahead, -⟩ := exists_route h
  have hcode : M.code.toList = parts.flatten := hahead.code
  have hstored : Stored [] .initial := fun v r hr => by simp at hr
  have hassigned := hroute.assigned hT (Cycle.coherent_initial _) nofun he hstored
  rw [hcode] at path hk ⊢
  exact hassigned.exists_store path hk

/-- A path on which the gate skips the entry, and the test goes to its else marker nevertheless. -/
theorem exists_store_before_load_skipped :
    let entry := (Marker.ofKind .entry).withFlag "timed" |>.withSampler (some .adaptive)
    let b : Body := ⟨"m", 7, [entry.withTag "level" "[1,3]", (Marker.ofKind .test).withFlag "timed",
      .ofKind .elseBranch, .ofKind .exit]⟩
    let is := [46, 45, 37, 36, 35, 34, 32, 31, 30, 29, 28, 27, 26, 25, 24, 9, 8, 7, 6, 5, 4, 3, 2,
      1, 0]
    ∃ M, (b.attempt {} 0).result = .ok M ∧ Path M.code.toList (47 :: is) ∧
      M.code.toList[47]? = some (.load .int ⟨4⟩) ∧
        ∃ j ∈ is, M.code.toList[j]? = some (.store .int ⟨4⟩) := by
  intro entry b is
  have hcheck : ((b.attempt {} 0).result.toOption.any fun M => decide
      (Path M.code.toList (47 :: is) ∧ M.code.toList[47]? = some (.load .int ⟨4⟩))) = true := by
    decide
  cases hM : (b.attempt {} 0).result with
  | error e =>
    rw [hM] at hcheck
    cases hcheck
  | ok M =>
    rw [hM] at hcheck
    obtain ⟨path, hload⟩ := of_decide_eq_true hcheck
    have he : ElseBeforeReset b.markers := by decide
    exact ⟨M, rfl, path, hload, exists_store_before_load hM he path hload⟩

end Body

end MethodProbes
