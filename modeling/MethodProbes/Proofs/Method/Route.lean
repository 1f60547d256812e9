import MethodProbes.Proofs.Expansion.MarkerCode
import MethodProbes.Proofs.Expansion.Pending
import MethodProbes.Proofs.Method.Site
import MethodProbes.Proofs.Tracking.EntryCall

/-!
# The code of a method, marker by marker

An attempt that succeeds has written the code of every marker, each in the state that the markers
before it have left.  Every label is placed behind the jumps to it.
-/
namespace MethodProbes

open Step

/-- The code that markers become, behind markers that have left a cycle and the number of the next
label. -/
inductive Route (t : Tracking) : Cycle → Nat → List Marker → List (List Insn) → Prop
  | nil (c : Cycle) (n : Nat) : Route t c n [] []
  | cons {x : Context} {σ : Layout} {m : Marker} {ms : List Marker} {parts : List (List Insn)}
      (tracking : x.tracking = t) (fits : σ.Fits x.cycle)
      (rest : Route t (afterAll σ x.cycle (x.steps m))
        (x.nextLabel + (x.steps m).count .newLabel) ms parts) :
      Route t x.cycle x.nextLabel (m :: ms) (written σ (x.steps m) :: parts)

namespace Context

variable (x : Context) {σ : Layout} {m : Marker} {l : Label}

theorem steps_of_else (hm : m.kind = .elseBranch) : x.steps m = x.elseSteps := by
  rw [steps, hm]

theorem le_target_steps {i : Insn} (hi : i ∈ written σ (x.steps m)) (hl : i.target? = some l) :
    x.nextLabel ≤ l.id := by
  by_cases hm : m.kind = .elseBranch
  · rw [x.steps_of_else hm, written_else] at hi
    cases hp : x.cycle.pendingElse with
    | none =>
      rw [hp] at hi
      cases hi
    | some k =>
      rw [hp] at hi
      revert hl
      rcases List.mem_cons.1 hi with rfl | hi
      · nofun
      · rw [List.mem_singleton.1 hi]
        nofun
  · exact ((x.freshSteps m hm).names i hi l (.inr hl)).1

/-- A marker's code places labels of its own, but that an else marker places the pending one. -/
theorem label_mem_steps (hl : .label l ∈ written σ (x.steps m)) :
    x.nextLabel ≤ l.id ∧ l.id < x.nextLabel + (x.steps m).count .newLabel ∨
      m.kind = .elseBranch ∧ x.cycle.pendingElse = some l := by
  by_cases hm : m.kind = .elseBranch
  · rw [x.steps_of_else hm, written_else] at hl
    cases hp : x.cycle.pendingElse with
    | none =>
      rw [hp] at hl
      cases hl
    | some k =>
      rw [hp] at hl
      obtain rfl : l = k := by simpa using hl
      exact .inr ⟨hm, rfl⟩
  · exact .inl ((x.freshSteps m hm).names _ hl l (.inl rfl))

theorem lt_of_names_steps (hp : ∀ l ∈ x.cycle.pendingElse, l.id < x.nextLabel) {i : Insn}
    (hi : i ∈ written σ (x.steps m)) (hl : i.Names l) :
    l.id < x.nextLabel + (x.steps m).count .newLabel := by
  by_cases hm : m.kind = .elseBranch
  · obtain rfl : i = .label l := hl.resolve_right fun ht => by
      rw [x.steps_of_else hm, written_else] at hi
      cases hk : x.cycle.pendingElse with
      | none =>
        rw [hk] at hi
        cases hi
      | some k =>
        rw [hk] at hi
        revert ht
        rcases List.mem_cons.1 hi with rfl | hi
        · nofun
        · rw [List.mem_singleton.1 hi]
          nofun
    rcases x.label_mem_steps hi with ⟨-, hlt⟩ | ⟨-, hpend⟩
    · exact hlt
    · exact Nat.lt_of_lt_of_le (hp l hpend) (Nat.le_add_right _ _)
  · exact ((x.freshSteps m hm).names i hi l hl).2

theorem forward_steps : Forward (written σ (x.steps m)) := by
  by_cases hm : m.kind = .elseBranch
  · rw [x.steps_of_else hm, written_else]
    cases x.cycle.pendingElse with
    | none => exact .nil
    | some k => exact .of_no_jump (by simp [Insn.target?])
  · exact (x.freshSteps m hm).forward

end Context

namespace Route

variable {t : Tracking} {c : Cycle} {n : Nat} {ms : List Marker} {parts : List (List Insn)}

theorem le_target (h : Route t c n ms parts) {i : Insn} (hi : i ∈ parts.flatten) {l : Label}
    (hl : i.target? = some l) : n ≤ l.id := by
  induction h with
  | nil => cases hi
  | @cons x σ m ms parts _ _ _ ih =>
    rw [List.flatten_cons, List.mem_append] at hi
    rcases hi with hi | hi
    · exact x.le_target_steps hi hl
    · have hle := ih hi
      omega

theorem forward (h : Route t c n ms parts) (hp : ∀ l ∈ c.pendingElse, l.id < n) :
    Forward parts.flatten := by
  induction h with
  | nil => exact .nil
  | @cons x σ m ms parts _ _ hrest ih =>
    rw [List.flatten_cons]
    apply x.forward_steps.append (ih (x.pendingElse_lt m hp))
    intro l hl i hi ht
    have hle := hrest.le_target hi ht
    rcases x.label_mem_steps hl with ⟨-, hlt⟩ | ⟨-, hpend⟩
    · omega
    · have hlt := hp l hpend
      omega

theorem length_spansOf (h : Route t c n ms parts) (j : Nat) :
    (spansOf j ms parts).length = ms.length := by
  induction h generalizing j with
  | nil => rfl
  | cons _ _ _ ih => exact congrArg (· + 1) (ih _)

end Route

namespace Expander

variable {x y : Expander} {ms : List Marker}

theorem recordAll_cons {m : Marker} (h : x.recordAll (m :: ms) = .ok y) :
    ∃ z, x.record m = .ok z ∧ z.recordAll ms = .ok y := by
  rw [recordAll, List.foldlM_cons] at h
  cases hz : x.record m with
  | error e =>
    rw [hz] at h
    cases h
  | ok z =>
    rw [hz] at h
    exact ⟨z, rfl, h⟩

/-- Declarations change the tracking only, and leave it sound. -/
theorem recordAll_eq (hx : x.tracking.Sound) (h : x.recordAll ms = .ok y) :
    y.tracking.Sound ∧ y.cycle = x.cycle := by
  induction ms generalizing x with
  | nil =>
    cases h
    exact ⟨hx, rfl⟩
  | cons m ms ih =>
    obtain ⟨z, hz, h⟩ := recordAll_cons h
    rw [record] at hz
    cases hr : x.tracking.record m x.settings.defaultMean with
    | error e =>
      rw [hr] at hz
      cases hz
    | ok t =>
      rw [hr] at hz
      cases hz
      have hsound : t.Sound := Tracking.sound_record hx hr
      exact ih (x := { x with tracking := t }) hsound h

theorem exists_route {b : Buffer} {n : Nat} (hp : Placed b x.cycle)
    (h : (x.expandAll b n ms).error = none) (hn : b.code.length = n) :
    ∃ parts, Route x.tracking x.cycle b.nextLabel ms parts ∧
      (x.expandAll b n ms).buffer.code = b.code ++ parts.flatten ∧
      (x.expandAll b n ms).spans = spansOf n ms parts := by
  induction ms generalizing x b n with
  | nil => exact ⟨[], .nil _ _, by simp [expandAll], rfl⟩
  | cons m ms ih =>
    rcases he : x.expand m b with ⟨y, b', r, _ | e⟩
    · obtain ⟨id, σ, hw⟩ := exists_writes hp he
      rw [expandAll, he] at h ⊢
      have hsize : b'.insns.size = b'.code.length := by simp [Buffer.code]
      have hlength : b'.code.length =
          n + (written σ ((x.context id b.nextLabel).steps m)).length := by
        rw [hw.code, List.length_append, hn]
      have hrest := ih hw.placed h hsize.symm
      obtain ⟨parts, hroute, hcode, hspans⟩ := hrest
      rw [hw.expander, hw.nextLabel] at hroute
      refine ⟨_ :: parts, .cons (x := x.context id b.nextLabel) rfl hw.fits hroute, ?_, ?_⟩
      · rw [List.flatten_cons, ← List.append_assoc, ← hw.code]
        exact hcode
      · dsimp only
        rw [hspans, hsize, hlength]
        rfl
    · rw [expandAll, he] at h
      cases h

end Expander

theorem Body.exists_route {b : Body} {settings : Settings} {firstSlot : UInt16} {M : ProbedMethod}
    (h : (b.attempt settings firstSlot).result = .ok M) :
    M.tracking.Sound ∧ ∃ parts, Route M.tracking .initial 0 b.markers parts ∧
      M.Ahead 0 0 0 b.markers parts ∧ Forward M.code.toList := by
  rw [attempt] at h
  cases hx : (Expander.new b.methodId settings).recordAll b.markers with
  | error e =>
    rw [hx] at h
    cases h
  | ok x =>
    rw [hx] at h
    dsimp only at h
    obtain ⟨hsound, hcycle⟩ := Expander.recordAll_eq Tracking.sound_initial hx
    have hcycle : x.cycle = .initial := hcycle
    cases he : (x.expandAll (.empty firstSlot) 0 b.markers).error with
    | some e =>
      rw [he] at h
      cases h
    | none =>
      rw [he] at h
      cases h
      have hplaced : Placed (.empty firstSlot) x.cycle := hcycle ▸ .initial _
      obtain ⟨parts, hroute, hcode, hspans⟩ := Expander.exists_route hplaced he rfl
      rw [hcycle] at hroute
      have hcode : (x.expandAll (.empty firstSlot) 0 b.markers).buffer.insns.toList =
          parts.flatten := hcode
      exact ⟨hsound, parts, hroute, .start hspans hcode, hcode ▸ hroute.forward nofun⟩

end MethodProbes
