import MethodProbes.Proofs.Expansion.Written

/-!
# The code of a marker

The steps of a marker load only variables that are bound by then.  So an expansion that succeeds
writes the code of the marker's steps, under a layout that fits the slots bound before and after.
-/
namespace MethodProbes

open Step

namespace Gate

theorem scoped_pushLevel {B : Var → Prop} {bound : Bool} (field : String)
    (hB : bound = true → B .level) : Scoped B (pushLevel field bound) := by
  cases bound with
  | true => exact ⟨hB rfl, trivial⟩
  | false => trivial

theorem scoped_compare (B : Var → Prop) (n : Int32) (c d : Cond) (l : Label) :
    Scoped B (compare n c d l) := by
  rw [compare]
  split <;> trivial

theorem scoped_checkSteps {B : Var → Prop} {bound : Bool} (field : String) (skip next : Label)
    (hB : bound = true → B .level) (cs : List Check) :
    Scoped B (checkSteps field skip next bound cs) := by
  induction cs generalizing B bound with
  | nil => trivial
  | cons k cs ih =>
    -- behind a comparison the level is bound
    have hlevel {n : Int32} {c d : Cond} {l : Label} :
        Scoped B (pushLevel field bound ++ compare n c d l ++
          checkSteps field skip next true cs) := by
      refine scoped_append (scoped_append (scoped_pushLevel field hB) (scoped_compare _ n c d l))
        (ih fun _ => ?_)
      cases bound with
      | true => exact .inr (hB rfl)
      | false => exact .inl (by simp [pushLevel])
    cases k with
    | nextIfBelow n => exact hlevel
    | skipIfAtMost n => exact hlevel
    | skip => exact ih hB

theorem store_mem_checkSteps {field : String} {skip next : Label} {r : SkipRange}
    (h : r.comparesLevel = true) : .store .level ∈ checkSteps field skip next false r.checks := by
  obtain ⟨_ | lo, _ | hi⟩ := r <;> simp_all [SkipRange.comparesLevel, SkipRange.checks, checkSteps,
    pushLevel]

theorem scoped_rangeSteps {B : Var → Prop} {bound : Bool} (field : String) (skip : Label)
    (n : Nat) (hB : bound = true → B .level) (rs : List SkipRange) :
    Scoped B (rangeSteps field skip bound n rs) := by
  induction rs generalizing B bound n with
  | nil => trivial
  | cons r rs ih =>
    have hchecks := scoped_checkSteps field skip ⟨n⟩ hB r.checks
    refine scoped_append (scoped_append (a := .newLabel :: _) hchecks trivial)
      (ih (n + 1) fun h => ?_)
    cases bound with
    | true => exact .inr (hB rfl)
    | false =>
      have hstore : .store .level ∈ checkSteps field skip ⟨n⟩ false r.checks :=
        store_mem_checkSteps (by simpa using h)
      exact .inl (by simp [hstore])

end Gate

namespace Context
variable {B : Var → Prop} (x : Context)

/-- The variables that are bound before a marker. -/
def Bound (v : Var) : Prop := (x.cycle.slot? v).isSome

theorem scoped_define (B : Var → Prop) (v : Var) : Scoped B (x.define v) := by
  rw [define]
  split <;> trivial

theorem scoped_defineAll (B : Var → Prop) (vs : List Var) : Scoped B (vs.flatMap x.define) := by
  induction vs generalizing B with
  | nil => trivial
  | cons v vs ih => exact scoped_append (x.scoped_define B v) (ih _)

theorem guard_openGate (h : x.tracking.gate = .openGate) (vs : List Var) (given : Option Label)
    (n : Nat) : x.guard vs given n = ([], none) := by
  simp only [guard, h]

/-- The label that a gate skips to. -/
def skipLabel (given : Option Label) (n : Nat) : Label := given.getD ⟨n⟩

def firstRange (given : Option Label) (n : Nat) : Nat := given.elim (n + 1) fun _ => n

theorem guard_skipping {rs : List SkipRange} (h : x.tracking.gate = .skipping rs) (vs : List Var)
    (given : Option Label) (n : Nat) :
    x.guard vs given n =
      (vs.flatMap x.define ++ given.elim [.newLabel] (fun _ => []) ++
        Gate.rangeSteps x.levelField (skipLabel given n) (x.cycle.isBound .level)
          (firstRange given n) rs, some (skipLabel given n)) := by
  cases given <;> simp [guard, h, skipLabel, firstRange]

theorem scoped_guard (vs : List Var) (given : Option Label) (n : Nat)
    (hB : ∀ v, x.Bound v → B v) : Scoped B (x.guard vs given n).1 := by
  cases h : x.tracking.gate with
  | openGate =>
    rw [x.guard_openGate h]
    trivial
  | skipping rs =>
    rw [x.guard_skipping h]
    refine scoped_append (scoped_append (x.scoped_defineAll B vs) ?_)
      (Gate.scoped_rangeSteps _ _ _ (fun h => .inr (hB .level h)) rs)
    cases given <;> trivial

theorem scoped_gated (vs : List Var) {code : List Step} (hcode : ∀ B, Scoped B code)
    (hB : ∀ v, x.Bound v → B v) : Scoped B (x.gated vs code) := by
  have hguard := x.scoped_guard vs none x.nextLabel hB
  unfold gated
  generalize x.guard vs none x.nextLabel = g at hguard
  apply scoped_append (scoped_append hguard (hcode _))
  cases g.2 <;> trivial

theorem scoped_entrySteps : Scoped x.Bound x.entrySteps := by
  have hdur : Scoped x.Bound (x.define .duration) := x.scoped_define _ _
  rw [entrySteps]
  split
  next call _ _ =>
    apply scoped_append hdur
    split
    · trivial
    · exact x.scoped_gated _ (fun _ => trivial) fun _ => .inr
  next =>
    split
    · trivial
    · exact x.scoped_gated _ (fun _ => trivial) fun _ => id
  next =>
    split
    · trivial
    · exact scoped_append hdur (x.scoped_gated _ (fun _ => trivial) fun _ => .inr)
  next => trivial

theorem scoped_measure {now : List Step} (hnow : ∀ B, Scoped B now) (hB : ∀ v, x.Bound v → B v) :
    Scoped B (x.measure now) := by
  rw [measure]
  split
  next h => exact scoped_append (scoped_append (hnow _) ⟨.inr (hB .entryTs h), trivial⟩) trivial
  next => trivial

theorem scoped_branch (done : Label) : Scoped x.Bound (x.branch done) := by
  rw [branch]
  split
  next h =>
    refine scoped_append (x.scoped_guard [] _ _ fun _ => id) ⟨.inr h, trivial⟩
  next => trivial

theorem scoped_clockMeasure (done : Label) : Scoped x.Bound (x.clockMeasure done) := by
  refine scoped_append (scoped_append (x.scoped_define _ _) ?_) ?_
  · exact x.scoped_guard [] _ _ fun _ => .inr
  · exact x.scoped_measure (fun _ => trivial) fun _ => .inr

theorem scoped_testSteps (timedTag : Bool) : Scoped x.Bound (x.testSteps timedTag) := by
  have hmerge (B : Var → Prop) (l : Label) : Scoped B (Step.merge l) := trivial
  rw [testSteps]
  dsimp only
  split
  · refine scoped_append (scoped_append (a := .newLabel :: _) (x.scoped_branch _) ?_) (hmerge _ _)
    split
    · split
      · trivial
      · exact x.scoped_measure (fun _ => trivial) fun _ => .inr
    · trivial
  · split
    · refine scoped_append (a := .newLabel :: _) ?_ (hmerge _ _)
      split
      · trivial
      · exact x.scoped_clockMeasure _
    · trivial

theorem scoped_steps {m : Marker} (hm : m.kind ≠ .reset) : Scoped x.Bound (x.steps m) := by
  rw [steps]
  cases h : m.kind with
  | entry => exact x.scoped_entrySteps
  | test => exact x.scoped_testSteps _
  | elseBranch =>
    dsimp only [elseSteps]
    split <;> trivial
  | duration =>
    dsimp only [durationSteps]
    split
    next h => exact ⟨(Bool.and_eq_true _ _ ▸ h).2, trivial⟩
    next => trivial
  | exit =>
    dsimp only [exitSteps]
    split
    next h => exact ⟨h.2, trivial⟩
    next => trivial
  | reset => exact absurd h hm

end Context

namespace Expander

/-- What a successful expansion writes and leaves. -/
structure Writes (x : Expander) (m : Marker) (b : Buffer) (id : Nat) (σ : Layout) (y : Expander)
    (b' : Buffer) : Prop where
  id_eq : x.effectiveId m = .ok id
  fits : σ.Fits x.cycle
  expander : y = { x with cycle := afterAll σ x.cycle ((x.context id b.nextLabel).steps m) }
  code : b'.code = b.code ++ written σ ((x.context id b.nextLabel).steps m)
  nextLabel : b'.nextLabel =
    b.nextLabel + ((x.context id b.nextLabel).steps m).count .newLabel
  placed : Placed b' y.cycle

theorem exists_writes {x y : Expander} {m : Marker} {b b' : Buffer} {r : Option Registration}
    (hp : Placed b x.cycle) (h : x.expand m b = ⟨y, b', r, none⟩) :
    ∃ id σ, x.Writes m b id σ y b' := by
  rw [expand] at h
  cases hid : x.effectiveId m with
  | error e =>
    rw [hid] at h
    cases h
  | ok id =>
    rw [hid] at h
    dsimp only at h
    rcases ht : takeAll ⟨b, x.cycle⟩ ((x.context id b.nextLabel).steps m) with ⟨_ | e, q⟩
    · rw [ht] at h
      cases h
      have hq : Placed q.buffer q.cycle := hp.takeAll ht
      by_cases hm : m.kind = .reset
      · obtain ⟨σ, hσ⟩ := hp.exists_layout
        have hsteps : (x.context id b.nextLabel).steps m = [.reset] := by rw [Context.steps, hm]
        rw [hsteps] at ht
        cases ht
        exact ⟨id, σ, hid, hσ, by rw [hsteps]; rfl, by rw [hsteps]; simp [insns],
          by rw [hsteps]; rfl, hq⟩
      · obtain ⟨σ, hσ⟩ := hq.exists_layout
        obtain ⟨hfits, hcode, hcycle, hlabel⟩ :=
          takeAll_eq ht ((x.context id b.nextLabel).scoped_steps hm) hσ
        exact ⟨id, σ, hid, hfits, by rw [hcycle], hcode, hlabel, hq⟩
    · rw [ht] at h
      cases h

end Expander

end MethodProbes
