import MethodProbes.Proofs.Cycles.SlotBudget
import MethodProbes.Proofs.Expansion.Growth
import MethodProbes.Proofs.Expansion.Renaming

/-!
# Methods with another first slot

A method that may use the slots from a higher index on has the same code with all its slots moved up.  It has
its code if and only if the slots still fit.
-/
namespace MethodProbes

open Step

def Renaming.slotsUp (k : Nat) : Renaming := ⟨(· + k), id⟩

def Buffer.shift (k : Nat) (b : Buffer) : Buffer where
  insns := b.insns.map (Insn.rename (.slotsUp k))
  nextSlot := b.nextSlot + k
  slots := b.slots.map fun e => (e.1.rename (· + k), e.2)
  nextLabel := b.nextLabel
  placed := b.placed

def Progress.shift (k : Nat) (p : Progress) : Progress :=
  ⟨p.buffer.shift k, p.cycle.rename (.slotsUp k)⟩

def ProbedMethod.shift (k : Nat) (M : ProbedMethod) : ProbedMethod :=
  { M with code := M.code.map (Insn.rename (.slotsUp k)) }

/-- The index belongs to a slot that the code loads or stores. -/
def ProbedMethod.Occupies (M : ProbedMethod) (j : Nat) : Prop :=
  ∃ i ∈ M.code, ∃ s ty, i.slot? = some (s, ty) ∧ s.Covers ty j

variable {k : Nat}

namespace Buffer

theorem shift_emit (b : Buffer) (i : Insn) :
    (b.emit i).shift k = (b.shift k).emit (i.rename (.slotsUp k)) := by
  cases i <;> simp [emit, shift, Insn.rename, Label.rename, Renaming.slotsUp]

theorem shift_reserve (b : Buffer) (ty : ValueType) :
    (b.reserve ty).shift k = (b.shift k).reserve ty := by
  simp [reserve, shift, Slot.rename, Nat.add_right_comm]

theorem shift_empty (k : UInt16) : (empty 0).shift k.toNat = empty k := by
  simp [empty, shift]

end Buffer

theorem Insn.exists_slot?_of_rename {i : Insn} {s : Slot} {ty : ValueType}
    (h : (i.rename (.slotsUp k)).slot? = some (s, ty)) :
    ∃ r, i.slot? = some (r, ty) ∧ s.index = r.index + k := by
  cases i <;> cases h
  all_goals exact ⟨_, rfl, rfl⟩

/-- Slots that were moved up by `k` cover no index below `k`. -/
theorem ProbedMethod.Occupies.le {N : ProbedMethod} {j : Nat} (h : (N.shift k).Occupies j) : k ≤ j := by
  obtain ⟨i, hi, s, ty, hslot, hcovers⟩ := h
  obtain ⟨i, -, rfl⟩ := Array.mem_map.1 hi
  obtain ⟨r, -, hs⟩ := Insn.exists_slot?_of_rename hslot
  have hle := hcovers.1
  omega

namespace Step

/-- A step does the same with all slots moved up, or lacks room for what it needs. -/
theorem take_shift (k : Nat) (p : Progress) (s : Step) :
    (∃ q, s.take p = (none, q) ∧ (s.rename (.slotsUp k)).take (p.shift k) = (none, q.shift k)) ∨
      ((s.rename (.slotsUp k)).take (p.shift k)).1 ≠ none ∧
        ∀ q, s.take p = (none, q) → slotSpace < q.buffer.nextSlot + k := by
  obtain ⟨b, c⟩ := p
  cases s with
  | emit i => exact .inl ⟨_, rfl, by simp [take, rename, Progress.shift, Buffer.shift_emit]⟩
  | newLabel | reset | settle | measured => exact .inl ⟨_, rfl, rfl⟩
  | await l => exact .inl ⟨_, rfl, rfl⟩
  | load v =>
    simp only [take, rename, Progress.shift, Cycle.slot?_rename]
    cases c.slot? v with
    | none => exact .inl ⟨_, rfl, rfl⟩
    | some r => exact .inl ⟨_, rfl, by simp [Buffer.shift_emit, Insn.rename]⟩
  | store v =>
    simp only [take, rename, Progress.shift, Cycle.slot?_rename]
    cases c.slot? v with
    | some r =>
      refine .inl ⟨_, rfl, ?_⟩
      simp [Buffer.storeInto, Buffer.shift_emit, Insn.rename]
    | none =>
      have hnext : (b.shift k).nextSlot = b.nextSlot + k := rfl
      rw [Option.map_none, Buffer.storeInto, Buffer.storeInto]
      rcases Nat.lt_or_ge slotSpace (b.nextSlot + k + v.type.width) with hlt | hle
      · refine .inr ⟨?_, fun q hq => ?_⟩
        · rw [Buffer.storeNew_of_lt (b := b.shift k) hlt]
          simp
        · rcases Nat.lt_or_ge slotSpace (b.nextSlot + v.type.width) with hlt' | hle
          · rw [Buffer.storeNew_of_lt hlt'] at hq
            cases hq
          · rw [Buffer.storeNew_of_le hle] at hq
            cases hq
            rwa [Nat.add_right_comm] at hlt
      · rw [Buffer.storeNew_of_le (b := b.shift k) hle, Buffer.storeNew_of_le (by omega)]
        refine .inl ⟨_, rfl, ?_⟩
        simp [Buffer.shift_emit, Buffer.shift_reserve, Insn.rename, Slot.rename, Renaming.slotsUp, hnext]

theorem takeAll_shift (k : Nat) (p : Progress) (ss : List Step) :
    (∃ q, takeAll p ss = (none, q) ∧
        takeAll (p.shift k) (ss.map (rename (.slotsUp k))) = (none, q.shift k)) ∨
      (takeAll (p.shift k) (ss.map (rename (.slotsUp k)))).1 ≠ none ∧
        ∀ q, takeAll p ss = (none, q) → slotSpace < q.buffer.nextSlot + k := by
  induction ss generalizing p with
  | nil => exact .inl ⟨p, rfl, rfl⟩
  | cons s ss ih =>
    rw [List.map_cons]
    rcases take_shift k p s with ⟨o, hs, hs'⟩ | ⟨hs', hroom⟩
    · rw [takeAll_cons_none hs, takeAll_cons_none hs']
      exact ih o
    · obtain ⟨e, q', he⟩ : ∃ e q', (s.rename (.slotsUp k)).take (p.shift k) = (some e, q') := by
        rcases he : (s.rename (.slotsUp k)).take (p.shift k) with ⟨_ | e, q'⟩
        · exact absurd (congrArg Prod.fst he) hs'
        · exact ⟨e, q', rfl⟩
      refine .inr ⟨by simp [takeAll_cons_some he], fun q hq => ?_⟩
      rcases hs : s.take p with ⟨_ | f, o⟩
      · rw [takeAll_cons_none hs] at hq
        have hle := ((Buffer.keeps_extends o.buffer).takeAll (.refl _) hq).nextSlot
        have hlt := hroom o hs
        omega
      · rw [takeAll_cons_some hs] at hq
        cases hq

end Step

namespace Expander

/-- A marker is expanded the same way with all slots moved up, or there is no room for its slots. -/
theorem expand_shift (k : Nat) (x : Expander) (m : Marker) (b : Buffer) :
    ((x.expand m b).error = none ∧ (x.rename (.slotsUp k)).expand m (b.shift k) =
        ⟨(x.expand m b).expander.rename (.slotsUp k), (x.expand m b).buffer.shift k,
          (x.expand m b).registration, none⟩) ∨
      ((x.rename (.slotsUp k)).expand m (b.shift k)).error ≠ none ∧
        ((x.expand m b).error = none → slotSpace < (x.expand m b).buffer.nextSlot + k) := by
  have hlabel : Shifts (Renaming.slotsUp k).label b.nextLabel b.nextLabel := fun _ => rfl
  have heffective : (x.rename (.slotsUp k)).effectiveId m = x.effectiveId m := rfl
  rcases (x.rename (.slotsUp k)).expand_cases m (b.shift k) with
    ⟨e, hid, he⟩ | ⟨id, e, q', hid, hq', he⟩ <;>
    rcases x.expand_cases m b with ⟨f, hid', hf⟩ | ⟨id', f, q, hid', hq, hf⟩ <;>
    cases hid.symm.trans (heffective.trans hid') <;> rw [he, hf]
  · exact .inr ⟨by simp, by simp⟩
  · have hsteps : ((x.rename (.slotsUp k)).context id (b.shift k).nextLabel).steps m =
        ((x.context id b.nextLabel).steps m).map (Step.rename (.slotsUp k)) :=
      Context.steps_rename (x := x.context id b.nextLabel) hlabel m
    rw [hsteps] at hq'
    rcases takeAll_shift k ⟨b, x.cycle⟩ ((x.context id b.nextLabel).steps m) with
      ⟨o, ho, ho'⟩ | ⟨hno, hroom⟩
    · cases hq.symm.trans ho
      cases hq'.symm.trans ho'
      exact .inl ⟨rfl, rfl⟩
    · have hno : e ≠ none := fun hnone => hno ((congrArg Prod.fst hq').trans hnone)
      refine .inr ⟨by simpa using hno, fun hnone => ?_⟩
      cases Option.map_eq_none_iff.1 hnone
      exact hroom q hq

theorem expandAll_shift (k : Nat) (x : Expander) (b : Buffer) (n : Nat) (ms : List Marker) :
    ((x.expandAll b n ms).error = none ∧ (x.rename (.slotsUp k)).expandAll (b.shift k) n ms =
        { x.expandAll b n ms with buffer := (x.expandAll b n ms).buffer.shift k }) ∨
      ((x.rename (.slotsUp k)).expandAll (b.shift k) n ms).error ≠ none ∧
        ((x.expandAll b n ms).error = none →
          slotSpace < (x.expandAll b n ms).buffer.nextSlot + k) := by
  induction ms generalizing x b n with
  | nil => exact .inl ⟨rfl, rfl⟩
  | cons m ms ih =>
    rw [expandAll, expandAll]
    rcases x.expand_shift k m b with ⟨hnone, hshift⟩ | ⟨hno, hroom⟩
    · rw [hshift]
      rcases he : x.expand m b with ⟨y, c, r, _ | e⟩
      · have hsize : (c.shift k).insns.size = c.insns.size := Array.size_map
        dsimp only
        rw [hsize]
        rcases ih y c c.insns.size with ⟨hrest, hrest'⟩ | hrest
        · exact .inl ⟨hrest, by rw [hrest']⟩
        · exact .inr hrest
      · rw [he] at hnone
        cases hnone
    · rcases he' : (x.rename (.slotsUp k)).expand m (b.shift k) with ⟨y', c', r', _ | e'⟩
      · rw [he'] at hno
        exact absurd rfl hno
      · refine .inr ⟨by simp, ?_⟩
        rcases he : x.expand m b with ⟨y, c, r, _ | e⟩
        · rw [he] at hroom
          intro hnone
          have hle := ((Buffer.keeps_extends c).expandAll y (.refl c) c.insns.size ms).nextSlot
          have hlt := hroom rfl
          dsimp only at hlt ⊢
          omega
        · intro hnone
          cases hnone

theorem exists_operations (x : Expander) (b : Buffer) (n : Nat) (ms : List Marker) :
    ∃ ops, (x.expandAll b n ms).buffer = b.performAll ops := by
  induction ms generalizing x b n with
  | nil => exact ⟨[], rfl⟩
  | cons m ms ih =>
    have hfirst : ∃ ops, (x.expand m b).buffer = b.performAll ops := by
      rcases x.expand_cases m b with ⟨e, -, he⟩ | ⟨id, e, q, -, hq, he⟩ <;> rw [he]
      · exact ⟨[], rfl⟩
      · exact exists_operations_takeAll hq
    obtain ⟨ops, hops⟩ := hfirst
    rw [expandAll]
    rcases he : x.expand m b with ⟨y, c, r, _ | e⟩ <;> rw [he] at hops <;> dsimp only at hops
    · obtain ⟨ops', hops'⟩ := ih y c c.insns.size
      exact ⟨ops ++ ops', by rw [Buffer.performAll_append, ← hops]; exact hops'⟩
    · exact ⟨ops, hops⟩

/-- Slots that have no room higher up by `k` end with one that is stored, so its last index is one too many. -/
theorem exists_index_beyond (x : Expander) (ms : List Marker) (hk : k < slotSpace)
    (h : slotSpace < (x.expandAll (.empty 0) 0 ms).buffer.nextSlot + k) :
    ∃ i ∈ (x.expandAll (.empty 0) 0 ms).buffer.insns, ∃ s ty j,
      i.slot? = some (s, ty) ∧ s.Covers ty j ∧ 65535 < j + k := by
  obtain ⟨ops, hops⟩ := x.exists_operations (.empty 0) 0 ms
  have hlast := (Buffer.empty 0).exists_last_store ops
  rw [← hops] at hlast
  rw [slotSpace] at hk h
  rcases hlast with hzero | ⟨ty, s, hstore, hend⟩
  · have hzero : (x.expandAll (.empty 0) 0 ms).buffer.nextSlot = 0 := hzero
    omega
  · have hpos := ty.width_pos
    refine ⟨.store ty s, Array.mem_toList_iff.1 hstore, s, ty, s.index + ty.width - 1, rfl, ?_, by omega⟩
    rw [Slot.Covers]
    omega

end Expander

namespace Body

variable {b : Body} {settings : Settings}

/-- An attempt with a higher first slot comes to the same with all slots moved up, or what the lowest first slot
comes to has an index too many. -/
theorem attempt_shift (b : Body) (settings : Settings) (k : UInt16) :
    (∃ N, (b.attempt settings 0).result = .ok N ∧
        (b.attempt settings k).result = .ok (N.shift k.toNat) ∧
        (b.attempt settings k).registrations = (b.attempt settings 0).registrations) ∨
      (∀ M, (b.attempt settings k).result ≠ .ok M) ∧
        ∀ N, (b.attempt settings 0).result = .ok N → ∃ j, N.Occupies j ∧ 65535 < j + k.toNat := by
  cases hx : (Expander.new b.methodId settings).recordAll b.markers with
  | error e => exact .inr ⟨by simp [attempt, hx], by simp [attempt, hx]⟩
  | ok x =>
    have hself : x.rename (.slotsUp k.toNat) = x := by
      rw [Expander.eq_of_recordAll hx]
      rfl
    have hregistrations (n : UInt16) : (b.attempt settings n).registrations =
        (x.expandAll (.empty n) 0 b.markers).registrations := by rw [attempt, hx]
    have hshift := x.expandAll_shift k.toNat (.empty 0) 0 b.markers
    rw [hself, Buffer.shift_empty] at hshift
    rw [hregistrations, hregistrations, result_of_recordAll 0 hx, result_of_recordAll k hx]
    rcases hshift with ⟨hnone, hk⟩ | ⟨hno, hroom⟩
    · rw [hk, hnone]
      refine .inl ⟨_, rfl, ?_, rfl⟩
      simp [ProbedMethod.shift, Buffer.shift]
    · obtain ⟨e, he⟩ := Option.ne_none_iff_exists'.1 hno
      refine .inr ⟨by simp [he], fun N hN => ?_⟩
      cases hnone : (x.expandAll (.empty 0) 0 b.markers).error with
      | some f =>
        rw [hnone] at hN
        cases hN
      | none =>
        rw [hnone] at hN
        cases hN
        obtain ⟨i, hi, s, ty, j, hslot, hcovers, hlt⟩ :=
          x.exists_index_beyond b.markers k.toNat_lt (hroom hnone)
        exact ⟨j, ⟨i, hi, s, ty, hslot, hcovers⟩, hlt⟩

/-- A higher first slot only moves all slots up.  What succeeds with it succeeds with the lowest one, and the other
way round if no index is moved beyond the last one that there is.  The labels, spans, the tracking, the number
of slots and the counters are the same, and no index below the first slot is touched. -/
theorem firstSlot_moves (b : Body) (settings : Settings) (k : UInt16) :
    (∀ M, (b.attempt settings k).result = .ok M → ∃ N, (b.attempt settings 0).result = .ok N ∧
      M = N.shift k.toNat ∧
      (b.attempt settings k).registrations = (b.attempt settings 0).registrations) ∧
    (∀ N, (b.attempt settings 0).result = .ok N → (∀ j, N.Occupies j → j + k.toNat ≤ 65535) →
      (b.attempt settings k).result = .ok (N.shift k.toNat) ∧
      (b.attempt settings k).registrations = (b.attempt settings 0).registrations) ∧
    ∀ M, (b.attempt settings k).result = .ok M → ∀ j, M.Occupies j → k.toNat ≤ j := by
  rcases b.attempt_shift settings k with ⟨N, hN, hk, hregs⟩ | ⟨hno, hroom⟩
  · refine ⟨fun M hM => ?_, fun N' hN' _ => ?_, fun M hM j hj => ?_⟩
    · cases hk.symm.trans hM
      exact ⟨N, hN, rfl, hregs⟩
    · cases hN.symm.trans hN'
      exact ⟨hk, hregs⟩
    · cases hk.symm.trans hM
      exact hj.le
  · refine ⟨fun M hM => absurd hM (hno M), fun N hN hle => ?_, fun M hM => absurd hM (hno M)⟩
    obtain ⟨j, hj, hlt⟩ := hroom N hN
    exact absurd (hle j hj) (by omega)

/-- The last index there is gets a slot, and with the next first slot there is no room. -/
theorem firstSlot_moves_lastIndex :
    let entry := ((Marker.ofKind .entry).withFlag "timed").withSampler (some .const)
    let b : Body := ⟨"m", 7, [entry, .ofKind .test, .ofKind .elseBranch]⟩
    ∃ N, (b.attempt {} 0).result = .ok N ∧ (∀ j, N.Occupies j → j ≤ 4) ∧
      (b.attempt {} 65531).result = .ok (N.shift 65531) ∧
      (∀ j, (N.shift 65531).Occupies j → 65531 ≤ j) ∧
      (b.attempt {} 65532).result.isOk = false := by
  intro entry b
  have hends : (b.attempt {} 0).result.toOption.any (fun N =>
      ∀ i ∈ N.code.toList, ∀ a ∈ i.slot?, a.1.index + a.2.width ≤ 5) = true := by
    decide +kernel
  cases hN : (b.attempt {} 0).result with
  | error e =>
    rw [hN] at hends
    cases hends
  | ok N =>
    rw [hN] at hends
    have hle : ∀ j, N.Occupies j → j ≤ 4 := by
      rintro j ⟨i, hi, s, ty, hslot, -, hlt⟩
      have hend := of_decide_eq_true hends i (Array.mem_toList_iff.2 hi) _ hslot
      dsimp only at hend
      omega
    have hroom : ∀ j, N.Occupies j → j + (65531 : UInt16).toNat ≤ 65535 := fun j hj =>
      Nat.add_le_add_right (hle j hj) 65531
    have hmoved := ((b.firstSlot_moves {} 65531).2.1 N hN hroom).1
    exact ⟨N, rfl, hle, hmoved, (b.firstSlot_moves {} 65531).2.2 _ hmoved, by decide +kernel⟩

end Body

end MethodProbes
