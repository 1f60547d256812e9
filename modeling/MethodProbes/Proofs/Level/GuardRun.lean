import MethodProbes.Proofs.Expansion.MarkerCode
import MethodProbes.Proofs.Level.GateRun

/-!
# Running a guard

A guard gives zero to the variables that its gated code stores, and then leaves for the skip label
at the levels that the gate skips.
-/
namespace MethodProbes

open Step Machine

def Insn.readsLevel : Insn → Bool
  | readLevel _ => true
  | _ => false

namespace Context

section
variable (x : Context) {w : World} {σ : Layout} {pc : Nat} {st : List Const} {m : Memory}
  {h : History}

def defined (σ : Layout) (vs : List Var) (m : Memory) : Memory :=
  vs.foldl (fun m v => if x.cycle.isBound v then m else m.set σ v (.zero v.type)) m

theorem type_zero (v : Var) : (Const.zero v.type).type = v.type := by cases v <;> rfl

theorem get_defined (vs : List Var) (v : Var) :
    (x.defined σ vs m).get σ v =
      if v ∈ vs ∧ x.cycle.isBound v = false then .zero v.type else m.get σ v := by
  induction vs generalizing m with
  | nil => simp [defined]
  | cons u vs ih =>
    rw [defined, List.foldl_cons, ← defined, ih]
    by_cases hu : x.cycle.isBound u = true
    · by_cases hv : v = u <;> simp_all
    · rw [if_neg hu, Memory.get_set m σ (type_zero u)]
      by_cases hv : v = u <;> simp_all

theorem ends_define (v : Var) :
    Ends w (written σ (x.define v)) ⟨pc, st, m, h, none⟩ st (x.defined σ [v] m) none := by
  rw [define, defined, List.foldl_cons, List.foldl_nil]
  split
  · exact ends_nil
  · exact ⟨_, exec_store_var (type_zero v), rfl, rfl, rfl⟩

theorem ends_defineAll (vs : List Var) :
    Ends w (written σ (vs.flatMap x.define)) ⟨pc, st, m, h, none⟩ st (x.defined σ vs m) none := by
  induction vs generalizing pc m h with
  | nil => exact ends_nil
  | cons v vs ih =>
    rw [List.flatMap_cons, written_append]
    exact (x.ends_define v).append fun _ _ => ih

/-- What is known when a guard has been run. -/
structure Guarded (σ : Layout) (vs : List Var) (skip : Option Label) (L : Int32) (s t : Machine) :
    Prop where
  stack : t.stack = s.stack
  going : t.going = if x.tracking.gate.Skips L then skip else none
  get : ∀ v, v ≠ .level → t.memory.get σ v =
    if x.tracking.gate ≠ .openGate ∧ v ∈ vs ∧ x.cycle.isBound v = false then .zero v.type
    else s.memory.get σ v
  level : x.tracking.gate.comparesLevel = true → t.memory.get σ .level = .int L
  bound : x.cycle.isBound .level = true →
    s.memory.get σ .level = .int L ∧ t.memory.get σ .level = .int L

/-- The level that a guard decides by is the first that it reads. -/
def Reads (L : Int32) (s t : Machine) : Prop :=
  ∃ e es, e :: (es ++ s.history) <:+ t.history ∧ e.insn.readsLevel = true ∧ e.pushed = [.int L] ∧
    ∀ d ∈ es, d.insn.readsLevel = false

/-- The level that gates see is that of the variable, or else the first that is read. -/
structure Judges (σ : Layout) (L : Int32) (s t : Machine) : Prop where
  bound : x.cycle.isBound .level = true → s.memory.get σ .level = .int L
  unbound : x.cycle.isBound .level = false → x.tracking.gate.comparesLevel = true → Reads L s t

variable {x} in
/-- What is executed later does not matter. -/
theorem Judges.behind {L : Int32} {s t u : Machine} (h : x.Judges σ L s t)
    (ht : t.history <:+ u.history) : x.Judges σ L s u := by
  refine ⟨h.bound, fun hb hc => ?_⟩
  obtain ⟨e, es, hsuffix, he⟩ := h.unbound hb hc
  exact ⟨e, es, hsuffix.trans ht, he⟩

variable {x} in
/-- What is executed earlier does not matter if it neither reads the level nor stores it. -/
theorem Judges.before {L : Int32} {a : List Insn} {r s t : Machine} (h : x.Judges σ L s t)
    (ha : exec w a r = some s) (hreads : ∀ i ∈ a, i.readsLevel = false)
    (hkept : s.memory.get σ .level = r.memory.get σ .level) : x.Judges σ L r t := by
  refine ⟨fun hb => hkept ▸ h.bound hb, fun hb hc => ?_⟩
  obtain ⟨e, es, hsuffix, he, hL, hes⟩ := h.unbound hb hc
  obtain ⟨ds, hds, hmem⟩ := history_exec ha
  rw [hds, ← List.append_assoc] at hsuffix
  refine ⟨e, es ++ ds, hsuffix, he, hL, List.forall_mem_append.2 ⟨hes, fun d hd => ?_⟩⟩
  exact hreads _ (List.mem_of_getElem? (hmem d hd).2)

theorem skipLabel_ne {given : Option Label} {n : Nat} (hgiven : ∀ k ∈ given, k.id < n) (j : Nat)
    (hj : firstRange given n ≤ j) : skipLabel given n ≠ ⟨j⟩ := by
  cases given with
  | none =>
    rintro ⟨⟩
    exact Nat.not_succ_le_self _ hj
  | some k =>
    rintro rfl
    have hlt : j < n := hgiven _ rfl
    have hle : n ≤ j := hj
    omega

theorem written_skipping {rs : List SkipRange} (hg : x.tracking.gate = .skipping rs)
    (vs : List Var) (given : Option Label) (n : Nat) :
    written σ (x.guard vs given n).1 = written σ (vs.flatMap x.define) ++
      written σ (Gate.rangeSteps x.levelField (skipLabel given n) (x.cycle.isBound .level)
        (firstRange given n) rs) := by
  rw [x.guard_skipping hg]
  cases given <;> simp [insns]

theorem insn_of_mem_defineAll {vs : List Var} {i : Insn}
    (h : i ∈ written σ (vs.flatMap x.define)) :
    ∃ v ∈ vs, i = .push (.zero v.type) ∨ i = .store v.type (σ.slot v) := by
  obtain ⟨s, hs, hi⟩ := List.mem_flatMap.1 h
  obtain ⟨v, hm, hv⟩ := List.mem_flatMap.1 hs
  refine ⟨v, hm, ?_⟩
  rw [define] at hv
  split at hv
  · cases hv
  · rcases List.mem_cons.1 hv with rfl | hv
    · exact .inl (List.mem_singleton.1 hi)
    · obtain rfl := List.mem_singleton.1 hv
      exact .inr (List.mem_singleton.1 hi)

theorem label_notMem_defineAll {vs : List Var} (l : Label) :
    .label l ∉ written σ (vs.flatMap x.define) := fun h => by
  obtain ⟨v, -, hv | hv⟩ := x.insn_of_mem_defineAll h <;> cases hv

theorem readsLevel_of_mem_define {v : Var} {i : Insn} (h : i ∈ written σ (x.define v)) :
    i.readsLevel = false := by
  rw [define] at h
  split at h
  · cases h
  · rcases List.mem_cons.1 h with rfl | h
    · rfl
    · rw [List.mem_singleton.1 h]
      rfl

theorem readsLevel_of_mem_defineAll {vs : List Var} {i : Insn}
    (h : i ∈ written σ (vs.flatMap x.define)) : i.readsLevel = false := by
  obtain ⟨v, -, rfl | rfl⟩ := x.insn_of_mem_defineAll h <;> rfl

theorem forward_guard {vs : List Var} {given : Option Label} {n : Nat}
    (hgiven : ∀ k ∈ given, k.id < n) : Forward (written σ (x.guard vs given n).1) := by
  cases hg : x.tracking.gate with
  | openGate =>
    rw [x.guard_openGate hg]
    exact .nil
  | skipping rs =>
    rw [x.written_skipping hg]
    refine .append (.of_no_label x.label_notMem_defineAll)
      (Gate.forward_rangeSteps (skipLabel_ne hgiven)) fun l hl => ?_
    exact absurd hl (x.label_notMem_defineAll l)

theorem exists_guarded {s : Machine} (hs : s.going = none) {vs : List Var} (hvs : .level ∉ vs)
    {given : Option Label} {n : Nat} (hgiven : ∀ k ∈ given, k.id < n) :
    ∃ L t, exec w (written σ (x.guard vs given n).1) s = some t ∧
      x.Guarded σ vs (x.guard vs given n).2 L s t ∧
      (x.cycle.isBound .level = false → x.tracking.gate.comparesLevel = true → Reads L s t) := by
  obtain ⟨L₀, hL₀⟩ := Const.exists_int (s.memory.type_get σ .level)
  cases hg : x.tracking.gate with
  | openGate =>
    rw [x.guard_openGate hg]
    refine ⟨L₀, s, rfl, ⟨rfl, ?_, ?_, ?_, ?_⟩, ?_⟩
    · rw [hs, hg, ite_self]
    · simp [hg]
    · simp [hg, Gate.comparesLevel, Gate.ranges]
    · intro _
      exact ⟨hL₀, hL₀⟩
    · simp [Gate.comparesLevel, Gate.ranges]
  | skipping rs =>
    have hhead : rs.head?.any SkipRange.comparesLevel = x.tracking.gate.comparesLevel := by
      rw [Tracking.gate, ← Gate.head?_comparesLevel, ← Tracking.gate, hg, Gate.ranges]
    obtain ⟨pc, st, m, h, _⟩ := s
    obtain rfl : _ = none := hs
    have hends : Ends w (written σ (vs.flatMap x.define)) ⟨pc, st, m, h, none⟩ st
        (x.defined σ vs m) none := x.ends_defineAll vs
    obtain ⟨⟨pc', st', m', h', g'⟩, hdef, hst, hm, hgo⟩ := hends
    obtain rfl : st' = st := hst
    obtain rfl : m' = x.defined σ vs m := hm
    obtain rfl : g' = none := hgo
    have hlevel : (x.defined σ vs m).get σ .level = .int L₀ := by
      rw [get_defined, if_neg (fun hv => hvs hv.1), hL₀]
    -- the world is asked behind the definitions
    obtain ⟨L, hL, hw⟩ : ∃ L, (x.cycle.isBound .level = true →
        (x.defined σ vs m).get σ .level = .int L) ∧
        (x.cycle.isBound .level = false → w.level h' = L) := by
      cases x.cycle.isBound .level with
      | true => exact ⟨L₀, fun _ => hlevel, by simp⟩
      | false => exact ⟨w.level h', by simp, fun _ => rfl⟩
    have hends : Ends w _ ⟨pc', st', x.defined σ vs m, h', none⟩ st' _ _ :=
      Gate.ends_rangeSteps x.levelField rs (skipLabel_ne hgiven) hL hw
    obtain ⟨t, ht, hst, hm, hgo⟩ := hends
    rw [hhead] at hm
    refine ⟨L, t, ?_, ⟨hst, ?_, ?_, ?_, ?_⟩, ?_⟩
    · rw [x.written_skipping hg, exec_append_of hdef, ht]
    · rw [hgo, x.guard_skipping hg, hg]
      rfl
    · intro v hv
      have hget : t.memory.get σ v = (x.defined σ vs m).get σ v := by
        rw [hm]
        split
        · exact Gate.get_levelRead_of_ne hv
        · rfl
      rw [hget, get_defined]
      simp [hg]
    · intro hc
      rw [hm, if_pos (hg ▸ hc), Gate.get_levelRead hL]
    · intro hb
      rw [hb, Gate.levelRead_true, ite_self] at hm
      refine ⟨?_, hm ▸ hL hb⟩
      rw [← hL hb, get_defined, if_neg (fun hv => hvs hv.1)]
    · intro hb hc
      rw [← hg, ← hhead] at hc
      obtain ⟨code, hcode⟩ := Gate.exists_readLevel_cons (σ := σ) hc
      obtain ⟨es, hes, hmem⟩ := history_exec hdef
      rw [hb, hcode, exec_readLevel] at ht
      have hsuffix := suffix_history_exec ht
      rw [show h' = es ++ h from hes] at hsuffix
      refine ⟨_, es, hsuffix, rfl, by rw [← hw hb, ← hes], fun d hd => ?_⟩
      exact x.readsLevel_of_mem_defineAll (List.mem_of_getElem? (hmem d hd).2)

end

end Context

end MethodProbes
