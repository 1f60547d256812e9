import MethodProbes.Proofs.Level.GateCode
import MethodProbes.Proofs.Level.Skips
import MethodProbes.Proofs.Machine.Ends

/-!
# Running gate code

The tests of a gate leave for the skip label at the levels of its ranges, and come to their end at
all others.  The level is that of the variable, or what the world answers to the first test.
-/
namespace MethodProbes

open Step

namespace Machine

section
variable {w : World} {σ : Layout} {is : List Insn} {pc : Nat} {st : List Const} {m : Memory}
  {h : History}

theorem exec_store_var {v : Var} {c : Const} (hc : c.type = v.type) :
    exec w (.store v.type (σ.slot v) :: is) ⟨pc, c :: st, m, h, none⟩ =
      exec w is ⟨pc + 1, st, m.set σ v c, ⟨pc, .store v.type (σ.slot v), [c], []⟩ :: h, none⟩ :=
  exec_store (hc.trans v.carrier_type.symm)

theorem exec_load_var {v : Var} :
    exec w (.load v.type (σ.slot v) :: is) ⟨pc, st, m, h, none⟩ =
      exec w is ⟨pc + 1, m.get σ v :: st, m,
        ⟨pc, .load v.type (σ.slot v), [], [m.get σ v]⟩ :: h, none⟩ :=
  exec_load

end

end Machine

open Machine

namespace Gate

section
variable {w : World} {σ : Layout} {pc : Nat} {st : List Const} {m : Memory} {h : History}
  {L : Int32} {bound : Bool}

def levelRead (σ : Layout) (bound : Bool) (L : Int32) (m : Memory) : Memory :=
  if bound then m else m.set σ .level (.int L)

@[simp] theorem levelRead_true : levelRead σ true L m = m := rfl

theorem get_levelRead (hL : bound = true → m.get σ .level = .int L) :
    (levelRead σ bound L m).get σ .level = .int L := by
  cases bound with
  | true => exact hL rfl
  | false =>
    rw [levelRead, if_neg Bool.false_ne_true, Memory.get_set m σ (by rfl), if_pos rfl]

theorem get_levelRead_of_ne {v : Var} (hv : v ≠ .level) :
    (levelRead σ bound L m).get σ v = m.get σ v := by
  cases bound with
  | true => rfl
  | false =>
    rw [levelRead, if_neg Bool.false_ne_true, Memory.get_set m σ (by rfl), if_neg hv]

theorem ends_pushLevel (field : String) (hL : bound = true → m.get σ .level = .int L)
    (hw : bound = false → w.level h = L) :
    Ends w (written σ (pushLevel field bound)) ⟨pc, st, m, h, none⟩ (.int L :: st)
      (levelRead σ bound L m) none := by
  cases bound with
  | true =>
    rw [← hL rfl]
    exact ⟨_, exec_load_var, rfl, rfl, rfl⟩
  | false =>
    obtain rfl := hw rfl
    simp only [pushLevel, Bool.false_eq_true, if_false, written_cons, written_nil, insns,
      List.append_nil, List.cons_append, List.nil_append, Ends, exec_readLevel]
    rw [exec_dup rfl, exec_store_var rfl]
    exact ends_nil

theorem ends_compare (n : Int32) {c d : Cond} (l : Label) (hc : c.operands = 1)
    (hd : d.operands = 2) (hz : c.holds [.int L] = d.holds [.int 0, .int L]) :
    Ends w (written σ (compare n c d l)) ⟨pc, .int L :: st, m, h, none⟩ st m
      (if d.holds [.int n, .int L] then some l else none) := by
  rw [compare]
  split
  next hn =>
    rw [hn, ← hz]
    exact ⟨_, exec_jump_one hc, rfl, rfl, rfl⟩
  next => exact ⟨_, exec_jump_two hd, rfl, rfl, rfl⟩

theorem ends_test (field : String) (n : Int32) {c d : Cond} (l : Label) (hc : c.operands = 1)
    (hd : d.operands = 2) (hz : c.holds [.int L] = d.holds [.int 0, .int L])
    (hL : bound = true → m.get σ .level = .int L) (hw : bound = false → w.level h = L) :
    Ends w (written σ (pushLevel field bound ++ compare n c d l)) ⟨pc, st, m, h, none⟩ st
      (levelRead σ bound L m) (if d.holds [.int n, .int L] then some l else none) := by
  rw [written_append]
  exact (ends_pushLevel field hL hw).append fun _ _ => ends_compare n l hc hd hz

theorem ends_skipIfAtMost (field : String) (n : Int32) (l : Label)
    (hL : bound = true → m.get σ .level = .int L) (hw : bound = false → w.level h = L) :
    Ends w (written σ (pushLevel field bound ++ compare n .ifNonPositive .ifLessOrEqual l))
      ⟨pc, st, m, h, none⟩ st (levelRead σ bound L m) (if L ≤ n then some l else none) := by
  simpa [Cond.holds] using ends_test field n l (c := .ifNonPositive) (d := .ifLessOrEqual) rfl rfl
    rfl hL hw

theorem ends_nextIfBelow (field : String) (n : Int32) (l : Label)
    (hL : bound = true → m.get σ .level = .int L) (hw : bound = false → w.level h = L) :
    Ends w (written σ (pushLevel field bound ++ compare n .ifNegative .ifLess l))
      ⟨pc, st, m, h, none⟩ st (levelRead σ bound L m) (if L < n then some l else none) := by
  simpa [Cond.holds] using ends_test field n l (c := .ifNegative) (d := .ifLess) rfl rfl rfl hL hw

theorem ends_range (field : String) {skip next : Label} (r : SkipRange) (hne : skip ≠ next)
    (hL : bound = true → m.get σ .level = .int L) (hw : bound = false → w.level h = L) :
    Ends w (written σ (checkSteps field skip next bound r.checks ++ merge next))
      ⟨pc, st, m, h, none⟩ st (if r.comparesLevel then levelRead σ bound L m else m)
      (if L ∈ r then some skip else none) := by
  have hskip {pc : Nat} {m : Memory} {h : History} : Ends w (.jump .always skip ::
      [.label next, .frame next]) ⟨pc, st, m, h, none⟩ st m (some skip) :=
    ends_of_notMem (by simpa using hne)
  have hmerge {pc : Nat} {m : Memory} {h : History} {g : Option Label} (hg : g ≠ some next) :
      Ends w [.label next, .frame next] ⟨pc, st, m, h, g⟩ st m g := ends_merge hg
  obtain ⟨_ | lo, _ | hi⟩ := r
  · have hmem : L ∈ SkipRange.mk none none := by simp [SkipRange.mem_def]
    rw [if_pos hmem]
    exact hskip
  · have hcode : written σ (checkSteps field skip next bound [.skipIfAtMost hi] ++ merge next) =
        written σ (pushLevel field bound ++ compare hi .ifNonPositive .ifLessOrEqual skip) ++
          [.label next, .frame next] := by simp [checkSteps]
    have hmem : L ∈ SkipRange.mk none (some hi) ↔ L ≤ hi := by simp [SkipRange.mem_def]
    simp only [hmem]
    refine hcode ▸ (ends_skipIfAtMost field hi skip hL hw).append fun _ _ => ends_merge ?_
    split <;> simp [hne]
  · have hcode : written σ (checkSteps field skip next bound [.nextIfBelow lo, .skip] ++
        merge next) = written σ (pushLevel field bound ++ compare lo .ifNegative .ifLess next) ++
          [.jump .always skip, .label next, .frame next] := by simp [checkSteps, insns]
    have hmem : L ∈ SkipRange.mk (some lo) none ↔ ¬ L < lo := by
      simp [SkipRange.mem_def, Int32.not_lt]
    simp only [hmem]
    apply hcode ▸ (ends_nextIfBelow field lo next hL hw).append
    intro _ _
    by_cases hlt : L < lo
    · rw [if_pos hlt, if_neg (not_not_intro hlt)]
      exact ends_of_last (a := [.jump .always skip]) (by simp)
    · rw [if_neg hlt, if_pos hlt]
      exact hskip
  · have hcode : written σ (checkSteps field skip next bound [.nextIfBelow lo, .skipIfAtMost hi] ++
        merge next) = written σ (pushLevel field bound ++ compare lo .ifNegative .ifLess next) ++
          (written σ (pushLevel field true ++ compare hi .ifNonPositive .ifLessOrEqual skip) ++
            [.label next, .frame next]) := by simp [checkSteps]
    have hmem : L ∈ SkipRange.mk (some lo) (some hi) ↔ ¬ L < lo ∧ L ≤ hi := by
      simp [SkipRange.mem_def, Int32.not_lt]
    simp only [hmem]
    apply hcode ▸ (ends_nextIfBelow field lo next hL hw).append
    intro _ _
    by_cases hlt : L < lo
    · rw [if_pos hlt, if_neg (not_and_of_not_left _ (not_not_intro hlt))]
      exact ends_of_last (label_notMem_test)
    · rw [if_neg hlt]
      simp only [hlt, not_false_eq_true, true_and]
      -- the level is bound behind the first test
      have hlevel : true = true → (levelRead σ bound L m).get σ .level = .int L :=
        fun _ => get_levelRead hL
      refine (ends_skipIfAtMost field hi skip hlevel (by simp)).append fun _ _ => ends_merge ?_
      split <;> simp [hne]

/-- Ranges leave for the skip label if one of them holds the level.  The world is asked for the
level by the first test, if it is asked at all. -/
theorem ends_rangeSteps (field : String) {skip : Label} (rs : List SkipRange) {n : Nat}
    (hskip : ∀ j, n ≤ j → skip ≠ ⟨j⟩) (hL : bound = true → m.get σ .level = .int L)
    (hw : bound = false → w.level h = L) :
    Ends w (written σ (rangeSteps field skip bound n rs)) ⟨pc, st, m, h, none⟩ st
      (if rs.head?.any SkipRange.comparesLevel then levelRead σ bound L m else m)
      (if ∃ r ∈ rs, L ∈ r then some skip else none) := by
  induction rs generalizing bound n pc m h with
  | nil => exact ends_nil
  | cons r rs ih =>
    rw [written_rangeSteps_cons]
    apply (ends_range field r (hskip n (Nat.le_refl n)) hL hw).append
    intro pc h
    by_cases hr : L ∈ r
    · have hex : ∃ r' ∈ r :: rs, L ∈ r' := ⟨r, List.mem_cons_self, hr⟩
      rw [if_pos hr, if_pos hex]
      apply ends_of_notMem
      intro hm
      cases gateInsn_of_mem hm with
      | label hl => exact hskip _ (by omega) rfl
    · -- a range that does not hold the level has compared it
      have hcmp : r.comparesLevel = true := by
        cases hc : r.comparesLevel with
        | true => rfl
        | false => exact absurd (SkipRange.mem_of_not_comparesLevel hc L) hr
      have hskip : ∀ j, n + 1 ≤ j → skip ≠ ⟨j⟩ := fun j hj => hskip j (by omega)
      have hlevel : true = true → (levelRead σ bound L m).get σ .level = .int L :=
        fun _ => get_levelRead hL
      have hrest : Ends w (written σ (rangeSteps field skip true (n + 1) rs))
          ⟨pc, st, levelRead σ bound L m, h, none⟩ st (levelRead σ bound L m)
          (if ∃ r ∈ rs, L ∈ r then some skip else none) := by
        simpa only [levelRead_true, ite_self] using ih hskip hlevel nofun
      simpa [hr, hcmp] using hrest

end

end Gate

end MethodProbes
