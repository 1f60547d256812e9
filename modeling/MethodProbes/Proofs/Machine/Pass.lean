import Mathlib.Data.List.Basic
import MethodProbes.Proofs.Machine.Basic

/-!
# Running code in one pass

Code whose jumps only go forward is run by handing its instructions to the machine one after
another: a machine on its way to a label passes instructions by until that label comes.  Runs of
code in parts are then runs of the parts, and the last state is that of the machine's own steps.
-/
namespace MethodProbes

/-- No jump goes to a label that is placed before it. -/
def Forward (code : List Insn) : Prop :=
  code.Pairwise fun i j => ∀ l, i = .label l → j.target? ≠ some l

namespace Forward

theorem append {a b : List Insn} (ha : Forward a) (hb : Forward b)
    (h : ∀ l, .label l ∈ a → ∀ i ∈ b, i.target? ≠ some l) : Forward (a ++ b) :=
  List.pairwise_append.2 ⟨ha, hb, fun _ hi j hj l hl => h l (hl ▸ hi) j hj⟩

theorem of_no_label {a : List Insn} (h : ∀ l, .label l ∉ a) : Forward a :=
  List.pairwise_of_forall_mem_list fun _ hi _ _ l hl => absurd (hl ▸ hi) (h l)

theorem of_no_jump {a : List Insn} (h : ∀ i ∈ a, i.target? = none) : Forward a :=
  List.pairwise_of_forall_mem_list fun _ _ j hj _ _ => by simp [h j hj]

end Forward

namespace Machine

/-- Handles one instruction: it is passed by on the way to another place, and executed else. -/
def pass (w : World) (s : Machine) (i : Insn) : Option Machine :=
  match s.going with
  | none => s.fire w i
  | some l =>
    if i = .label l then { s with going := none }.fire w i else some { s with pc := s.pc + 1 }

def exec (w : World) (code : List Insn) (s : Machine) : Option Machine := code.foldlM (pass w) s

@[simp] theorem exec_nil (w : World) (s : Machine) : exec w [] s = some s := rfl

theorem exec_cons (w : World) (i : Insn) (code : List Insn) (s : Machine) :
    exec w (i :: code) s = (pass w s i).bind (exec w code) := rfl

theorem exec_append (w : World) (a b : List Insn) (s : Machine) :
    exec w (a ++ b) s = (exec w a s).bind (exec w b) := List.foldlM_append

theorem exec_append_of {w : World} {a : List Insn} {s t : Machine} (h : exec w a s = some t)
    (b : List Insn) : exec w (a ++ b) s = exec w b t := by
  rw [exec_append, h, Option.bind_some]

theorem exec_of_notMem {w : World} {code : List Insn} {s : Machine} {l : Label}
    (hs : s.going = some l) (hl : .label l ∉ code) :
    exec w code s = some { s with pc := s.pc + code.length } := by
  induction code generalizing s with
  | nil => rfl
  | cons i code ih =>
    obtain ⟨hi, hl⟩ := not_or.1 (mt List.mem_cons.2 hl)
    rw [exec_cons, pass, hs]
    simp only [if_neg (Ne.symm hi), Option.bind_some]
    rw [ih rfl hl, List.length_cons, Nat.add_assoc, Nat.add_comm 1]

theorem exec_of_mem {w : World} {code : List Insn} {s : Machine} {l : Label}
    (hs : s.going = some l) (hl : .label l ∈ code) :
    exec w code s = exec w (code.drop (code.idxOf (.label l)))
      { s with pc := s.pc + code.idxOf (.label l), going := none } := by
  induction code generalizing s with
  | nil => cases hl
  | cons i code ih =>
    by_cases hi : i = .label l
    · subst hi
      rw [List.idxOf_cons_self, List.drop_zero, exec_cons, exec_cons, pass, hs, pass]
      simp
    · have hl : .label l ∈ code := (List.mem_cons.1 hl).resolve_left (Ne.symm hi)
      rw [exec_cons, pass, hs]
      simp only [if_neg hi, Option.bind_some]
      rw [ih rfl hl, List.idxOf_cons_ne _ hi, List.drop_succ_cons, Nat.add_assoc, Nat.add_comm 1]

/-! ### The history of a run -/

theorem pass_eq_some {w : World} {i : Insn} {s t : Machine} (h : pass w s i = some t) :
    t.pc = s.pc + 1 ∧ (t.history = s.history ∨
      ∃ e : Entry, e.index = s.pc ∧ e.insn = i ∧ t.history = e :: s.history) := by
  have hfire {u : Machine} (hu : u.pc = s.pc) (hh : u.history = s.history)
      (h : u.fire w i = some t) : t.pc = s.pc + 1 ∧
        ∃ e : Entry, e.index = s.pc ∧ e.insn = i ∧ t.history = e :: s.history := by
    obtain ⟨pushed, -, rfl⟩ := fire_eq_some h
    exact ⟨congrArg (· + 1) hu, _, hu, rfl, congrArg _ hh⟩
  rw [pass] at h
  split at h
  · exact (hfire rfl rfl h).imp id .inr
  · split at h
    · exact (hfire rfl rfl h).imp id .inr
    · cases h
      exact ⟨rfl, .inl rfl⟩

theorem pc_exec {w : World} {code : List Insn} {s t : Machine} (h : exec w code s = some t) :
    t.pc = s.pc + code.length := by
  induction code generalizing s with
  | nil => cases h; rfl
  | cons i code ih =>
    obtain ⟨u, hu, h⟩ := Option.bind_eq_some_iff.1 h
    rw [ih h, (pass_eq_some hu).1, List.length_cons]
    omega

/-- A run adds to the history, and only instructions of the code at their place in it. -/
theorem history_exec {w : World} {code : List Insn} {s t : Machine}
    (h : exec w code s = some t) : ∃ es : History, t.history = es ++ s.history ∧
      ∀ e ∈ es, s.pc ≤ e.index ∧ code[e.index - s.pc]? = some e.insn := by
  induction code generalizing s with
  | nil =>
    cases h
    exact ⟨[], rfl, by simp⟩
  | cons i code ih =>
    obtain ⟨u, hu, h⟩ := Option.bind_eq_some_iff.1 h
    obtain ⟨es, he, hes⟩ := ih h
    obtain ⟨hpc, hh⟩ := pass_eq_some hu
    have hes {e : Entry} (hm : e ∈ es) :
        s.pc ≤ e.index ∧ (i :: code)[e.index - s.pc]? = some e.insn := by
      obtain ⟨hle, hget⟩ := hes e hm
      rw [hpc] at hle hget
      refine ⟨by omega, ?_⟩
      rwa [show e.index - s.pc = e.index - (s.pc + 1) + 1 by omega, List.getElem?_cons_succ]
    rcases hh with hh | ⟨e, hx, hi, hh⟩
    · exact ⟨es, by rw [he, hh], fun e hm => hes hm⟩
    · refine ⟨es ++ [e], by rw [he, hh]; simp, fun d hd => ?_⟩
      rcases List.mem_append.1 hd with hd | hd
      · exact hes hd
      · obtain rfl := List.mem_singleton.1 hd
        simp [hx, hi]

theorem suffix_history_exec {w : World} {code : List Insn} {s t : Machine}
    (h : exec w code s = some t) : s.history <:+ t.history := by
  obtain ⟨es, he, -⟩ := history_exec h
  exact ⟨es, he.symm⟩

/-! ### The memory of a run -/

theorem memory_fire {w : World} {i : Insn} {s t : Machine} (h : s.fire w i = some t) {j : Nat}
    (hj : ∀ ty r, i = .store ty r → ¬ r.Covers ty j) : t.memory j = s.memory j := by
  obtain ⟨pushed, hp, rfl⟩ := fire_eq_some h
  cases i with
  | store ty r =>
    obtain ⟨pc, st, m, hist, g⟩ := s
    cases st with
    | nil => cases hp
    | cons c st =>
      have hc : c.type = ty.carrier := by
        by_contra hne
        simp [Insn.operands, Insn.results?, hne] at hp
      exact m.write_of_not_covers hc (hj ty r rfl)
  | _ => rfl

/-- A run changes only words of the slots that its code stores into. -/
theorem memory_exec {w : World} {code : List Insn} {s t : Machine} (h : exec w code s = some t)
    {j : Nat} (hj : ∀ ty r, .store ty r ∈ code → ¬ r.Covers ty j) : t.memory j = s.memory j := by
  induction code generalizing s with
  | nil =>
    cases h
    rfl
  | cons i code ih =>
    obtain ⟨u, hu, h⟩ := Option.bind_eq_some_iff.1 h
    have hi : ∀ ty r, i = .store ty r → ¬ r.Covers ty j := by
      rintro ty r rfl
      exact hj ty r List.mem_cons_self
    rw [ih h fun ty r hr => hj ty r (List.mem_cons_of_mem _ hr)]
    rw [pass] at hu
    split at hu
    · exact memory_fire hu hi
    · split at hu
      · exact memory_fire (s := { s with going := none }) hu hi
      · cases hu
        rfl

theorem read_exec {w : World} {code : List Insn} {s t : Machine} (h : exec w code s = some t)
    {tr : ValueType} {r : Slot} (hr : ∀ ty q, .store ty q ∈ code → q.Apart ty r tr) :
    t.memory.read tr r = s.memory.read tr r :=
  Memory.read_eq_iff.2 fun _ hj => memory_exec h fun ty q hq => (hr ty q hq).not_covers hj

/-! ### Agreement with the machine's steps -/

theorem step?_eq_some {code : List Insn} {w : World} {s t : Machine}
    (h : s.step? code w = some t) :
    ∃ i u, code[s.pc]? = some i ∧ s.fire w i = some u ∧ t = u.land code := by
  obtain ⟨i, hi, h⟩ := Option.bind_eq_some_iff.1 h
  obtain ⟨u, hu, rfl⟩ := Option.map_eq_some_iff.1 h
  exact ⟨i, u, hi, hu, rfl⟩

private theorem drop_eq_cons {code : List Insn} {n : Nat} {i : Insn} (h : code[n]? = some i) :
    code.drop n = i :: code.drop (n + 1) := by
  obtain ⟨hn, rfl⟩ := List.getElem?_eq_some_iff.1 h
  exact List.drop_eq_getElem_cons hn

/-- The label of a jump of forward code is not placed up to the jump. -/
private theorem idxOf_label {code : List Insn} (hf : Forward code) {n : Nat} {c : Cond} {l : Label}
    (hi : code[n]? = some (.jump c l)) :
    code.idxOf (.label l) = n + 1 + (code.drop (n + 1)).idxOf (.label l) := by
  have hlt := (List.getElem?_eq_some_iff.1 hi).1
  have hn : .label l ∉ code.take (n + 1) := by
    rw [List.take_add_one, hi, Option.toList_some, List.mem_append, List.mem_singleton]
    rintro (hm | hm)
    · have hcode : code.take n ++ (.jump c l :: code.drop (n + 1)) = code := by
        rw [← drop_eq_cons hi, List.take_append_drop]
      rw [Forward, ← hcode, List.pairwise_append] at hf
      exact hf.2.2 _ hm _ List.mem_cons_self l rfl rfl
    · cases hm
  have h : (code.take (n + 1) ++ code.drop (n + 1)).idxOf (.label l) = _ :=
    List.idxOf_append_of_notMem hn
  rwa [List.take_append_drop, List.length_take, Nat.min_eq_left hlt] at h

/-- A jump of forward code goes forward and stays within the code. -/
theorem pc_land {code : List Insn} (hf : Forward code) {w : World} {s u : Machine} {i : Insn}
    (hi : code[s.pc]? = some i) (hu : s.fire w i = some u) :
    s.pc < (u.land code).pc ∧ (u.land code).pc ≤ code.length := by
  obtain ⟨pushed, -, rfl⟩ := fire_eq_some hu
  have hlt := (List.getElem?_eq_some_iff.1 hi).1
  rw [land]
  split
  next => exact ⟨Nat.lt_succ_self _, hlt⟩
  next l hg =>
    obtain ⟨c, rfl, -⟩ := eq_jump_of_leap? hg
    have hidx := idxOf_label hf hi
    exact ⟨by dsimp only; omega, List.idxOf_le_length⟩

/-- A jump of forward code finds its label, if it is placed at all, in the code ahead. -/
theorem exec_land {code : List Insn} (hf : Forward code) {w : World} {s u : Machine} {i : Insn}
    (hi : code[s.pc]? = some i) (hu : s.fire w i = some u) :
    exec w (code.drop (u.land code).pc) (u.land code) = exec w (code.drop (s.pc + 1)) u := by
  obtain ⟨pushed, -, hu⟩ := fire_eq_some hu
  have hpc : u.pc = s.pc + 1 := by rw [hu]
  cases hg : u.going with
  | none => rw [land, hg, hpc]
  | some l =>
    have hl : i.leap? (s.stack.take i.operands) = some l := by rw [← hg, hu]
    obtain ⟨c, rfl, -⟩ := eq_jump_of_leap? hl
    have hidx := idxOf_label hf hi
    simp only [land, hg]
    by_cases hm : .label l ∈ code.drop (s.pc + 1)
    · rw [exec_of_mem hg hm, hpc, List.drop_drop, ← hidx, if_pos (List.mem_of_mem_drop hm)]
    · have hend := List.idxOf_eq_length hm
      have hlt := (List.getElem?_eq_some_iff.1 hi).1
      rw [hend, List.length_drop] at hidx
      have hno : .label l ∉ code := fun h => by
        have := List.idxOf_lt_length_of_mem h
        omega
      rw [exec_of_notMem hg hm, List.idxOf_eq_length hno, List.drop_length, exec_nil, if_neg hno,
        hpc, ← hg, List.length_drop, Nat.add_sub_cancel' hlt]

/-- A machine that stands at an instruction is not on its way to a label. -/
def Settled (code : List Insn) (s : Machine) : Prop := s.going = none ∨ s.Over code

theorem settled_land (code : List Insn) (s : Machine) : (s.land code).Settled code := by
  rw [land]
  cases hg : s.going with
  | none => exact .inl hg
  | some l =>
    by_cases hl : .label l ∈ code
    · exact .inl (if_pos hl)
    · exact .inr (List.idxOf_eq_length hl)

theorem exec_step {code : List Insn} (hf : Forward code) {w : World} {s t : Machine}
    (hs : s.Settled code) (h : s.step? code w = some t) :
    exec w (code.drop t.pc) t = exec w (code.drop s.pc) s := by
  obtain ⟨i, u, hi, hu, rfl⟩ := step?_eq_some h
  have hg : s.going = none := hs.resolve_right fun ho => by
    have hlt := (List.getElem?_eq_some_iff.1 hi).1
    exact Nat.lt_irrefl _ (ho ▸ hlt)
  rw [exec_land hf hi hu, drop_eq_cons hi, exec_cons, pass, hg, hu]
  rfl

/-- What is left of a run gives the same last state at all of its states. -/
theorem exec_reaches {code : List Insn} (hf : Forward code) {w : World} {s t : Machine}
    (hs : s.Settled code) (h : Reaches code w s t) :
    t.Settled code ∧ exec w (code.drop t.pc) t = exec w (code.drop s.pc) s := by
  induction h with
  | refl => exact ⟨hs, rfl⟩
  | tail _ h ih =>
    refine ⟨?_, (exec_step hf ih.1 h).trans ih.2⟩
    obtain ⟨i, u, -, -, rfl⟩ := step?_eq_some h
    exact settled_land code u

/-- The last state of a pass over the rest of the code is reached by steps. -/
theorem reaches_of_exec {code : List Insn} (hf : Forward code) {w : World} {s t : Machine}
    (hs : s.Settled code) (hle : s.pc ≤ code.length) (h : exec w (code.drop s.pc) s = some t) :
    Reaches code w s t := by
  induction hn : code.length - s.pc using Nat.strongRecOn generalizing s with
  | _ n ih =>
    rcases Nat.lt_or_eq_of_le hle with hlt | heq
    · have hi := List.getElem?_eq_getElem hlt
      have hg : s.going = none := hs.resolve_right (Nat.ne_of_lt hlt)
      have hpass : pass w s code[s.pc] = s.fire w code[s.pc] := by rw [pass, hg]
      rw [drop_eq_cons hi, exec_cons, hpass] at h
      obtain ⟨u, hu, h⟩ := Option.bind_eq_some_iff.1 h
      have hstep : s.step? code w = some (u.land code) := by
        rw [step?, hi, Option.bind_some, hu, Option.map_some]
      have hland := exec_land hf hi hu
      obtain ⟨hlo, hhi⟩ := pc_land hf hi hu
      exact .head hstep (ih _ (by omega) (settled_land code u) hhi (hland.trans h) rfl)
    · rw [heq, List.drop_length] at h
      cases h
      exact .refl

/-- Every run of forward code that finds its operands is over in the same last state. -/
theorem reaches_over {code : List Insn} (hf : Forward code) {w : World} {m : Memory} {t : Machine}
    (h : exec w code (start m) = some t) : Reaches code w (start m) t ∧ t.Over code := by
  refine ⟨reaches_of_exec hf (.inl rfl) (Nat.zero_le _) h, ?_⟩
  rw [Over, pc_exec h]
  exact Nat.zero_add _

theorem eq_of_over {code : List Insn} (hf : Forward code) {w : World} {m : Memory} {s t : Machine}
    (h : exec w code (start m) = some t) (hs : Reaches code w (start m) s) (ho : s.Over code) :
    s = t := by
  have hr := (exec_reaches hf (.inl rfl) hs).2
  rw [ho, List.drop_length, exec_nil] at hr
  exact Option.some.inj (hr.trans h)

/-- What was executed on the way belongs to the history of the last state. -/
theorem suffix_history {code : List Insn} (hf : Forward code) {w : World} {m : Memory}
    {s t : Machine} (h : exec w code (start m) = some t) (hs : Reaches code w (start m) s) :
    s.history <:+ t.history :=
  suffix_history_exec ((exec_reaches hf (.inl rfl) hs).2.trans h)

/-! ### Single instructions

A machine that is not on its way to a label executes an instruction that finds its operands on top
of the stack. -/

section
variable {w : World} {is : List Insn} {pc : Nat} {st : List Const} {m : Memory} {h : History}

@[simp] theorem exec_push {c : Const} :
    exec w (.push c :: is) ⟨pc, st, m, h, none⟩ =
      exec w is ⟨pc + 1, c :: st, m, ⟨pc, .push c, [], [c]⟩ :: h, none⟩ := rfl

@[simp] theorem exec_load {ty : ValueType} {s : Slot} :
    exec w (.load ty s :: is) ⟨pc, st, m, h, none⟩ =
      exec w is ⟨pc + 1, m.read ty s :: st, m, ⟨pc, .load ty s, [], [m.read ty s]⟩ :: h, none⟩ :=
  rfl

theorem exec_store {ty : ValueType} {s : Slot} {c : Const} (hc : c.type = ty.carrier) :
    exec w (.store ty s :: is) ⟨pc, c :: st, m, h, none⟩ =
      exec w is ⟨pc + 1, st, m.write s c, ⟨pc, .store ty s, [c], []⟩ :: h, none⟩ := by
  simp [exec_cons, pass, fire, Insn.operands, Insn.results?, hc, Insn.storing, Insn.leap?]

theorem exec_dup {ty : ValueType} {c : Const} (hc : c.type = ty.carrier) :
    exec w (.dup ty :: is) ⟨pc, c :: st, m, h, none⟩ =
      exec w is ⟨pc + 1, c :: c :: st, m, ⟨pc, .dup ty, [c], [c, c]⟩ :: h, none⟩ := by
  simp [exec_cons, pass, fire, Insn.operands, Insn.results?, hc, Insn.storing, Insn.leap?]

@[simp] theorem exec_longToInt {v : Int64} :
    exec w (.longToInt :: is) ⟨pc, .long v :: st, m, h, none⟩ =
      exec w is ⟨pc + 1, .int v.toInt32 :: st, m,
        ⟨pc, .longToInt, [.long v], [.int v.toInt32]⟩ :: h, none⟩ := rfl

@[simp] theorem exec_sub_long {a b : Int64} :
    exec w (.sub .long :: is) ⟨pc, .long b :: .long a :: st, m, h, none⟩ =
      exec w is ⟨pc + 1, .long (a - b) :: st, m,
        ⟨pc, .sub .long, [.long b, .long a], [.long (a - b)]⟩ :: h, none⟩ := rfl

@[simp] theorem exec_readLevel {f : String} :
    exec w (.readLevel f :: is) ⟨pc, st, m, h, none⟩ =
      exec w is ⟨pc + 1, .int (w.level h) :: st, m,
        ⟨pc, .readLevel f, [], [.int (w.level h)]⟩ :: h, none⟩ := rfl

@[simp] theorem exec_label {l : Label} :
    exec w (.label l :: is) ⟨pc, st, m, h, none⟩ =
      exec w is ⟨pc + 1, st, m, ⟨pc, .label l, [], []⟩ :: h, none⟩ := rfl

@[simp] theorem exec_frame {l : Label} :
    exec w (.frame l :: is) ⟨pc, st, m, h, none⟩ =
      exec w is ⟨pc + 1, st, m, ⟨pc, .frame l, [], []⟩ :: h, none⟩ := rfl

theorem exec_jump_one {c : Cond} {l : Label} {v : Int32} (hc : c.operands = 1) :
    exec w (.jump c l :: is) ⟨pc, .int v :: st, m, h, none⟩ =
      exec w is ⟨pc + 1, st, m, ⟨pc, .jump c l, [.int v], []⟩ :: h,
        if c.holds [.int v] then some l else none⟩ := by
  cases c <;> first | rfl | cases hc

theorem exec_jump_two {c : Cond} {l : Label} {a b : Int32} (hc : c.operands = 2) :
    exec w (.jump c l :: is) ⟨pc, .int b :: .int a :: st, m, h, none⟩ =
      exec w is ⟨pc + 1, st, m, ⟨pc, .jump c l, [.int b, .int a], []⟩ :: h,
        if c.holds [.int b, .int a] then some l else none⟩ := by
  cases c <;> first | rfl | cases hc

/-- The machine arrives at the label that it is going to. -/
@[simp] theorem exec_label_going {l : Label} :
    exec w (.label l :: is) ⟨pc, st, m, h, some l⟩ =
      exec w (.label l :: is) ⟨pc, st, m, h, none⟩ := by
  simp [exec_cons, pass]

end

end Machine

end MethodProbes
