import MethodProbes.Proofs.Level.GuardRun

/-!
# What is noted of a run

Of what a run executes, only calls, subtractions and stores of the duration matter to what is
measured and told.  Guards execute none of these.
-/
namespace MethodProbes

open Step Machine

/-- The instruction calls, subtracts, or stores into slot `d`. -/
def Insn.tells (d : Slot) : Insn → Bool
  | invoke _ | sub _ => true
  | store .long s => s == d
  | _ => false

/-- The entries of a history that matter, for the duration in slot `d`. -/
def History.notes (d : Slot) (h : History) : History := h.filter (·.insn.tells d)

namespace History

variable {d : Slot} {e : Entry} {h : History}

theorem notes_cons_of_tells (he : e.insn.tells d = true) : notes d (e :: h) = e :: notes d h :=
  List.filter_cons_of_pos he

theorem notes_cons_of_not_tells (he : e.insn.tells d = false) : notes d (e :: h) = notes d h :=
  List.filter_cons_of_neg (by simp [he])

theorem notes_exec {w : World} {code : List Insn} {s t : Machine}
    (h : exec w code s = some t) (hc : ∀ i ∈ code, i.tells d = false) :
    notes d t.history = notes d s.history := by
  obtain ⟨es, hes, hmem⟩ := history_exec h
  have hnil : es.filter (·.insn.tells d) = [] :=
    List.filter_eq_nil_iff.2 fun e he => by
      simp [hc _ (List.mem_of_getElem? (hmem e he).2)]
  rw [notes, hes, List.filter_append, hnil, List.nil_append]
  rfl

/-- What is added to the notes is noted of what is added to the history. -/
theorem notes_of_append {g es ns : History} (hes : g = es ++ h)
    (hn : notes d g = ns ++ notes d h) : notes d es = ns := by
  rw [hes, notes, List.filter_append] at hn
  exact List.append_cancel_right hn

theorem mem_notes : e ∈ notes d h ↔ e ∈ h ∧ e.insn.tells d = true := List.mem_filter

/-- Every executed instruction stands in a relation to the history before it. -/
def Throughout (P : History → Entry → Prop) (h : History) : Prop :=
  ∀ e pre, e :: pre <:+ h → P pre e

theorem throughout_nil (P : History → Entry → Prop) : Throughout P [] := fun e pre he =>
  absurd (List.suffix_nil.1 he) (List.cons_ne_nil e pre)

theorem Throughout.cons {P : History → Entry → Prop} (hh : Throughout P h) (he : P h e) :
    Throughout P (e :: h) := by
  intro d pre hs
  rcases List.suffix_cons_iff.1 hs with hs | hs
  · cases hs
    exact he
  · exact hh d pre hs

theorem Throughout.append {P : History → Entry → Prop} {g : History} (hh : Throughout P h)
    (hg : ∀ e ∈ g, ∀ pre, P (pre ++ h) e) : Throughout P (g ++ h) := by
  induction g with
  | nil => exact hh
  | cons d g ih =>
    exact (ih fun e he => hg e (List.mem_cons_of_mem d he)).cons (hg d List.mem_cons_self g)

/-- What holds of noted entries alone is found among the notes. -/
theorem filter_notes {P : Entry → Bool} (hP : ∀ e, P e = true → e.insn.tells d = true)
    (h : History) : (notes d h).filter P = h.filter P := by
  rw [notes, List.filter_filter]
  apply List.filter_congr
  intro e _
  cases he : P e with
  | true => simp [hP e he]
  | false => rfl

end History

open History

namespace Machine

section
variable {w : World} {is : List Insn} {pc : Nat} {st : List Const} {m : Memory} {h : History}

theorem exec_invoke_id {f : Callee} (hp : f.params = [.int]) {ty : ValueType}
    (hr : f.ret = some ty) {v : Int32} :
    exec w (.invoke f :: is) ⟨pc, .int v :: st, m, h, none⟩ =
      exec w is ⟨pc + 1, w.answer h ty :: st, m,
        ⟨pc, .invoke f, [.int v], [w.answer h ty]⟩ :: h, none⟩ := by
  simp [exec_cons, pass, fire, Insn.operands, Insn.results?, Insn.storing, Insn.leap?, hp, hr,
    Const.type, ValueType.carrier]

theorem exec_invoke {f : Callee} (hp : f.params = []) {ty : ValueType} (hr : f.ret = some ty) :
    exec w (.invoke f :: is) ⟨pc, st, m, h, none⟩ =
      exec w is ⟨pc + 1, w.answer h ty :: st, m,
        ⟨pc, .invoke f, [], [w.answer h ty]⟩ :: h, none⟩ := by
  simp [exec_cons, pass, fire, Insn.operands, Insn.results?, Insn.storing, Insn.leap?, hp, hr]

theorem exec_invoke_unit {f : Callee} (hp : f.params = [.int]) (hr : f.ret = none) {v : Int32} :
    exec w (.invoke f :: is) ⟨pc, .int v :: st, m, h, none⟩ =
      exec w is ⟨pc + 1, st, m, ⟨pc, .invoke f, [.int v], []⟩ :: h, none⟩ := by
  simp [exec_cons, pass, fire, Insn.operands, Insn.results?, Insn.storing, Insn.leap?, hp, hr,
    Const.type, ValueType.carrier]

end

/-- The machines differ at most in where they are and in entries that do not matter. -/
structure Alike (d : Slot) (s t : Machine) : Prop where
  stack : t.stack = s.stack
  memory : t.memory = s.memory
  notes : notes d t.history = notes d s.history

variable {w : World} {d : Slot} {s t u : Machine} {code : List Insn} {l : Label}

theorem Alike.trans (h : Alike d s t) (h' : Alike d t u) : Alike d s u :=
  ⟨h'.stack.trans h.stack, h'.memory.trans h.memory, h'.notes.trans h.notes⟩

theorem exists_pass (hs : s.going = some l) (hl : .label l ∉ code) :
    ∃ t, exec w code s = some t ∧ Alike d s t ∧ t.going = some l :=
  ⟨_, exec_of_notMem hs hl, ⟨rfl, rfl, rfl⟩, hs⟩

theorem exists_arrive (hs : s.going = some l) :
    ∃ t, exec w [.label l, .frame l] s = some t ∧ Alike d s t ∧ t.going = none := by
  obtain ⟨pc, st, m, h, _⟩ := s
  obtain rfl : _ = some l := hs
  exact ⟨_, exec_label_going.trans (exec_label.trans exec_frame), ⟨rfl, rfl, rfl⟩, rfl⟩

theorem exists_skip (hs : s.going = some l) (hl : .label l ∉ code) :
    ∃ t, exec w (code ++ [.label l, .frame l]) s = some t ∧ Alike d s t ∧ t.going = none := by
  obtain ⟨a, ha, haa, hgo⟩ := exists_pass hs hl
  obtain ⟨t, ht, hat, hgo⟩ := exists_arrive hgo
  exact ⟨t, (exec_append_of ha _).trans ht, haa.trans hat, hgo⟩

/-- A machine on its way through goes on behind a label. -/
theorem exists_done (hs : s.going = none) :
    ∃ t, exec w [.label l, .frame l] s = some t ∧ Alike d s t ∧ t.going = none := by
  obtain ⟨pc, st, m, h, _⟩ := s
  obtain rfl : _ = none := hs
  exact ⟨_, exec_label.trans exec_frame, ⟨rfl, rfl, rfl⟩, rfl⟩

end Machine

theorem Layout.slot_ne (σ : Layout) {v u : Var} (h : v ≠ u) : σ.slot v ≠ σ.slot u :=
  (σ.apart v u h).ne

namespace Context

variable (x : Context) {w : World} {σ : Layout}

/-- A guard is silent if it does not define the duration. -/
theorem not_tells_of_mem_guard {vs : List Var} (hvs : .duration ∉ vs) {given : Option Label}
    {n : Nat} {i : Insn} (h : i ∈ written σ (x.guard vs given n).1) :
    i.tells (σ.slot .duration) = false := by
  cases hg : x.tracking.gate with
  | openGate =>
    rw [x.guard_openGate hg] at h
    cases h
  | skipping rs =>
    rw [x.written_skipping hg, List.mem_append] at h
    rcases h with h | h
    · obtain ⟨v, hv, rfl | rfl⟩ := x.insn_of_mem_defineAll h
      · rfl
      · have hne : v ≠ .duration := fun h => hvs (h ▸ hv)
        have hslot := σ.slot_ne hne
        cases v with
        | entryTs => simpa [Insn.tells, Var.type] using hslot
        | duration => exact absurd rfl hne
        | sampleHit | level => rfl
    · cases Gate.gateInsn_of_mem h <;> rfl

/-- A guard that does not define the duration keeps it. -/
theorem exists_silent_guard {s : Machine} (hs : s.going = none) {vs : List Var}
    (hlevel : .level ∉ vs) (hduration : .duration ∉ vs) {given : Option Label} {n : Nat}
    (hgiven : ∀ k ∈ given, k.id < n) :
    ∃ L t, exec w (written σ (x.guard vs given n).1) s = some t ∧
      x.Guarded σ vs (x.guard vs given n).2 L s t ∧
      x.Judges σ L s t ∧ t.memory.get σ .duration = s.memory.get σ .duration ∧
      notes (σ.slot .duration) t.history = notes (σ.slot .duration) s.history := by
  obtain ⟨L, t, ht, hg, hr⟩ := x.exists_guarded (w := w) (σ := σ) hs hlevel hgiven
  refine ⟨L, t, ht, hg, ⟨fun hb => (hg.bound hb).1, hr⟩, ?_, ?_⟩
  · rw [hg.get .duration (by simp), if_neg fun h => hduration h.2.1]
  · exact notes_exec ht fun i hi => x.not_tells_of_mem_guard hduration hi

end Context

end MethodProbes
