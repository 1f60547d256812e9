import MethodProbes.Proofs.Machine.Pass

/-!
# Jumps out of code

A machine is still on its way to a label behind some code if and only if a jump in the code has left
for the label and the code does not place it.
-/
namespace MethodProbes.Machine

variable {w : World} {code : List Insn} {s t : Machine} {l : Label}

/-- A step over one instruction, with what it adds to the history. -/
theorem pass_cases {i : Insn} (h : pass w s i = some t) :
    (∃ e : Entry, e.insn = i ∧ t.history = e :: s.history ∧ t.going = i.leap? e.popped) ∨
      t.history = s.history ∧ t.going = s.going ∧ ∃ l, s.going = some l ∧ i ≠ .label l := by
  have hfire {u : Machine} (hu : u.history = s.history) (h : u.fire w i = some t) :
      ∃ e : Entry, e.insn = i ∧ t.history = e :: s.history ∧ t.going = i.leap? e.popped := by
    obtain ⟨pushed, -, rfl⟩ := fire_eq_some h
    exact ⟨_, rfl, congrArg _ hu, rfl⟩
  rw [pass] at h
  split at h
  · exact .inl (hfire rfl h)
  next l hl =>
    split at h
    · exact .inl (hfire rfl h)
    next hi =>
      cases h
      exact .inr ⟨rfl, rfl, l, hl, hi⟩

/-- A run of code begins with its first instruction, which is executed or passed by. -/
theorem exec_cons_cases {i : Insn} {es : History} (h : exec w (i :: code) s = some t)
    (hes : t.history = es ++ s.history) :
    ∃ u ds, exec w code u = some t ∧ t.history = ds ++ u.history ∧
      ((∃ e : Entry, e.insn = i ∧ es = ds ++ [e] ∧ u.going = i.leap? e.popped) ∨
        es = ds ∧ u.going = s.going ∧ ∃ l, s.going = some l ∧ i ≠ .label l) := by
  obtain ⟨u, hu, h⟩ := Option.bind_eq_some_iff.1 h
  obtain ⟨ds, hds, -⟩ := history_exec h
  refine ⟨u, ds, h, hds, ?_⟩
  rcases pass_cases hu with ⟨e, hi, hh, hg⟩ | ⟨hh, hg, hl⟩
  · refine .inl ⟨e, hi, ?_, hg⟩
    rw [hds, hh, ← List.singleton_append, ← List.append_assoc] at hes
    exact (List.append_cancel_right hes).symm
  · refine .inr ⟨?_, hg, hl⟩
    rw [hds, hh] at hes
    exact (List.append_cancel_right hes).symm

/-- After a jump to a label that the code does not place, the machine is still on its way. -/
theorem going_of_leap {es : History} (h : exec w code s = some t)
    (hes : t.history = es ++ s.history) {e : Entry} (he : e ∈ es)
    (hl : e.insn.leap? e.popped = some l) (hno : .label l ∉ code) : t.going = some l := by
  induction code generalizing s es with
  | nil =>
    cases h
    have hnil : es = [] := List.append_left_eq_self.1 hes.symm
    rw [hnil] at he
    cases he
  | cons i code ih =>
    have hrest : .label l ∉ code := fun hm => hno (List.mem_cons_of_mem _ hm)
    obtain ⟨u, ds, hu, hds, ⟨d, hi, rfl, hg⟩ | ⟨rfl, -⟩⟩ := exec_cons_cases h hes
    · rw [List.mem_append, List.mem_singleton] at he
      rcases he with he | rfl
      · exact ih hu hds he hrest
      · have hgo : u.going = some l := by rw [hg, ← hi, hl]
        rw [exec_of_notMem hgo hrest] at hu
        cases hu
        exact hgo
    · exact ih hu hds he hrest

/-- A machine on its way has been so before the code or has left it by a jump. -/
theorem exists_leap_of_going (hf : Forward code) {es : History} (h : exec w code s = some t)
    (hes : t.history = es ++ s.history) (hl : t.going = some l) :
    .label l ∉ code ∧ (s.going = some l ∨ ∃ e ∈ es, e.insn.leap? e.popped = some l) := by
  induction code generalizing s es with
  | nil =>
    cases h
    exact ⟨List.not_mem_nil, .inl hl⟩
  | cons i code ih =>
    obtain ⟨hhead, hf⟩ := List.pairwise_cons.1 hf
    obtain ⟨u, ds, hu, hds, hcases⟩ := exec_cons_cases h hes
    obtain ⟨hno, hgo⟩ := ih hf hu hds
    -- a jump of the rest does not go back to the first instruction
    have hback {e : Entry} (he : e ∈ ds) (hle : e.insn.leap? e.popped = some l) :
        .label l ∉ i :: code := by
      obtain ⟨es, hes, hmem⟩ := history_exec hu
      obtain rfl : ds = es := List.append_cancel_right (hds.symm.trans hes)
      obtain ⟨c, hc, -⟩ := eq_jump_of_leap? hle
      rw [List.mem_cons, not_or]
      refine ⟨fun hi => hhead _ (List.mem_of_getElem? (hmem e he).2) l hi.symm ?_, hno⟩
      rw [hc]
      rfl
    rcases hcases with ⟨d, hi, rfl, hg⟩ | ⟨rfl, hg, k, hk, hik⟩
    · rcases hgo with hgo | ⟨e, he, hle⟩
      · have hleap : i.leap? d.popped = some l := hg.symm.trans hgo
        obtain ⟨c, rfl, -⟩ := eq_jump_of_leap? hleap
        refine ⟨by simpa using hno, .inr ⟨d, ?_, hi ▸ hleap⟩⟩
        simp
      · exact ⟨hback he hle, .inr ⟨e, by simp [he], hle⟩⟩
    · rcases hgo with hgo | ⟨e, he, hle⟩
      · obtain rfl : k = l := Option.some.inj (hk.symm.trans (hg.symm.trans hgo))
        exact ⟨List.not_mem_cons_of_ne_of_not_mem hik.symm hno, .inl hk⟩
      · exact ⟨hback he hle, .inr ⟨e, he, hle⟩⟩

end MethodProbes.Machine
