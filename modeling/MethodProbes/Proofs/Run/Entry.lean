import MethodProbes.Proofs.Expansion.Coherent
import MethodProbes.Proofs.Run.Notes

/-!
# Running an entry

The first entry of a cycle either makes its call, whose result the variables of the entry then hold,
or skips it and leaves zero in them.
-/
namespace MethodProbes

open Step Machine History

/-- The flag that the result of a call stands for; of a time only the low 32 bits count. -/
def Const.flag : Const → Const
  | int v => int v
  | long v => int v.toInt32

def ProbeCall.arguments (c : ProbeCall) (id : Int32) : List Const :=
  if c = .nanoTime then [] else [.int id]

namespace Context

section
variable (x : Context) {w : World} {σ : Layout}

/-- What is noted of zeroes stored as the duration. -/
structure Zeroes (σ : Layout) (zs : History) (s t : Machine) : Prop where
  store : ∀ e ∈ zs, e.insn = .store .long (σ.slot .duration) ∧ e.popped = [.long 0]
  value : t.memory.get σ .duration = if zs = [] then s.memory.get σ .duration else .long 0

theorem exists_define_duration {s : Machine} (hs : s.going = none) :
    ∃ zs t, exec w (written σ (x.define .duration)) s = some t ∧ t.going = none ∧
      t.stack = s.stack ∧ (∀ v, v ≠ .duration → t.memory.get σ v = s.memory.get σ v) ∧
      Zeroes σ zs s t ∧ notes (σ.slot .duration) t.history =
        zs ++ notes (σ.slot .duration) s.history ∧
      (zs ≠ [] ↔ x.cycle.isBound .duration = false) := by
  obtain ⟨pc, st, m, h, _⟩ := s
  obtain rfl : _ = none := hs
  cases hb : x.cycle.isBound .duration with
  | true =>
    rw [define_of_bound hb]
    exact ⟨[], _, rfl, rfl, rfl, fun _ _ => rfl, ⟨by simp, rfl⟩, rfl, by simp⟩
  | false =>
    have hcode : written σ (x.define .duration) =
        [.push (.long 0), .store .long (σ.slot .duration)] := by
      simp [define, hb, insns, Var.type, Const.zero]
    have hget (v : Var) : (m.set σ .duration (.long 0)).get σ v =
        if v = .duration then .long 0 else m.get σ v := Memory.get_set m σ rfl
    rw [hcode]
    refine ⟨[⟨pc + 1, .store .long (σ.slot .duration), [.long 0], []⟩], _,
      exec_push.trans (exec_store rfl), rfl, rfl, fun v hv => ?_, ⟨?_, ?_⟩, ?_, ?_⟩
    · exact (hget v).trans (if_neg hv)
    · simp
    · exact (hget .duration).trans (if_pos rfl)
    · rw [notes_cons_of_tells (by simp [Insn.tells]), notes_cons_of_not_tells rfl]
      rfl
    · simp

theorem exists_entryCode (hT : x.tracking.Sound) {call : ProbeCall}
    (hcall : x.tracking.call? = some call) {s : Machine} (hs : s.going = none) :
    ∃ e r t, exec w (written σ (x.entryCode call)) s = some t ∧ t.going = none ∧
      t.stack = s.stack ∧ e.insn = .invoke call.callee ∧
      e.popped = call.arguments x.methodId ∧ e.pushed = [r] ∧
      notes (σ.slot .duration) t.history = e :: notes (σ.slot .duration) s.history ∧
      (x.tracking.timed = true → t.memory.get σ .entryTs = r) ∧
      (x.tracking.isSampled = true → t.memory.get σ .sampleHit = r.flag) ∧
      ∀ v, v ≠ .entryTs → v ≠ .sampleHit → t.memory.get σ v = s.memory.get σ v := by
  obtain ⟨pc, st, m, h, _⟩ := s
  obtain rfl : _ = none := hs
  have hset {m : Memory} {v u : Var} {c : Const} (hc : c.type = v.type) :
      (m.set σ v c).get σ u = if u = v then c else m.get σ u := Memory.get_set m σ hc
  have hts : σ.slot .entryTs ≠ σ.slot .duration := σ.slot_ne (by simp)
  -- the history in which a call with the method's id is made
  let h' : History := ⟨pc, .push (.int x.methodId), [], [.int x.methodId]⟩ :: h
  rw [Tracking.call?] at hcall
  rw [entryCode]
  cases hm : x.tracking.isSampled with
  | true =>
    obtain ⟨n, k, hk, -⟩ := Tracking.sampling?_of_sampled hT hm
    rw [hk] at hcall
    cases hcall
    have hp : (k.hitCall x.tracking.timed).callee.params = [.int] := by
      cases k <;> cases x.tracking.timed <;> rfl
    have hargs : [Const.int x.methodId] = (k.hitCall x.tracking.timed).arguments x.methodId := by
      cases k <;> cases x.tracking.timed <;> rfl
    cases ht : x.tracking.timed with
    | true =>
      rw [ht] at hp hargs
      have hr : (k.hitCall true).callee.ret = some .long := by cases k <;> rfl
      refine ⟨⟨pc + 1, .invoke _, [.int x.methodId], [_]⟩, w.answer h' .long, _,
        exec_push.trans ((exec_invoke_id hp hr).trans ((exec_dup rfl).trans
        ((exec_store_var rfl).trans (exec_longToInt.trans (exec_store_var rfl))))), rfl, rfl, rfl,
        hargs, rfl, ?_, fun _ => ?_, fun _ => ?_, fun v hv hv' => ?_⟩
      · simp [notes, Insn.tells, Var.type, hts, h']
      · rw [hset rfl, if_neg (by simp), hset rfl, if_pos rfl]
      · rw [hset rfl, if_pos rfl]
        rfl
      · rw [hset rfl, if_neg hv', hset rfl, if_neg hv]
    | false =>
      rw [ht] at hp hargs
      have hr : (k.hitCall false).callee.ret = some .bool := by cases k <;> rfl
      refine ⟨⟨pc + 1, .invoke _, [.int x.methodId], [_]⟩, w.answer h' .bool, _,
        exec_push.trans ((exec_invoke_id hp hr).trans (exec_store_var rfl)), rfl, rfl, rfl, hargs,
        rfl, ?_, by simp, fun _ => ?_, fun v hv hv' => ?_⟩
      · simp [notes, Insn.tells, Var.type, h']
      · rw [hset rfl, if_pos rfl]
        rfl
      · rw [hset rfl, if_neg hv']
  | false =>
    rw [Tracking.sampling?_of_not_sampled hm] at hcall
    cases ht : x.tracking.timed with
    | false =>
      rw [ht] at hcall
      cases hcall
    | true =>
      rw [ht] at hcall
      cases hcall
      refine ⟨⟨pc, .invoke _, [], [_]⟩, w.answer h .long, _,
        (exec_invoke rfl rfl).trans (exec_store_var rfl), rfl, rfl, rfl, rfl, rfl, ?_, fun _ => ?_,
        by simp, fun v hv hv' => ?_⟩
      · simp [notes, Insn.tells, Var.type, hts]
      · rw [hset rfl, if_pos rfl]
      · rw [hset rfl, if_neg hv]

theorem label_notMem_entryCode (call : ProbeCall) (l : Label) :
    .label l ∉ written σ (x.entryCode call) := by
  rw [entryCode]
  split <;> simp [callWithId, insns]

theorem written_gated (vs : List Var) (code : List Step) :
    written σ (x.gated vs code) = written σ (x.guard vs none x.nextLabel).1 ++
      (written σ code ++ written σ ((x.guard vs none x.nextLabel).2.elim [] Step.merge)) := by
  rw [gated_eq, written_append, written_append, List.append_assoc]

/-- What the first entry of a cycle does at level `L`. -/
inductive EntryRun (σ : Layout) (s t : Machine) (L : Int32) (zs : History) : Prop
  | skipped (skips : x.tracking.gate.Skips L)
    (vars : ∀ v ∈ x.tracking.entryVars, t.memory.get σ v = .zero v.type)
    (noted : notes (σ.slot .duration) t.history = zs ++ notes (σ.slot .duration) s.history)
  | called {e : Entry} {call : ProbeCall} {r : Const} (passes : ¬ x.tracking.gate.Skips L)
    (insn : e.insn = .invoke call.callee) (call_eq : x.tracking.call? = some call)
    (arguments : e.popped = call.arguments x.methodId) (result : e.pushed = [r])
    (time : x.tracking.timed = true → t.memory.get σ .entryTs = r)
    (hit : x.tracking.isSampled = true → t.memory.get σ .sampleHit = r.flag)
    (noted : notes (σ.slot .duration) t.history = e :: zs ++ notes (σ.slot .duration) s.history)

/-- The duration has a value behind the first entry of a timed method. -/
theorem exists_define_timed {s : Machine} (hs : s.going = none) :
    ∃ zs t, exec w (written σ (if x.tracking.timed then x.define .duration else [])) s = some t ∧
      t.going = none ∧ t.stack = s.stack ∧ t.memory.get σ .level = s.memory.get σ .level ∧
      Zeroes σ zs s t ∧
      notes (σ.slot .duration) t.history = zs ++ notes (σ.slot .duration) s.history ∧
      (zs ≠ [] ↔ x.tracking.timed = true ∧ x.cycle.isBound .duration = false) := by
  cases ht : x.tracking.timed with
  | true =>
    obtain ⟨zs, t, hrun, hgo, hst, hvar, hz, hn, hdef⟩ := x.exists_define_duration (σ := σ) hs
    exact ⟨zs, t, hrun, hgo, hst, hvar .level (by simp), hz, hn, by simp [hdef]⟩
  | false => exact ⟨[], s, rfl, hs, rfl, rfl, ⟨by simp, rfl⟩, rfl, by simp⟩

theorem guard_snd_of_skips {L : Int32} (h : x.tracking.gate.Skips L) (vs : List Var)
    (given : Option Label) (n : Nat) : (x.guard vs given n).2 = some (skipLabel given n) := by
  cases hg : x.tracking.gate with
  | openGate =>
    rw [hg] at h
    exact absurd h (Gate.not_skips_openGate L)
  | skipping rs => rw [x.guard_skipping hg]

/-- The first entry of a cycle makes its call, or skips it and leaves zero. -/
theorem exists_entry_run (hT : x.tracking.Sound) (hx : ¬ x.cycle.Entered) {call : ProbeCall}
    (hcall : x.tracking.call? = some call) {s : Machine} (hs : s.going = none) :
    ∃ t L zs, exec w (written σ x.entrySteps) s = some t ∧ t.going = none ∧
      t.stack = s.stack ∧ Zeroes σ zs s t ∧
      (zs ≠ [] ↔ x.tracking.timed = true ∧ x.cycle.isBound .duration = false) ∧
      (x.tracking.gate.comparesLevel = true → t.memory.get σ .level = .int L) ∧
      x.Judges σ L s t ∧ x.EntryRun σ s t L zs := by
  obtain ⟨zs, u, hu, hgo, hst, hkeptLevel, hz, hn, hdef⟩ := x.exists_define_timed (w := w) (σ := σ) hs
  have hlevel : .level ∉ x.tracking.entryVars := by simp [Tracking.mem_entryVars]
  have hduration : .duration ∉ x.tracking.entryVars := by simp [Tracking.mem_entryVars]
  have hnone : ∀ k ∈ (none : Option Label), k.id < x.nextLabel := nofun
  obtain ⟨L, v, hv, hg, hj, hkept, hsilent⟩ :=
    x.exists_silent_guard (w := w) (σ := σ) hgo hlevel hduration hnone
  have hjs : x.Judges σ L s v := by
    refine hj.before hu (fun i hi => ?_) hkeptLevel
    split at hi
    · exact x.readsLevel_of_mem_define hi
    · cases hi
  rw [entrySteps_of_fresh hT hx hcall, written_append, exec_append_of hu, written_gated,
    exec_append_of hv]
  by_cases hL : x.tracking.gate.Skips L
  · have hgo := hg.going
    rw [if_pos hL] at hgo
    rw [x.guard_snd_of_skips hL] at hgo ⊢
    obtain ⟨t, ht, hat, hgo⟩ := exists_skip (w := w) (d := σ.slot .duration) hgo
      (x.label_notMem_entryCode (σ := σ) call _)
    refine ⟨t, L, zs, ht, hgo, ?_, ⟨hz.store, ?_⟩, hdef, ?_,
      hjs.behind (suffix_history_exec ht), .skipped hL ?_ ?_⟩
    · rw [hat.stack, hg.stack, hst]
    · rw [hat.memory, hkept, hz.value]
    · rw [hat.memory]
      exact hg.level
    · intro y hy
      have hopen : x.tracking.gate ≠ .openGate := fun h => Gate.not_skips_openGate L (h ▸ hL)
      have hunbound : x.cycle.isBound y = false := by
        rcases Tracking.mem_entryVars.1 hy with ⟨rfl, -⟩ | ⟨rfl, -⟩
        · exact Bool.eq_false_iff.2 fun h => hx (.inl h)
        · exact Bool.eq_false_iff.2 fun h => hx (.inr h)
      have hne : y ≠ .level := fun h => hlevel (h ▸ hy)
      rw [hat.memory, hg.get y hne, if_pos ⟨hopen, hy, hunbound⟩]
    · rw [hat.notes, hsilent, hn]
  · have hgo := hg.going
    rw [if_neg hL] at hgo
    obtain ⟨e, r, a, ha, hgo, hsta, hins, hargs, hres, hna, hts, hhit, hvar⟩ :=
      x.exists_entryCode (w := w) (σ := σ) hT hcall hgo
    obtain ⟨t, ht, hat, hgo⟩ : ∃ t, exec w (written σ
        ((x.guard x.tracking.entryVars none x.nextLabel).2.elim [] Step.merge)) a = some t ∧
        Alike (σ.slot .duration) a t ∧ t.going = none := by
      cases (x.guard x.tracking.entryVars none x.nextLabel).2 with
      | none => exact ⟨a, rfl, ⟨rfl, rfl, rfl⟩, hgo⟩
      | some l => exact exists_done hgo
    have hrun := (exec_append_of ha _).trans ht
    refine ⟨t, L, zs, hrun, hgo, ?_, ⟨hz.store, ?_⟩, hdef, ?_,
      hjs.behind (suffix_history_exec hrun), .called hL hins hcall hargs hres ?_ ?_ ?_⟩
    · rw [hat.stack, hsta, hg.stack, hst]
    · rw [hat.memory, hvar .duration (by simp) (by simp), hkept, hz.value]
    · rw [hat.memory, hvar .level (by simp) (by simp)]
      exact hg.level
    · rw [hat.memory]
      exact hts
    · rw [hat.memory]
      exact hhit
    · rw [hat.notes, hna, hsilent, hn]
      rfl

end

end Context

end MethodProbes
