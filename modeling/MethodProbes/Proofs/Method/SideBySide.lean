import MethodProbes.Method.Job
import MethodProbes.Proofs.Maps
import MethodProbes.Proofs.Method.Registrations

/-!
# Batches side by side

However the turns of its jobs are mixed, a batch whose methods all succeed has the methods that it has
one by one, and its table has the same ids.  The tables differ only in whose mean an id has got that
several methods ask for, each with a mean of its own.
-/
namespace MethodProbes

namespace Body

def effectiveMean? (b : Body) (settings : Settings) : Option Nat :=
  ((Expander.new b.methodId settings).recordAll b.markers).toOption.bind (·.tracking.mean.get?)

def Registers (b : Body) (settings : Settings) (firstSlot : UInt16) (id : Nat) : Prop :=
  ∃ r ∈ b.registrations settings firstSlot, r.methodId = id

/-- A method asks for all its counters with its own mean. -/
theorem effectiveMean?_of_mem {b : Body} {settings : Settings} {firstSlot : UInt16}
    {r : Registration} (h : r ∈ b.registrations settings firstSlot) :
    b.effectiveMean? settings = some r.mean := by
  rw [registrations] at h
  rw [effectiveMean?]
  split at h
  · cases h
  next x hx =>
    split at h
    · cases h
    next n hn =>
      obtain ⟨m, -, hm⟩ := List.mem_filterMap.1 h
      obtain ⟨id, -, rfl⟩ := Option.map_eq_some_iff.1 hm
      rw [hx]
      exact hn

end Body

namespace Job

/-- What comes of a job, and the counters that it has still to ask for. -/
def ahead : Job → Attempt
  | .recording body firstSlot x ms =>
    match x.recordAll ms with
    | .error e => ⟨[], .error e⟩
    | .ok y =>
      let t := y.expandAll (.empty firstSlot) 0 body.markers
      ⟨t.registrations, t.error.elim
        (.ok ⟨body.name, body.methodId, y.tracking, t.buffer.insns, t.spans, t.buffer.slots.size⟩)
        .error⟩
  | .expanding body x b spans ms =>
    let t := x.expandAll b b.insns.size ms
    ⟨t.registrations, t.error.elim
      (.ok ⟨body.name, body.methodId, x.tracking, t.buffer.insns, spans ++ t.spans,
        t.buffer.slots.size⟩)
      .error⟩
  | .finished result => ⟨[], result⟩

theorem ahead_start (settings : Settings) (firstSlot : UInt16) (b : Body) :
    (start settings firstSlot b).ahead = b.attempt settings firstSlot := by
  rw [start, ahead, Body.attempt]
  cases (Expander.new b.methodId settings).recordAll b.markers with
  | error e => rfl
  | ok x => cases h : (x.expandAll (.empty firstSlot) 0 b.markers).error <;> simp [h]

/-- A turn takes from what is ahead the counter that it registers, and nothing else. -/
theorem ahead_step (j : Job) :
    j.ahead.registrations = j.step.2.toList ++ j.step.1.ahead.registrations ∧
      j.step.1.ahead.result = j.ahead.result := by
  cases j with
  | recording body firstSlot x ms =>
    cases ms with
    | nil => exact ⟨rfl, rfl⟩
    | cons m ms =>
      have hrecord : x.recordAll (m :: ms) = (x.record m).bind (·.recordAll ms) := rfl
      rw [step, ahead, hrecord]
      cases x.record m with
      | error e => exact ⟨rfl, rfl⟩
      | ok y => exact ⟨rfl, rfl⟩
  | expanding body x b spans ms =>
    cases ms with
    | nil => exact ⟨rfl, by simp [step, ahead, Expander.expandAll]⟩
    | cons m ms =>
      have htracking := (x.expand_keeps m b).2
      rw [step, ahead, Expander.expandAll]
      rcases he : x.expand m b with ⟨y, c, r, _ | e⟩
      · rw [he] at htracking
        have htracking : y.tracking = x.tracking := htracking
        exact ⟨rfl, by simp [ahead, htracking]⟩
      · exact ⟨(List.append_nil _).symm, rfl⟩
  | finished result => exact ⟨rfl, rfl⟩

theorem ahead_of_result? {j : Job} {result : Except MarkerError ProbedMethod}
    (h : j.result? = some result) : j.ahead = ⟨[], result⟩ := by
  cases j <;> cases h
  rfl

end Job

namespace Workshop

/-- The counters that have been asked for, and what the jobs have ahead, make up the attempts at the
methods. -/
structure Underway (c : Counters) (attempts : List Attempt) (w : Workshop) : Prop where
  results : w.jobs.map (·.ahead.result) = attempts.map (·.result)
  counters : ∃ rs, w.counters = c.registerAll rs ∧
    ∀ r, (r ∈ rs ∨ ∃ j ∈ w.jobs, r ∈ j.ahead.registrations) ↔ ∃ a ∈ attempts, r ∈ a.registrations

variable {c : Counters} {attempts : List Attempt} {w : Workshop}

theorem underway_opened (s : BatchSettings) (c : Counters) (bs : List Body) :
    (opened s c bs).Underway c (bs.map (·.attempt s.toSettings s.firstSlot)) := by
  refine ⟨?_, [], rfl, fun r => ?_⟩
  · simp [opened, Function.comp_def, Job.ahead_start]
  · simp [opened, Job.ahead_start]

/-- Whoever has a turn, the batch comes to the same. -/
theorem Underway.turn (h : w.Underway c attempts) (i : Nat) : (w.turn i).Underway c attempts := by
  obtain ⟨hresults, rs, hcounters, hrs⟩ := h
  rw [Workshop.turn]
  cases hj : w.jobs[i]? with
  | none => exact ⟨hresults, rs, hcounters, hrs⟩
  | some j =>
    obtain ⟨hlt, hget⟩ := List.getElem?_eq_some_iff.1 hj
    obtain ⟨hregistrations, hresult⟩ := j.ahead_step
    obtain ⟨pre, post, hjobs, -, hset⟩ := @List.exists_of_set _ i j.step.1 w.jobs hlt
    rw [hget] at hjobs
    refine ⟨?_, rs ++ j.step.2.toList, ?_, fun r => ?_⟩
    · dsimp only
      rw [hset, ← hresults, hjobs]
      simp [hresult]
    · dsimp only
      rw [hcounters, Counters.registerAll_append]
    · dsimp only
      rw [← hrs, hset, hjobs]
      simp only [List.mem_append, List.mem_cons, exists_or, or_and_right, exists_eq_left,
        hregistrations, or_assoc, or_left_comm]

theorem Underway.run (h : w.Underway c attempts) (schedule : List Nat) :
    (w.run schedule).Underway c attempts := by
  induction schedule generalizing w with
  | nil => exact h
  | cons i schedule ih => exact ih (h.turn i)

/-- A batch that is done has the results of the attempts, and has asked for all their counters. -/
theorem Underway.of_finished (h : w.Underway c attempts) (hw : w.Finished) :
    w.results = attempts.map (fun a => some a.result) ∧
      ∃ rs, w.counters = c.registerAll rs ∧ ∀ r, r ∈ rs ↔ ∃ a ∈ attempts, r ∈ a.registrations := by
  have hahead {j : Job} (hj : j ∈ w.jobs) : ∃ result, j.result? = some result :=
    Option.isSome_iff_exists.1 (hw _ (List.mem_map_of_mem hj))
  obtain ⟨hresults, rs, hcounters, hrs⟩ := h
  refine ⟨?_, rs, hcounters, fun r => ?_⟩
  · have hsome : w.results = (w.jobs.map (·.ahead.result)).map some := by
      rw [Workshop.results, List.map_map]
      refine List.map_congr_left fun j hj => ?_
      obtain ⟨result, hresult⟩ := hahead hj
      rw [hresult, Function.comp_apply, Job.ahead_of_result? hresult]
    rw [hsome, hresults, List.map_map]
    rfl
  · rw [← hrs, or_iff_left]
    rintro ⟨j, hj, hr⟩
    obtain ⟨result, hresult⟩ := hahead hj
    rw [Job.ahead_of_result? hresult] at hr
    cases hr

end Workshop

theorem exists_results_probeAll {s : BatchSettings} (c : Counters) {bs : List Body}
    (h : ∀ b ∈ bs, ∃ M, (b.attempt s.toSettings s.firstSlot).result = .ok M) :
    attempted s bs = bs ∧ ∃ Ms, (probeAll s c bs).2 = .ok Ms ∧
      bs.map (fun b => (b.attempt s.toSettings s.firstSlot).result) = Ms.map .ok := by
  induction bs generalizing c with
  | nil => exact ⟨rfl, [], rfl, rfl⟩
  | cons b bs ih =>
    obtain ⟨⟨M, hM⟩, hbs⟩ := List.forall_mem_cons.1 h
    obtain ⟨hattempted, Ms, hMs, hresults⟩ :=
      ih (c.registerAll (b.attempt s.toSettings s.firstSlot).registrations) hbs
    refine ⟨?_, M :: Ms, ?_, ?_⟩
    · rw [attempted, hM, hattempted]
      rfl
    · rw [probeAll, hM]
      dsimp only
      rw [hMs]
      rfl
    · rw [List.map_cons, List.map_cons, hM, hresults]

namespace Counters

variable {c : Counters} {rs ss : List Registration}

/-- Which ids a table has does not depend on the order in which they are registered. -/
theorem isSome_get?_registerAll (id : Nat) : ((c.registerAll rs).get? id).isSome = true ↔
    (c.get? id).isSome = true ∨ ∃ r ∈ rs, r.methodId = id := by
  rw [get?_registerAll, Option.isSome_or, Option.isSome_map, Bool.or_eq_true, List.find?_isSome]
  simp

/-- A new id has the mean of one of its registrations. -/
theorem mem_of_get?_registerAll {id n : Nat} (hc : c.get? id = none)
    (h : (c.registerAll rs).get? id = some n) : ⟨id, n⟩ ∈ rs := by
  rw [get?_registerAll, hc, Option.none_or] at h
  obtain ⟨r, hr, rfl⟩ := Option.map_eq_some_iff.1 h
  have hid : r.methodId = id := by simpa using List.find?_some hr
  exact hid ▸ List.mem_of_find?_eq_some hr

/-- The same registrations make the same table in any order, unless a new id is registered with
different means. -/
theorem registerAll_eq (h : ∀ r, r ∈ rs ↔ r ∈ ss)
    (hmean : ∀ r ∈ ss, ∀ r' ∈ ss, r.methodId = r'.methodId → c.get? r.methodId = none →
      r.mean = r'.mean) :
    c.registerAll rs = c.registerAll ss := by
  refine SortedMap.eq_of_get?_eq fun id => ?_
  cases hc : c.get? id with
  | some n => rw [get?_registerAll, get?_registerAll, hc, Option.some_or, Option.some_or]
  | none =>
    have hids : ((c.registerAll rs).get? id).isSome = true ↔
        ((c.registerAll ss).get? id).isSome = true := by
      simp only [isSome_get?_registerAll, h]
    cases hr : (c.registerAll rs).get? id with
    | none =>
      cases hs : (c.registerAll ss).get? id with
      | none => rfl
      | some n => simp [hr, hs] at hids
    | some n =>
      cases hs : (c.registerAll ss).get? id with
      | none => simp [hr, hs] at hids
      | some k =>
        have hn := (h _).1 (mem_of_get?_registerAll hc hr)
        have hk := mem_of_get?_registerAll hc hs
        exact congrArg some (hmean _ hn _ hk rfl hc)

end Counters

/-- A batch whose methods all succeed, under any schedule by which all its jobs are done.  Its methods
are those of the batch worked on one by one.  So are the ids of its table.  An id keeps the mean that it
has, and a new one gets a mean that some method registers for it.  If the methods that register a new id
agree on the mean, the table is the same too. -/
theorem probeAll_of_schedule {s : BatchSettings} (c : Counters) {bs : List Body}
    (hok : ∀ b ∈ bs, ∃ M, (b.attempt s.toSettings s.firstSlot).result = .ok M)
    {schedule : List Nat} (hdone : ((Workshop.opened s c bs).run schedule).Finished) :
    let w := (Workshop.opened s c bs).run schedule
    let table := (probeAll s c bs).1
    (∃ Ms, (probeAll s c bs).2 = .ok Ms ∧ w.results = Ms.map fun M => some (.ok M)) ∧
    (∀ id, (w.counters.get? id).isSome = (table.get? id).isSome) ∧
    (∀ id n, c.get? id = some n → w.counters.get? id = some n) ∧
    (∀ id n, c.get? id = none → w.counters.get? id = some n →
      ∃ b ∈ bs, ⟨id, n⟩ ∈ b.registrations s.toSettings s.firstSlot) ∧
    ((∀ b ∈ bs, ∀ b' ∈ bs, ∀ id, c.get? id = none →
        b.Registers s.toSettings s.firstSlot id → b'.Registers s.toSettings s.firstSlot id →
        b.effectiveMean? s.toSettings = b'.effectiveMean? s.toSettings) →
      w.counters = table) := by
  intro w table
  obtain ⟨hresults, rs, hcounters, hrs⟩ :=
    ((Workshop.underway_opened s c bs).run schedule).of_finished hdone
  obtain ⟨hattempted, Ms, hMs, hall⟩ := exists_results_probeAll c hok
  have htable : table =
      c.registerAll (bs.flatMap fun b => b.registrations s.toSettings s.firstSlot) := by
    have hattempt : table = _ := counters_probeAll s c bs
    rwa [hattempted] at hattempt
  have hmem (r : Registration) :
      r ∈ rs ↔ r ∈ bs.flatMap fun b => b.registrations s.toSettings s.firstSlot := by
    simp [hrs, Body.registrations_attempt]
  refine ⟨⟨Ms, hMs, ?_⟩, fun id => ?_, fun id n hc => ?_, fun id n hc hn => ?_, fun hmean => ?_⟩
  · rw [hresults, List.map_map]
    simpa [Function.comp_def] using congrArg (List.map some) hall
  · rw [hcounters, htable, Bool.eq_iff_iff, Counters.isSome_get?_registerAll,
      Counters.isSome_get?_registerAll]
    simp only [hmem]
  · rw [hcounters, Counters.get?_registerAll, hc, Option.some_or]
  · rw [hcounters] at hn
    exact List.mem_flatMap.1 ((hmem _).1 (Counters.mem_of_get?_registerAll hc hn))
  · rw [hcounters, htable]
    refine Counters.registerAll_eq hmem fun r hr r' hr' hid hc => ?_
    obtain ⟨b, hb, hr⟩ := List.mem_flatMap.1 hr
    obtain ⟨b', hb', hr'⟩ := List.mem_flatMap.1 hr'
    have hagree := hmean b hb b' hb' r.methodId hc ⟨r, hr, rfl⟩ ⟨r', hr', hid.symm⟩
    rw [Body.effectiveMean?_of_mem hr, Body.effectiveMean?_of_mem hr'] at hagree
    exact Option.some.inj hagree

/-- The second method is done before the first one starts, and has its own mean for the id that both of
them register. -/
theorem probeAll_of_schedule_crossed :
    let entry := (Marker.ofKind .entry).withSampler (some .const)
    let bs : List Body :=
      [⟨"first", 3, [entry.withMean 5]⟩, ⟨"second", 8, [entry.withMean 2, entry.withMethodId 3]⟩]
    let w := (Workshop.opened {} .empty bs).run [1, 1, 1, 1, 1, 1, 0, 0, 0, 0]
    (∀ b ∈ bs, ∃ M, (b.attempt {} 0).result = .ok M) ∧ w.Finished ∧
      (∃ Ms, (probeAll {} .empty bs).2 = .ok Ms ∧ w.results = Ms.map fun M => some (.ok M)) ∧
      w.counters.entries = [(3, 2), (8, 2)] ∧
      (probeAll {} .empty bs).1.entries = [(3, 5), (8, 2)] := by
  intro entry bs w
  have hisOk : ∀ b ∈ bs, (b.attempt {} 0).result.isOk = true := by decide
  have hok : ∀ b ∈ bs, ∃ M, (b.attempt {} 0).result = .ok M := fun b hb => by
    have hb := hisOk b hb
    cases h : (b.attempt {} 0).result with
    | ok M => exact ⟨M, rfl⟩
    | error e =>
      rw [h] at hb
      cases hb
  have hdone : w.Finished := by decide
  exact ⟨hok, hdone, (probeAll_of_schedule .empty hok hdone).1, by decide, by decide⟩

end MethodProbes
