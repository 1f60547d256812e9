import MethodProbes.Method.Batch
import MethodProbes.Proofs.Expansion.Announced
import MethodProbes.Proofs.Method.Route
import MethodProbes.Proofs.Session.Turns
import MethodProbes.Proofs.Tracking.Recorded

/-!
# The counters of a batch

Every entry of a sampled method that is expanded asks for a counter, whether it has code or not.  The
first registration of an id counts, over all methods of a batch and the table that it starts from, and
every sampling call of a method goes to a counter that is registered.
-/
namespace MethodProbes

open Step

/-- The id of a marker's calls: the one that its tag names, or else that of the method.  A bad tag
names none, and neither does a method whose id is too big. -/
def Marker.resolve? (m : Marker) (methodId : Nat) : Option Nat :=
  match m.tag? .methodId with
  | some s => (Text.numeralIn? 0 maxMethodId (Text.trim s.toList)).map Int.toNat
  | none => if methodId ≤ maxMethodId then some methodId else none

/-- The markers that are expanded, up to and including the first that fails. -/
def Expander.reached (x : Expander) (b : Buffer) : List Marker → List Marker
  | [] => []
  | m :: ms =>
    match x.expand m b with
    | ⟨_, _, _, some _⟩ => [m]
    | ⟨y, c, _, none⟩ => m :: y.reached c ms

/-- The counters that a method registers: if it is recorded and sampled, one for each entry that is
expanded and has an id. -/
def Body.registrations (b : Body) (settings : Settings) (firstSlot : UInt16) : List Registration :=
  match (Expander.new b.methodId settings).recordAll b.markers with
  | .error _ => []
  | .ok x =>
    match x.tracking.mean.get? with
    | none => []
    | some n =>
      ((x.reached (.empty firstSlot) b.markers).filter (·.kind = .entry)).filterMap fun m =>
        (m.resolve? b.methodId).map fun id => ⟨id, n⟩

/-- The methods that a batch works on, up to and including the first that fails. -/
def attempted (s : BatchSettings) : List Body → List Body
  | [] => []
  | b :: bs =>
    b :: if (b.attempt s.toSettings s.firstSlot).result.isOk then attempted s bs else []

theorem Marker.resolve?_le {m : Marker} {methodId id : Nat} (h : m.resolve? methodId = some id) :
    id ≤ maxMethodId := by
  rw [resolve?] at h
  split at h
  · obtain ⟨n, hn, rfl⟩ := Option.map_eq_some_iff.1 h
    obtain ⟨-, hlo, hhi⟩ := Text.numeralIn?_eq_some_iff.1 hn
    omega
  · split at h
    · cases h
      assumption
    · cases h

theorem Tracking.map_fst_sampling? {t : Tracking} (hT : t.Sound) :
    t.sampling?.map Prod.fst = t.mean.get? := by
  cases hn : t.mean.get? with
  | none => simp [sampling?, hn]
  | some n =>
    obtain ⟨s, hs⟩ := Option.isSome_iff_exists.1 (hT (by simp [isSampled, hn]))
    simp [sampling?, hn, hs]

namespace Expander

variable {x : Expander} {m : Marker} {b : Buffer} {ms : List Marker}

theorem toOption_effectiveId (x : Expander) (m : Marker) :
    (x.effectiveId m).toOption = m.resolve? x.methodId := by
  rw [effectiveId, Marker.methodId?, Marker.resolve?]
  cases m.tag? .methodId with
  | none => by_cases h : x.methodId ≤ maxMethodId <;> simp [h, bind, Except.bind] <;> rfl
  | some s =>
    dsimp only
    rw [parseMethodId]
    cases hn : Text.numeralIn? 0 maxMethodId (Text.trim s.toList) with
    | none => rfl
    | some n =>
      obtain ⟨-, hlo, hhi⟩ := Text.numeralIn?_eq_some_iff.1 hn
      have hle : n.toNat ≤ maxMethodId := by omega
      simp [Except.map, bind, Except.bind, hle]
      rfl

theorem resolve?_of_ok {id : Nat} (h : x.effectiveId m = .ok id) :
    m.resolve? x.methodId = some id := by
  rw [← toOption_effectiveId, h]
  rfl

theorem expand_keeps (x : Expander) (m : Marker) (b : Buffer) :
    (x.expand m b).expander.methodId = x.methodId ∧
      (x.expand m b).expander.tracking = x.tracking := by
  rcases x.expand_cases m b with ⟨e, -, h⟩ | ⟨id, e, q, -, -, h⟩ <;> rw [h] <;> exact ⟨rfl, rfl⟩

def counter? (x : Expander) (m : Marker) : Option Registration :=
  (m.resolve? x.methodId).bind fun id => x.tracking.sampling?.map fun s => ⟨id, s.1⟩

/-- An entry that has an id asks for its counter, even if its expansion fails. -/
theorem registration_expand (x : Expander) (m : Marker) (b : Buffer) :
    (x.expand m b).registration = if m.kind = .entry then x.counter? m else none := by
  rcases x.expand_cases m b with ⟨e, he, h⟩ | ⟨id, e, q, hid, -, h⟩ <;> rw [h, counter?]
  · have hno : m.resolve? x.methodId = none := by
      rw [← toOption_effectiveId, he]
      rfl
    simp [hno]
  · rw [resolve?_of_ok hid]
    rfl

theorem registrations_expandAll (x : Expander) (b : Buffer) (n : Nat) (ms : List Marker) :
    (x.expandAll b n ms).registrations =
      ((x.reached b ms).filter (·.kind = .entry)).filterMap x.counter? := by
  induction ms generalizing x b n with
  | nil => rfl
  | cons m ms ih =>
    have hr := x.registration_expand m b
    obtain ⟨hid, htracking⟩ := x.expand_keeps m b
    rw [expandAll, reached]
    rcases he : x.expand m b with ⟨y, c, r, _ | e⟩ <;> rw [he] at hr hid htracking
    · have hcounter : y.counter? = x.counter? := by
        funext k
        rw [counter?, counter?, hid, htracking]
      dsimp only
      rw [ih, hcounter, show r = _ from hr]
      by_cases hm : m.kind = .entry
      · cases hc : x.counter? m <;> simp [hm, hc]
      · simp [hm]
    · dsimp only
      rw [show r = _ from hr]
      by_cases hm : m.kind = .entry
      · cases hc : x.counter? m <;> simp [hm, hc]
      · simp [hm]

/-- The sampling calls of markers that are all expanded go to counters that these have asked for. -/
theorem announced_expandAll {P : Int32 → Prop} (hT : x.tracking.Sound)
    (hc : x.cycle.Coherent x.tracking) (hp : Placed b x.cycle) {n : Nat}
    (h : (x.expandAll b n ms).error = none) (hb : Announced P b.code)
    (hP : ∀ r ∈ (x.expandAll b n ms).registrations, P (.ofNat r.methodId)) :
    Announced P (x.expandAll b n ms).buffer.code := by
  induction ms generalizing x b n with
  | nil => exact hb
  | cons m ms ih =>
    have hr := x.registration_expand m b
    rw [expandAll] at h hP ⊢
    rcases he : x.expand m b with ⟨y, b', r, _ | e⟩ <;> rw [he] at h hP hr
    · obtain ⟨id, σ, hw⟩ := exists_writes hp he
      have hcycle : y.cycle.Coherent y.tracking := by
        rw [hw.expander]
        exact hc.steps (x := x.context id b.nextLabel) hT m σ
      have hsound : y.tracking.Sound := by
        rw [hw.expander]
        exact hT
      have hsteps : Announced P (written σ ((x.context id b.nextLabel).steps m)) := by
        refine Context.announced_steps hT hc fun hm hs => ?_
        obtain ⟨k, s, hsampling, -⟩ := Tracking.sampling?_of_sampled hT hs
        refine hP ⟨id, k⟩ (List.mem_append_left _ ?_)
        have hr : r = if m.kind = .entry then x.counter? m else none := hr
        rw [hr, if_pos hm, counter?, resolve?_of_ok hw.id_eq, hsampling]
        simp
      have hcode : Announced P b'.code := hw.code ▸ hb.append hsteps
      exact ih hsound hcycle hw.placed h hcode fun r hr => hP r (List.mem_append_right _ hr)
    · cases h

end Expander

namespace Body

theorem registrations_attempt (b : Body) (settings : Settings) (firstSlot : UInt16) :
    (b.attempt settings firstSlot).registrations = b.registrations settings firstSlot := by
  rw [attempt, registrations]
  cases hx : (Expander.new b.methodId settings).recordAll b.markers with
  | error e => rfl
  | ok x =>
    have hsound := (Expander.recordAll_eq Tracking.sound_initial hx).1
    have hid : x.methodId = b.methodId := congrArg Expander.methodId (Expander.eq_of_recordAll hx)
    dsimp only
    rw [x.registrations_expandAll, ← Tracking.map_fst_sampling? hsound]
    have hcounter (m : Marker) : x.counter? m = (m.resolve? b.methodId).bind fun id =>
        x.tracking.sampling?.map fun s => ⟨id, s.1⟩ := by rw [Expander.counter?, hid]
    simp only [funext hcounter]
    cases x.tracking.sampling? with
    | none => simp
    | some s =>
      simp only [Option.map_eq_bind]
      rfl

theorem toInt_of_mem_registrations {b : Body} {settings : Settings} {firstSlot : UInt16}
    {r : Registration} (h : r ∈ b.registrations settings firstSlot) :
    (Int32.ofNat r.methodId).toInt = r.methodId := by
  have hle : r.methodId ≤ maxMethodId := by
    rw [registrations] at h
    split at h
    · cases h
    · split at h
      · cases h
      · obtain ⟨m, -, hm⟩ := List.mem_filterMap.1 h
        obtain ⟨id, hid, rfl⟩ := Option.map_eq_some_iff.1 hm
        exact Marker.resolve?_le hid
  exact Int32.toInt_ofNat_of_lt (Nat.lt_of_le_of_lt hle (by decide))

/-- With a default that is no zero, no registered mean is. -/
theorem mean_ne_zero_of_mem_registrations {b : Body} {settings : Settings} {firstSlot : UInt16}
    {r : Registration} (h : r ∈ b.registrations settings firstSlot)
    (hd : 1 ≤ settings.defaultMean) : r.mean ≠ 0 := by
  rw [registrations] at h
  split at h
  · cases h
  next x hx =>
    split at h
    · cases h
    next n hn =>
      obtain ⟨m, -, hm⟩ := List.mem_filterMap.1 h
      obtain ⟨id, -, rfl⟩ := Option.map_eq_some_iff.1 hm
      rw [Expander.eq_of_recordAll hx] at hn
      exact (Tracking.addsUp_recordEach _ _).mean_ne_zero hd hn

/-- The sampling calls of a method go to counters that it has registered. -/
theorem announced {b : Body} {settings : Settings} {firstSlot : UInt16} {M : ProbedMethod}
    (h : (b.attempt settings firstSlot).result = .ok M) :
    Announced (fun v => ∃ r ∈ b.registrations settings firstSlot, v.toInt = r.methodId)
      M.code.toList := by
  have hregistrations := b.registrations_attempt settings firstSlot
  rw [attempt] at h hregistrations
  cases hx : (Expander.new b.methodId settings).recordAll b.markers with
  | error e =>
    rw [hx] at h
    cases h
  | ok x =>
    rw [hx] at h hregistrations
    dsimp only at h hregistrations
    obtain ⟨hsound, hcycle⟩ := Expander.recordAll_eq Tracking.sound_initial hx
    have hcycle : x.cycle = .initial := hcycle
    cases he : (x.expandAll (.empty firstSlot) 0 b.markers).error with
    | some e =>
      rw [he] at h
      cases h
    | none =>
      rw [he] at h
      cases h
      refine Expander.announced_expandAll hsound (hcycle ▸ Cycle.coherent_initial _)
        (hcycle ▸ .initial _) he (.of_no_hit fun i hi => absurd hi List.not_mem_nil) fun r hr => ?_
      rw [hregistrations] at hr
      exact ⟨r, hr, toInt_of_mem_registrations hr⟩

end Body

theorem counters_probeAll (s : BatchSettings) (c : Counters) (bs : List Body) :
    (probeAll s c bs).1 = c.registerAll
      ((attempted s bs).flatMap fun b => b.registrations s.toSettings s.firstSlot) := by
  induction bs generalizing c with
  | nil => rfl
  | cons b bs ih =>
    rw [probeAll, attempted, List.flatMap_cons, Counters.registerAll_append,
      b.registrations_attempt]
    cases h : (b.attempt s.toSettings s.firstSlot).result with
    | error e => rfl
    | ok M => exact ih _

theorem exists_attempt_of_mem {s : BatchSettings} {c : Counters} {bs : List Body}
    {Ms : List ProbedMethod} {M : ProbedMethod} (h : (probeAll s c bs).2 = .ok Ms) (hM : M ∈ Ms) :
    ∃ b ∈ attempted s bs, (b.attempt s.toSettings s.firstSlot).result = .ok M := by
  induction bs generalizing c Ms with
  | nil =>
    cases h
    cases hM
  | cons b bs ih =>
    rw [probeAll] at h
    rw [attempted]
    cases hr : (b.attempt s.toSettings s.firstSlot).result with
    | error e =>
      rw [hr] at h
      cases h
    | ok M' =>
      rw [hr] at h
      dsimp only at h
      cases hrest : (probeAll s (c.registerAll
          (b.attempt s.toSettings s.firstSlot).registrations) bs).2 with
      | error e =>
        rw [hrest] at h
        cases h
      | ok Ms' =>
        rw [hrest] at h
        cases h
        rcases List.mem_cons.1 hM with rfl | hM
        · exact ⟨b, List.mem_cons_self, hr⟩
        · obtain ⟨b', hb', hattempt⟩ := ih hrest hM
          exact ⟨b', List.mem_cons_of_mem _ hb', hattempt⟩

/-- The counters of a batch that is worked on one by one.  A table keeps what it has, and a new id gets
the mean of its first registration.  The table lists each id once, in order, and every sampling call
stands right behind the push of an id in it. -/
theorem probeAll_counters (s : BatchSettings) (c : Counters) (bs : List Body) :
    let table := (probeAll s c bs).1
    let registered :=
      (attempted s bs).flatMap fun b => b.registrations s.toSettings s.firstSlot
    (∀ id, table.get? id =
      (c.get? id).or ((registered.find? (·.methodId = id)).map (·.mean))) ∧
    (1 ≤ s.defaultMean → ∀ id n, c.get? id = none → table.get? id = some n → n ≠ 0) ∧
    (table.entries.Pairwise (fun p q => p.1 < q.1) ∧
      ∀ id n, (id, n) ∈ table.entries ↔ table.get? id = some n) ∧
    ∀ Ms, (probeAll s c bs).2 = .ok Ms → ∀ M ∈ Ms, ∀ pre (call : ProbeCall) post,
      M.code.toList = pre ++ .invoke call.callee :: post → call.isHit = true →
        ∃ v id n, pre.getLast? = some (.push (.int v)) ∧ v.toInt = Int.ofNat id ∧
          table.get? id = some n := by
  intro table registered
  have hget (id : Nat) : table.get? id =
      (c.get? id).or ((registered.find? (·.methodId = id)).map (·.mean)) := by
    rw [← c.get?_registerAll, ← counters_probeAll]
  refine ⟨hget, fun hd id n hc hn => ?_, ⟨table.increasing, fun id n => table.mem_entries⟩,
    fun Ms hMs M hM pre call post hcode hhit => ?_⟩
  · rw [hget, hc, Option.none_or] at hn
    obtain ⟨r, hr, rfl⟩ := Option.map_eq_some_iff.1 hn
    obtain ⟨b, -, hb⟩ := List.mem_flatMap.1 (List.mem_of_find?_eq_some hr)
    exact Body.mean_ne_zero_of_mem_registrations hb hd
  · obtain ⟨b, hb, hattempt⟩ := exists_attempt_of_mem hMs hM
    obtain ⟨v, ⟨r, hr, hv⟩, hlast⟩ :=
      b.announced hattempt pre _ post hcode ((Insn.isHit_callee call).trans hhit)
    have hmem : r ∈ registered := List.mem_flatMap.2 ⟨b, hb, hr⟩
    have hsome : (table.get? r.methodId).isSome = true := by
      rw [hget, Option.isSome_or, Option.isSome_map, List.find?_isSome.2 ⟨r, hmem, by simp⟩,
        Bool.or_true]
    obtain ⟨n, hn⟩ := Option.isSome_iff_exists.1 hsome
    exact ⟨v, r.methodId, n, hlast, hv, hn⟩

/-- The second method comes to its bad marker with the mean 2, and its first id is taken by then. -/
example :
    let entry := (Marker.ofKind .entry).withSampler (some .const)
    let bodies : List Body := [⟨"first", 3, [entry.withMean 5, entry.withMethodId 9]⟩,
      ⟨"second", 3, [entry.withMean 2, entry.withMethodId 4, entry.withTag "methodid" "x", entry]⟩,
      ⟨"third", 8, [entry]⟩]
    (probeAll {} .empty bodies).1.entries = [(3, 5), (4, 2), (9, 5)] := by
  decide

end MethodProbes
