import Mathlib.Data.List.Induction
import Mathlib.Data.List.TakeWhile
import MethodProbes.Expansion.Session
import MethodProbes.Proofs.Tracking.Reading

/-!
# What declarations add up to

The entry markers of a method are recorded one by one.  Four rules run side by side: the last marker
decides on timing, levels are collected, the least mean counts as long as every marker is sampled,
and a constant rate goes before an adaptive one up to the first marker that is not sampled.
-/
namespace MethodProbes

namespace Marker

def isSampled (m : Marker) : Bool := m.sampler?.isSome

end Marker

/-- The mean that entry markers add up to, with a default for those that give none. -/
def SamplingMean.ofEntries (defaultMean : Nat) (es : List Marker) : SamplingMean :=
  if es.all Marker.isSampled then
    ((es.map fun m => m.mean?.getD defaultMean).min?).elim .unset .every
  else .disabled

/-- The sampler that entry markers add up to.  Only those before the first without a sampler count,
and a constant rate goes before an adaptive one. -/
def Sampler.ofEntries? (es : List Marker) : Option Sampler :=
  let sampled := es.takeWhile Marker.isSampled
  if sampled = [] then none
  else if ∃ m ∈ sampled, m.sampler? = some .const then some .const
  else some .adaptive

namespace SamplingMean

variable (defaultMean : Nat) (es : List Marker) (m : Marker)

theorem ofEntries_concat : ofEntries defaultMean (es ++ [m]) =
    if m.isSampled then (ofEntries defaultMean es).fold (m.mean?.getD defaultMean)
    else .disabled := by
  simp only [ofEntries, List.all_append, List.all_cons, List.all_nil, Bool.and_true,
    List.map_append, List.map_cons, List.map_nil]
  by_cases hall : es.all Marker.isSampled = true
  · cases hm : m.isSampled with
    | false => simp
    | true =>
      simp only [hall, Bool.and_self, if_true]
      -- the least of the means so far, if there is one, against the new one
      cases es.map fun m => m.mean?.getD defaultMean with
      | nil => rfl
      | cons n ns =>
        rw [List.cons_append, List.min?_cons', List.min?_cons', List.foldl_append]
        rfl
  · simp only [hall, Bool.false_and, Bool.false_eq_true, if_false, fold, ite_self]

theorem ofEntries_eq_disabled_iff :
    ofEntries defaultMean es = .disabled ↔ ¬ es.all Marker.isSampled = true := by
  rw [ofEntries]
  split
  next h => cases (es.map fun m => m.mean?.getD defaultMean).min? <;> simp [h]
  next h => simp [h]

theorem get?_ofEntries : (ofEntries defaultMean es).get? =
    if es.all Marker.isSampled then (es.map fun m => m.mean?.getD defaultMean).min? else none := by
  rw [ofEntries]
  split
  · cases (es.map fun m => m.mean?.getD defaultMean).min? <;> rfl
  · rfl

theorem ofEntries_perm {es fs : List Marker} (h : es.Perm fs) :
    ofEntries defaultMean es = ofEntries defaultMean fs := by
  have hall : es.all Marker.isSampled = fs.all Marker.isSampled := h.all_eq
  have hmin : (es.map fun m => m.mean?.getD defaultMean).min? =
      (fs.map fun m => m.mean?.getD defaultMean).min? := by
    ext n
    simp only [List.min?_eq_some_iff, (h.map _).mem_iff]
  simp only [ofEntries, hall, hmin]

end SamplingMean

namespace Sampler

theorem ofEntries?_of_sampled {es : List Marker} (h : es.all Marker.isSampled = true) :
    ofEntries? es = if es = [] then none
      else if ∃ m ∈ es, m.sampler? = some .const then some .const else some .adaptive := by
  have htake : es.takeWhile Marker.isSampled = es :=
    List.takeWhile_eq_self_iff.2 (List.all_eq_true.1 h)
  simp only [ofEntries?, htake]

theorem ofEntries?_concat (es : List Marker) (m : Marker) : ofEntries? (es ++ [m]) =
    if es.all Marker.isSampled = true ∧ ofEntries? es ≠ some .const then
      m.sampler?.or (ofEntries? es)
    else ofEntries? es := by
  by_cases hall : es.all Marker.isSampled = true
  · cases hm : m.sampler? with
    | none =>
      have htake : (es ++ [m]).takeWhile Marker.isSampled = es.takeWhile Marker.isSampled := by
        have hself : es.takeWhile Marker.isSampled = es :=
          List.takeWhile_eq_self_iff.2 (List.all_eq_true.1 hall)
        simp [List.takeWhile_append, hself, Marker.isSampled, hm]
      rw [Option.none_or, ite_self]
      simp only [ofEntries?, htake]
    | some s =>
      have hnew : (es ++ [m]).all Marker.isSampled = true := by
        simp [hall, Marker.isSampled, hm]
      rw [ofEntries?_of_sampled hnew, ofEntries?_of_sampled hall]
      cases s <;> by_cases hnil : es = [] <;>
        by_cases hc : ∃ m ∈ es, m.sampler? = some .const <;> simp_all [or_and_right, exists_or]
  · have htake : (es ++ [m]).takeWhile Marker.isSampled = es.takeWhile Marker.isSampled := by
      rw [List.takeWhile_append, if_neg]
      intro hlen
      have hself := (List.takeWhile_prefix Marker.isSampled (l := es)).eq_of_length hlen
      exact hall (List.all_eq_true.2 (List.takeWhile_eq_self_iff.1 hself))
    rw [if_neg fun h => hall h.1]
    simp only [ofEntries?, htake]

end Sampler

namespace Tracking

variable (t : Tracking) (d : Declaration) (defaultMean : Nat)

@[simp] theorem timed_declare : (t.declare d defaultMean).timed = d.timed := by
  rw [declare]
  cases d.sampler with
  | none => rfl
  | some s =>
    simp only [addSampler]
    split <;> rfl

@[simp] theorem levels_declare :
    (t.declare d defaultMean).levels = t.levels ++ d.level.toList := by
  rw [declare]
  cases d.sampler with
  | none => rfl
  | some s =>
    simp only [addSampler]
    split <;> rfl

theorem mean_declare : (t.declare d defaultMean).mean =
    if d.sampler.isSome then t.mean.fold (d.mean.getD defaultMean) else .disabled := by
  rw [declare]
  cases d.sampler with
  | none => rfl
  | some s =>
    simp only [addSampler]
    split
    next h =>
      have hm : t.mean = .disabled := h
      simp [hm]
    next => rfl

theorem sampler_declare : (t.declare d defaultMean).sampler =
    if t.mean ≠ .disabled ∧ t.sampler ≠ some .const then d.sampler.or t.sampler
    else t.sampler := by
  rw [declare]
  cases d.sampler with
  | none => simp
  | some s =>
    simp only [addSampler]
    by_cases hm : t.mean = .disabled
    · simp [hm]
    · by_cases hc : t.sampler = some .const <;> simp [hm, hc]

/-- What a marker does to the tracking, or why it is rejected. -/
theorem record_eq (m : Marker) : t.record m defaultMean =
    if m.kind = .entry then
      match m.faults.head? with
      | some e => .error e
      | none => .ok (t.declare m.declaration defaultMean)
    else .ok t := by
  rw [record, m.ofMarker_eq]
  split
  · cases m.faults.head? <;> rfl
  · rfl

def recordEach (ms : List Marker) : Tracking :=
  ms.foldl (fun t m => (t.record m defaultMean).toOption.getD t) t

/-- Only the markers that declare something count. -/
theorem recordEach_eq (ms : List Marker) : t.recordEach defaultMean ms =
    (ms.filter Marker.declares).foldl (fun t m => t.declare m.declaration defaultMean) t := by
  induction ms generalizing t with
  | nil => rfl
  | cons m ms ih =>
    have hfirst : (t.record m defaultMean).toOption.getD t =
        if m.declares then t.declare m.declaration defaultMean else t := by
      rw [record_eq, Marker.declares]
      by_cases hk : m.kind = .entry
      · cases hf : m.faults <;> simp [hk, Except.toOption]
      · simp [hk, Except.toOption]
    rw [recordEach, List.foldl_cons, hfirst]
    refine (ih _).trans ?_
    cases h : m.declares <;> simp [h]

/-- What a tracking consists of that entry markers add up to. -/
structure AddsUp (es : List Marker) : Prop where
  timed : t.timed = es.getLast?.any (·.hasTag .timed)
  levels : t.levels = es.filterMap Marker.level?
  mean : t.mean = .ofEntries defaultMean es
  sampler : t.sampler = Sampler.ofEntries? es

theorem addsUp_declare {es : List Marker} (h : t.AddsUp defaultMean es) (m : Marker) :
    (t.declare m.declaration defaultMean).AddsUp defaultMean (es ++ [m]) where
  timed := by simp [Marker.declaration]
  levels := by
    rw [levels_declare, h.levels, List.filterMap_append]
    cases hm : m.level? <;> simp [Marker.declaration, hm]
  mean := by
    rw [mean_declare, h.mean, SamplingMean.ofEntries_concat]
    rfl
  sampler := by
    have hmean : t.mean ≠ .disabled ↔ es.all Marker.isSampled = true := by
      rw [h.mean, ne_eq, SamplingMean.ofEntries_eq_disabled_iff, not_not]
    simp only [sampler_declare, hmean, h.sampler, Sampler.ofEntries?_concat]
    rfl

theorem addsUp_recordEach (ms : List Marker) :
    (initial.recordEach defaultMean ms).AddsUp defaultMean (ms.filter Marker.declares) := by
  rw [recordEach_eq]
  induction ms.filter Marker.declares using List.reverseRecOn with
  | nil => exact ⟨rfl, rfl, rfl, rfl⟩
  | append_singleton es m ih =>
    rw [List.foldl_append]
    exact addsUp_declare _ _ ih m

variable {t defaultMean}

theorem AddsUp.isSampled_iff {es : List Marker} (h : t.AddsUp defaultMean es) :
    t.isSampled = true ↔ es ≠ [] ∧ ∀ m ∈ es, m.isSampled = true := by
  rw [isSampled, h.mean, SamplingMean.get?_ofEntries, ← List.all_eq_true]
  split
  next hall => simp [hall, Option.isSome_iff_ne_none]
  next hall => simp [hall]

theorem AddsUp.sampler_of_sampled {es : List Marker} (h : t.AddsUp defaultMean es)
    (hs : t.isSampled = true) :
    t.sampler = if ∃ m ∈ es, m.sampler? = some .const then some .const else some .adaptive := by
  obtain ⟨hne, hall⟩ := (h.isSampled_iff).1 hs
  rw [h.sampler, Sampler.ofEntries?_of_sampled (List.all_eq_true.2 hall), if_neg hne]

/-- With a default that is no zero, no mean is. -/
theorem AddsUp.mean_ne_zero {es : List Marker} (h : t.AddsUp defaultMean es)
    (hd : 1 ≤ defaultMean) {n : Nat} (hn : t.mean.get? = some n) : n ≠ 0 := by
  rw [h.mean, SamplingMean.get?_ofEntries] at hn
  split at hn
  · obtain ⟨m, -, rfl⟩ := List.mem_map.1 (List.min?_mem hn)
    cases hm : m.mean? with
    | none => exact Nat.ne_of_gt hd
    | some k =>
      obtain ⟨s, -, hs⟩ := Option.bind_eq_some_iff.1 hm
      obtain ⟨i, hi, rfl⟩ := Option.map_eq_some_iff.1 hs
      have hle := (Text.numeralIn?_eq_some_iff.1 hi).2.1
      rw [Option.getD_some]
      omega
  · cases hn

end Tracking

/-- What an expander has recorded, markers that are rejected apart. -/
theorem Expander.eq_of_recordAll {x y : Expander} {ms : List Marker}
    (h : x.recordAll ms = .ok y) :
    y = { x with tracking := x.tracking.recordEach x.settings.defaultMean ms } := by
  induction ms generalizing x with
  | nil =>
    cases h
    rfl
  | cons m ms ih =>
    rw [recordAll, List.foldlM_cons, record] at h
    cases hr : x.tracking.record m x.settings.defaultMean with
    | error e =>
      rw [hr] at h
      cases h
    | ok t =>
      rw [hr] at h
      refine (ih (x := { x with tracking := t }) h).trans ?_
      simp [Tracking.recordEach, hr, Except.toOption]

theorem Expander.recordAll_of_faultless (x : Expander) {ms : List Marker}
    (h : ∀ m ∈ ms, m.kind = .entry → m.faults = []) :
    x.recordAll ms =
      .ok { x with tracking := x.tracking.recordEach x.settings.defaultMean ms } := by
  induction ms generalizing x with
  | nil => rfl
  | cons m ms ih =>
    obtain ⟨hm, hms⟩ := List.forall_mem_cons.1 h
    obtain ⟨t, ht⟩ : ∃ t, x.tracking.record m x.settings.defaultMean = .ok t := by
      rw [Tracking.record_eq]
      by_cases hk : m.kind = .entry
      · simp [hk, hm hk]
      · simp [hk]
    have hrecord : x.record m = .ok { x with tracking := t } := by
      rw [record, ht]
      rfl
    rw [recordAll, List.foldlM_cons, hrecord]
    refine (ih _ hms).trans ?_
    simp [Tracking.recordEach, ht, Except.toOption]

/-- An expander that is asked to record markers, good ones and bad ones, has recorded the good
ones. -/
theorem Session.actAll_record (s : Session) {i : Nat} {x : Expander}
    (h : s.expanders[i]? = some x) (ms : List Marker) :
    s.actAll (ms.map fun m => (i, .record m)) =
      { s with
        expanders := s.expanders.set i
          { x with tracking := x.tracking.recordEach x.settings.defaultMean ms } } := by
  induction ms generalizing s x with
  | nil =>
    obtain ⟨hlt, rfl⟩ := List.getElem?_eq_some_iff.1 h
    exact congrArg (Session.mk · s.buffer s.counters) (List.set_getElem_self hlt).symm
  | cons m ms ih =>
    let y : Expander :=
      { x with tracking := (x.tracking.record m x.settings.defaultMean).toOption.getD x.tracking }
    have hact : (s.act i (.record m)).2 = { s with expanders := s.expanders.set i y } := by
      cases hr : x.tracking.record m x.settings.defaultMean with
      | ok t => simp [act, h, Expander.record, hr, Except.map, y, Except.toOption]
      | error e =>
        obtain ⟨hlt, rfl⟩ := List.getElem?_eq_some_iff.1 h
        simp only [act, h, Expander.record, hr, Except.map, y, Except.toOption, Option.getD_none]
        exact congrArg (Session.mk · s.buffer s.counters) (List.set_getElem_self hlt).symm
    rw [List.map_cons, actAll, List.foldl_cons, hact]
    refine (ih _ (x := y) (by simp [(List.getElem?_eq_some_iff.1 h).1])).trans ?_
    simp [y, Tracking.recordEach]

namespace Tracking

/-- What is recorded, in terms of the entry markers that are accepted.  A marker is rejected for the
first of its tags that cannot be read, and changes nothing.  Whether the others sample the method does
not depend on their order. -/
theorem declarations_add_up (defaultMean : Nat) :
    (∀ (t : Tracking) (m : Marker), m.kind ≠ .entry → t.record m defaultMean = .ok t) ∧
    (∀ (t : Tracking) (m : Marker) (e : MarkerError),
      t.record m defaultMean = .error e ↔ m.kind = .entry ∧ m.faults.head? = some e) ∧
    (∀ (s : Session) (i : Nat) (x : Expander), s.expanders[i]? = some x → ∀ ms : List Marker,
      s.actAll (ms.map fun m => (i, .record m)) =
        { s with
          expanders := s.expanders.set i
            { x with tracking := x.tracking.recordEach x.settings.defaultMean ms } }) ∧
    ∀ ms : List Marker,
      let es := ms.filter Marker.declares
      let t := initial.recordEach defaultMean ms
      (t.timed = true ↔ ∃ m, es.getLast? = some m ∧ m.hasTag .timed = true) ∧
      t.levels = es.filterMap Marker.level? ∧
      t.mean = .ofEntries defaultMean es ∧
      t.sampler = Sampler.ofEntries? es ∧
      (t.isSampled = true ↔ es ≠ [] ∧ ∀ m ∈ es, m.isSampled = true) ∧
      (t.isSampled = true → t.sampler ≠ none) ∧
      ∀ ns, ns.Perm ms →
        let u := initial.recordEach defaultMean ns
        u.isSampled = t.isSampled ∧
          (t.isSampled = true → u.sampler = t.sampler ∧ u.mean = t.mean) := by
  refine ⟨fun t m hm => record_of_ne_entry hm _, fun t m e => ?_,
    fun s i x hx ms => s.actAll_record hx ms, fun ms => ?_⟩
  · rw [record_eq]
    by_cases hm : m.kind = .entry
    · cases hf : m.faults.head? <;> simp [hm]
    · simp [hm]
  intro es t
  have h : t.AddsUp defaultMean es := addsUp_recordEach defaultMean ms
  refine ⟨by simp [h.timed, Option.any_eq_true], h.levels, h.mean, h.sampler, h.isSampled_iff,
    fun hs => ?_, fun ns hperm => ?_⟩
  · rw [h.sampler_of_sampled hs]
    split <;> simp
  · intro u
    have h' : u.AddsUp defaultMean (ns.filter Marker.declares) := addsUp_recordEach defaultMean ns
    have hentries : (ns.filter Marker.declares).Perm es := hperm.filter _
    have hsampled : u.isSampled = true ↔ t.isSampled = true := by
      rw [h.isSampled_iff, h'.isSampled_iff]
      simp only [hentries.mem_iff, ne_eq, ← List.length_eq_zero_iff, hentries.length_eq]
    refine ⟨Bool.eq_iff_iff.2 hsampled, fun hs => ⟨?_, ?_⟩⟩
    · rw [h.sampler_of_sampled hs, h'.sampler_of_sampled (hsampled.2 hs)]
      simp only [hentries.mem_iff]
    · rw [h.mean, h'.mean, SamplingMean.ofEntries_perm _ hentries]

/-- A marker without a sampler freezes the choice of the sampler, and turns sampling off. -/
example :
    let entry := (Marker.ofKind .entry).withFlag "timed"
    let t := initial.recordEach 10
      [entry.withSampler (some .adaptive), entry, entry.withSampler (some .const)]
    t.sampler = some .adaptive ∧ t.mean = .disabled ∧ t.timed = true := by
  decide

end Tracking

end MethodProbes
