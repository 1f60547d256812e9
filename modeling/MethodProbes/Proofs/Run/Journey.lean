import MethodProbes.Proofs.Run.Outcome

/-!
# Runs from marker to marker

A run of a method is a journey with one visit to each marker.  What every visit preserves holds at
the end of the journey, and the history of any state of the run is a part of the history there.
-/
namespace MethodProbes

open Step Machine History

/-- A run between two markers, and what expanding the markers before it has left. -/
structure Point where
  /-- Number of markers before. -/
  marker : Nat
  /-- Number of resets before. -/
  round : Nat
  cycle : Cycle
  nextLabel : Nat
  machine : Machine

def Context.before (x : Context) (i k : Nat) (s : Machine) : Point :=
  ⟨i, k, x.cycle, x.nextLabel, s⟩

def Context.behind (x : Context) (σ : Layout) (m : Marker) (i k : Nat) (t : Machine) : Point :=
  ⟨i + 1, m.kind.nextCycle k, afterAll σ x.cycle (x.steps m),
    x.nextLabel + (x.steps m).count .newLabel, t⟩

def Point.start (m : Memory) : Point := ⟨0, 0, .initial, 0, .start m⟩

namespace ProbedMethod

/-- A run comes to the marker at index `i`, which is in cycle `k`. -/
structure Visit (M : ProbedMethod) (w : World) (x : Context) (σ : Layout) (m : Marker)
    (i k : Nat) (s t : Machine) : Prop where
  tracking : x.tracking = M.tracking
  fits : σ.Fits x.cycle
  run : exec w (written σ (x.steps m)) s = some t
  outcome : x.Outcome σ m s t
  kind : M.kind? i = some m.kind
  cycle : M.cycleOf i = k
  segment : M.segment? i = some (written σ (x.steps m))
  site : ∀ j, s.pc ≤ j → j < t.pc → M.site? j = some ⟨i, m.kind, k⟩

/-- A run through the code of markers. -/
inductive Journey (M : ProbedMethod) (w : World) : Point → List Marker → Point → Prop
  | nil (p : Point) : Journey M w p [] p
  | cons {x : Context} {σ : Layout} {m : Marker} {ms : List Marker} {i k : Nat} {s t : Machine}
      {q : Point} (visit : M.Visit w x σ m i k s t)
      (rest : Journey M w (x.behind σ m i k t) ms q) : Journey M w (x.before i k s) (m :: ms) q

end ProbedMethod

/-- What holds at every point of a run. -/
structure Point.Sound (M : ProbedMethod) (p : Point) : Prop where
  coherent : p.cycle.Coherent M.tracking
  pending : ∀ l ∈ p.cycle.pendingElse, l.id < p.nextLabel
  going : ∀ l ∈ p.machine.going, l.id < p.nextLabel
  past : ∀ e ∈ p.machine.history, ∃ s, M.site? e.index = some s ∧ s.marker < p.marker ∧
    s.cycle ≤ p.round

namespace ProbedMethod

variable {M : ProbedMethod} {w : World} {x : Context} {σ : Layout} {m : Marker} {ms : List Marker}
  {i k : Nat} {s t : Machine}

namespace Visit

theorem exists_history (h : M.Visit w x σ m i k s t) : ∃ es : History,
    t.history = es ++ s.history ∧ ∀ e ∈ es, M.site? e.index = some ⟨i, m.kind, k⟩ := by
  obtain ⟨es, hes, hmem⟩ := history_exec h.run
  refine ⟨es, hes, fun e he => ?_⟩
  obtain ⟨hle, hget⟩ := hmem e he
  have hlt := (List.getElem?_eq_some_iff.1 hget).1
  exact h.site _ hle (by rw [pc_exec h.run]; omega)

theorem sound (hT : M.tracking.Sound) (h : M.Visit w x σ m i k s t)
    (hp : (x.before i k s).Sound M) : (x.behind σ m i k t).Sound M := by
  have hcoherent : x.cycle.Coherent x.tracking := h.tracking ▸ hp.coherent
  have hpending := x.pendingElse_lt (σ := σ) m hp.pending
  refine ⟨?_, hpending, fun l hl => ?_, fun e he => ?_⟩
  · rw [← h.tracking]
    exact hcoherent.steps (h.tracking ▸ hT) m σ
  · have hl : t.going = some l := hl
    have hkeep (hs : s.going = some l) : l.id < (x.behind σ m i k t).nextLabel :=
      Nat.lt_of_lt_of_le (hp.going l hs) (Nat.le_add_right _ _)
    cases h.outcome with
    | passes going _ still =>
      obtain rfl := Option.some.inj (still.symm.trans hl)
      exact hkeep going
    | tests kind going run =>
      obtain ⟨L, hL⟩ := x.exists_decided hcoherent σ s.memory
      cases (run L hL).2 with
      | left going bound =>
        obtain rfl := Option.some.inj (going.symm.trans hl)
        apply hpending
        rw [Option.mem_def, Context.pendingElse_steps, kind]
        exact if_pos ⟨hcoherent.sampled bound, bound⟩
      | rest going => cases going.symm.trans hl
      | measured going => cases going.symm.trans hl
    | arrives _ _ _ here => cases here.symm.trans hl
    | enters _ _ here => cases here.symm.trans hl
    | exits _ _ here => cases here.symm.trans hl
    | pushes _ _ here => cases here.symm.trans hl
    | rests _ _ here => cases here.symm.trans hl
  · have hle : k ≤ m.kind.nextCycle k := by
      rw [MarkerKind.nextCycle]
      split
      · exact Nat.le_succ k
      · exact Nat.le_refl k
    obtain ⟨es, hes, hsite⟩ := h.exists_history
    have he : e ∈ es ++ s.history := hes ▸ he
    rcases List.mem_append.1 he with he | he
    · exact ⟨_, hsite e he, Nat.lt_succ_self i, hle⟩
    · obtain ⟨r, hr, hlt, hc⟩ := hp.past e he
      exact ⟨r, hr, Nat.lt_succ_of_lt hlt, Nat.le_trans hc hle⟩

end Visit

/-- What every visit preserves holds at the end of a journey. -/
theorem Journey.preserves (hT : M.tracking.Sound) {I : Point → List Marker → Prop}
    (step : ∀ x σ m ms i k s t, M.Visit w x σ m i k s t → (x.before i k s).Sound M →
      I (x.before i k s) (m :: ms) → I (x.behind σ m i k t) ms)
    {p q : Point} (h : M.Journey w p ms q) (hp : p.Sound M) (hI : I p ms) :
    q.Sound M ∧ I q [] := by
  induction h with
  | nil => exact ⟨hp, hI⟩
  | cons visit rest ih => exact ih (visit.sound hT hp) (step _ _ _ _ _ _ _ _ visit hp hI)

theorem Journey.marker_eq {p q : Point} (h : M.Journey w p ms q) :
    q.marker = p.marker + ms.length := by
  induction h with
  | nil => rfl
  | @cons x σ m ms i k s t q visit rest ih =>
    rw [ih, List.length_cons]
    exact Nat.succ_add_eq_add_succ i ms.length

end ProbedMethod

theorem Route.exists_journey {M : ProbedMethod} (hT : M.tracking.Sound) {w : World} {c : Cycle}
    {n : Nat} {ms : List Marker} {parts : List (List Insn)} (h : Route M.tracking c n ms parts)
    {i k : Nat} {s : Machine} (ha : M.Ahead i k s.pc ms parts)
    (hp : (Point.mk i k c n s).Sound M) :
    ∃ q, M.Journey w ⟨i, k, c, n, s⟩ ms q ∧ exec w parts.flatten s = some q.machine := by
  induction h generalizing i k s with
  | nil => exact ⟨_, .nil _, rfl⟩
  | @cons x σ m ms parts tracking fits rest ih =>
    obtain ⟨t, ht, hout⟩ := x.exists_outcome (w := w) (σ := σ) (m := m) (tracking ▸ hT)
      (tracking ▸ hp.coherent) hp.going
    have hpc := pc_exec ht
    have hvisit : M.Visit w x σ m i k s t :=
      ⟨tracking, fits, ht, hout, ha.kind?_eq, ha.cycle, ha.segment?_eq,
        fun j hle hlt => ha.site?_eq hle (hpc ▸ hlt)⟩
    obtain ⟨q, hq, hrun⟩ := ih (hpc ▸ ha.next) (hvisit.sound hT hp)
    refine ⟨q, .cons hvisit hq, ?_⟩
    rw [List.flatten_cons, exec_append_of ht, hrun]

theorem Point.sound_start (M : ProbedMethod) (m : Memory) : (start m).Sound M :=
  ⟨Cycle.coherent_initial _, nofun, nofun, nofun⟩

namespace Body

variable {b : Body} {settings : Settings} {firstSlot : UInt16} {M : ProbedMethod}

/-- The code of a method can be run to its end, on a journey through all of its markers. -/
theorem exists_journey (h : (b.attempt settings firstSlot).result = .ok M) (w : World)
    (m : Memory) : ∃ q, M.Journey w (.start m) b.markers q ∧
      exec w M.code.toList (.start m) = some q.machine ∧ q.marker = M.spans.length := by
  obtain ⟨hT, parts, hroute, hahead, -⟩ := exists_route h
  obtain ⟨q, hq, hrun⟩ :=
    hroute.exists_journey (w := w) (s := .start m) hT hahead (Point.sound_start M m)
  have hcode : M.code.toList = parts.flatten := hahead.code
  have hspans : M.spans = spansOf 0 b.markers parts := hahead.spans
  refine ⟨q, hq, hcode ▸ hrun, ?_⟩
  rw [hq.marker_eq, hspans, hroute.length_spansOf]
  exact Nat.zero_add _

theorem exists_over (h : (b.attempt settings firstSlot).result = .ok M) (w : World) (m : Memory) :
    ∃ s, exec w M.code.toList (.start m) = some s ∧ Reaches M.code.toList w (.start m) s ∧
      s.Over M.code.toList := by
  obtain ⟨-, -, -, -, hforward⟩ := exists_route h
  obtain ⟨q, -, hrun, -⟩ := exists_journey h w m
  exact ⟨_, hrun, reaches_over hforward hrun⟩

/-- The body is accepted, and its run from zeroed memory ends in a state with a property. -/
def runsTo (b : Body) (w : World) (P : ProbedMethod → Machine → Bool) : Bool :=
  match (b.attempt {} 0).result with
  | .ok M => (exec w M.code.toList (.start fun _ => 0)).any (P M)
  | .error _ => false

theorem exists_of_runsTo {w : World} {P : ProbedMethod → Machine → Bool} (h : b.runsTo w P = true) :
    ∃ M s, (b.attempt {} 0).result = .ok M ∧ Reaches M.code.toList w (.start fun _ => 0) s ∧
      s.Over M.code.toList ∧ P M s = true := by
  rw [runsTo] at h
  cases hM : (b.attempt {} 0).result with
  | error e =>
    rw [hM] at h
    cases h
  | ok M =>
    obtain ⟨s, hs, hr, ho⟩ := exists_over hM w fun _ => 0
    rw [hM] at h
    dsimp only at h
    rw [hs] at h
    exact ⟨M, s, rfl, hr, ho, h⟩

/-- What every visit preserves holds at the end of every run of a method, which has all of the run
in its history. -/
theorem exists_point (h : (b.attempt settings firstSlot).result = .ok M) {w : World}
    {I : Point → List Marker → Prop}
    (step : ∀ x σ m ms i k s t, M.Visit w x σ m i k s t → (x.before i k s).Sound M →
      I (x.before i k s) (m :: ms) → I (x.behind σ m i k t) ms)
    {m : Memory} (hI : I (.start m) b.markers) {s : Machine}
    (hs : Reaches M.code.toList w (.start m) s) :
    ∃ q : Point, q.Sound M ∧ I q [] ∧ q.marker = M.spans.length ∧
      s.history <:+ q.machine.history ∧ (s.Over M.code.toList → s = q.machine) := by
  obtain ⟨hT, -, -, -, hforward⟩ := exists_route h
  obtain ⟨q, hq, hrun, hmarker⟩ := exists_journey h w m
  obtain ⟨hsound, hI⟩ := hq.preserves hT step (Point.sound_start M m) hI
  exact ⟨q, hsound, hI, hmarker, suffix_history hforward hrun hs, eq_of_over hforward hrun hs⟩

end Body

end MethodProbes
