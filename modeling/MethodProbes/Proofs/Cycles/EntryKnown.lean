import MethodProbes.Proofs.Cycles.EntryCalls

/-!
# A run knows the entry of its cycle

If no reset stands between a test and the else marker behind it, a run executes no marker of a cycle
whose entry it has passed by.  So the entry before it made its call, or its gate skipped the call.
-/
namespace MethodProbes

open Step Machine History

def ElseFirst (ms : List Marker) : Prop :=
  ∀ mid e post, ms = mid ++ e :: post → e.kind = .elseBranch →
    (∀ m ∈ mid, m.kind ≠ .elseBranch) → ∀ m ∈ mid, m.kind ≠ .reset

/-- No reset stands between a test and the first else marker behind it. -/
def ElseBeforeReset (ms : List Marker) : Prop :=
  ∀ pre t mid e post, ms = pre ++ t :: (mid ++ e :: post) → t.kind = .test →
    e.kind = .elseBranch → (∀ m ∈ mid, m.kind ≠ .elseBranch) → ∀ m ∈ mid, m.kind ≠ .reset

section
variable {m : Marker} {ms : List Marker}

theorem ElseBeforeReset.tail (h : ElseBeforeReset (m :: ms)) : ElseBeforeReset ms :=
  fun pre t mid e post he => h (m :: pre) t mid e post (congrArg (m :: ·) he)

theorem ElseBeforeReset.elseFirst (h : ElseBeforeReset (m :: ms)) (hm : m.kind = .test) :
    ElseFirst ms := fun mid e post he => h [] m mid e post (congrArg (m :: ·) he) hm

theorem ElseFirst.tail (h : ElseFirst (m :: ms)) (hm : m.kind ≠ .elseBranch) : ElseFirst ms := by
  intro mid e post he hkind hmid n hn
  refine h (m :: mid) e post (congrArg (m :: ·) he) hkind (fun k hk => ?_) n
    (List.mem_cons_of_mem m hn)
  exact (List.mem_cons.1 hk).elim (fun hk => hk ▸ hm) (hmid k)

theorem ElseFirst.no_else_of_reset (h : ElseFirst (m :: ms)) (hm : m.kind = .reset) :
    ∀ n ∈ ms, n.kind ≠ .elseBranch := by
  intro n hn hkind
  obtain ⟨e, he⟩ : ∃ e, ms.find? (·.kind = .elseBranch) = some e :=
    Option.isSome_iff_exists.1 (List.find?_isSome.2 ⟨n, hn, by simpa using hkind⟩)
  obtain ⟨hels, mid, post, rfl, hmid⟩ := List.find?_eq_some_iff_append.1 he
  refine h (m :: mid) e post rfl (by simpa using hels) (fun k hk => ?_) m List.mem_cons_self hm
  rcases List.mem_cons.1 hk with rfl | hk
  · simp [hm]
  · simpa using hmid k hk

theorem elseFirst_nil : ElseFirst [] :=
  fun _ _ _ he => absurd he.symm (List.append_ne_nil_of_right_ne_nil _ (List.cons_ne_nil _ _))

theorem elseFirst_cons : ElseFirst (m :: ms) ↔ m.kind = .elseBranch ∨
    (m.kind = .reset → ∀ n ∈ ms, n.kind ≠ .elseBranch) ∧ ElseFirst ms := by
  constructor
  · intro h
    by_cases hm : m.kind = .elseBranch
    · exact .inl hm
    · exact .inr ⟨h.no_else_of_reset, h.tail hm⟩
  · rintro h (- | ⟨a, mid⟩) e post he hkind hmid n hn
    · cases hn
    · obtain ⟨rfl, rfl⟩ := List.cons.inj he
      obtain ⟨hreset, hfirst⟩ := h.resolve_left (hmid m List.mem_cons_self)
      rcases List.mem_cons.1 hn with rfl | hn
      · intro hm
        exact hreset hm e List.mem_append_cons_self hkind
      · exact hfirst mid e post rfl hkind (fun k hk => hmid k (List.mem_cons_of_mem m hk)) n hn

theorem elseBeforeReset_nil : ElseBeforeReset [] :=
  fun _ _ _ _ _ he => absurd he.symm (List.append_ne_nil_of_right_ne_nil _ (List.cons_ne_nil _ _))

theorem elseBeforeReset_cons : ElseBeforeReset (m :: ms) ↔
    (m.kind = .test → ElseFirst ms) ∧ ElseBeforeReset ms := by
  constructor
  · intro h
    exact ⟨h.elseFirst, h.tail⟩
  · rintro ⟨hfirst, hms⟩ (- | ⟨a, pre⟩) t mid e post he ht
    · obtain ⟨rfl, rfl⟩ := List.cons.inj he
      exact hfirst ht mid e post rfl
    · exact hms pre t mid e post (List.cons.inj he).2 ht

instance decidableElseFirst : (ms : List Marker) → Decidable (ElseFirst ms)
  | [] => isTrue elseFirst_nil
  | _ :: ms =>
    have := decidableElseFirst ms
    decidable_of_iff _ elseFirst_cons.symm

instance decidableElseBeforeReset : (ms : List Marker) → Decidable (ElseBeforeReset ms)
  | [] => isTrue elseBeforeReset_nil
  | _ :: ms =>
    have := decidableElseBeforeReset ms
    decidable_of_iff _ elseBeforeReset_cons.symm

end

def Point.Known (M : ProbedMethod) (p : Point) : Prop :=
  (∃ e r, p.Called M e r) ∨ p.Skipped M

/-- A run that executes code knows the entry of its cycle.  A run on its way to an else target that
may come has executed the call of its cycle. -/
structure Point.Aware (M : ProbedMethod) (p : Point) (ms : List Marker) : Prop where
  here : p.machine.going = none → p.cycle.Entered → p.Known M
  away : ∀ l, p.machine.going = some l → p.cycle.pendingElse = some l →
    (∃ e r, p.Called M e r) ∧ ElseFirst ms ∨ ∀ m ∈ ms, m.kind ≠ .elseBranch
  order : ElseBeforeReset ms

theorem Point.aware_start {M : ProbedMethod} {m : Memory} {ms : List Marker}
    (h : ElseBeforeReset ms) : (start m).Aware M ms := by
  refine ⟨fun _ he => ?_, nofun, h⟩
  rcases he with he | he <;> cases he

namespace ProbedMethod.Visit

variable {M : ProbedMethod} {w : World} {x : Context} {σ : Layout} {m : Marker} {ms : List Marker}
  {i k : Nat} {s t : Machine}

theorem skipped_behind (h : M.Visit w x σ m i k s t) (hp : (x.before i k s).Sound M)
    (hm : m.kind ≠ .reset) (he : x.cycle.Entered) (hs : (x.before i k s).Skipped M) :
    (x.behind σ m i k t).Skipped M := by
  have hround : m.kind.nextCycle k = k := if_neg hm
  obtain ⟨L, hL, hlevel⟩ := hs.level
  refine ⟨?_, ⟨L, hL, fun hcmp => ?_⟩, fun v hv => ?_⟩
  · rw [Context.behind, hround, h.entryCalls_of_entered he]
    exact hs.calls
  · exact h.holds_behind (v := .level) hp hm he (by simp) (hlevel hcmp)
  · refine h.holds_behind hp hm he ?_ (hs.zero v hv)
    rcases Tracking.mem_entryVars.1 hv with ⟨rfl, -⟩ | ⟨rfl, -⟩ <;> simp

theorem known_behind (h : M.Visit w x σ m i k s t) (hp : (x.before i k s).Sound M)
    (hm : m.kind ≠ .reset) (he : x.cycle.Entered) (hk : (x.before i k s).Known M) :
    (x.behind σ m i k t).Known M :=
  hk.imp (fun ⟨e, r, hc⟩ => ⟨e, r, h.called_behind hp hm hc⟩) (h.skipped_behind hp hm he)

theorem not_entered_of_reset (hm : m.kind = .reset) : ¬ (x.behind σ m i k t).cycle.Entered := by
  rw [Context.behind, Context.steps, hm]
  simp [Cycle.Entered, Cycle.isBound, Step.after]

theorem entered_of_behind (hm : m.kind ≠ .reset) (hk : m.kind = .entry → x.entrySteps = [])
    (he : (x.behind σ m i k t).cycle.Entered) : x.cycle.Entered := by
  have hr : .reset ∉ x.steps m := reset_notMem hm
  have hstore {v : Var} (hv : v ≠ .level) (hv' : v ≠ .duration) : .store v ∉ x.steps m := by
    intro hs
    by_cases hentry : m.kind = .entry
    · rw [Context.steps, hentry] at hs
      simp [hk hentry] at hs
    · rcases (Context.store_mem_steps hentry hs).2 with rfl | ⟨rfl, -⟩
      · exact hv rfl
      · exact hv' rfl
  have hbound {v : Var} (hv : v ≠ .level) (hv' : v ≠ .duration)
      (hb : (x.behind σ m i k t).cycle.isBound v = true) : x.cycle.isBound v = true :=
    ((isBound_afterAll σ hr _ _).1 hb).resolve_left (hstore hv hv')
  exact he.imp (hbound (by simp) (by simp)) (hbound (by simp) (by simp))

/-- A run that executes a marker knows the entry of its cycle behind it. -/
theorem known_of_here (hT : M.tracking.Sound) (h : M.Visit w x σ m i k s t)
    (hp : (x.before i k s).Sound M) (ho : (x.before i k s).OneCall M)
    (ha : (x.before i k s).Aware M (m :: ms)) (hgo : t.going = none)
    (he : (x.behind σ m i k t).cycle.Entered) : (x.behind σ m i k t).Known M := by
  have hreset : m.kind ≠ .reset := fun hm => not_entered_of_reset hm he
  have hkeep (hs : s.going = none) (hk : m.kind = .entry → x.entrySteps = []) :
      (x.behind σ m i k t).Known M := by
    have he := entered_of_behind hreset hk he
    exact h.known_behind hp hreset he (ha.here hs he)
  cases h.outcome with
  | passes _ _ still => cases still.symm.trans hgo
  | arrives kind going pending =>
    -- the else marker is the one that the run was on its way to
    rcases ha.away _ going pending with ⟨⟨e, r, hc⟩, -⟩ | hno
    · exact .inl ⟨e, r, h.called_behind hp hreset hc⟩
    · exact absurd kind (hno m List.mem_cons_self)
  | enters kind _ _ enters => exact h.called_or_skipped hT hp ho kind enters
  | tests kind going => exact hkeep going (by simp [kind])
  | exits kind going => exact hkeep going (by simp [kind])
  | pushes kind going => exact hkeep going (by simp [kind])
  | rests kind going =>
    apply hkeep going
    intro hentry
    rcases kind with ⟨-, hnil⟩ | hk | hk
    · exact hnil
    · simp [hentry] at hk
    · simp [hentry] at hk

theorem pending_of_passes (hp : (x.before i k s).Sound M) {l : Label} (hgo : s.going = some l)
    (hpend : (x.behind σ m i k t).cycle.pendingElse = some l) :
    m.kind ≠ .elseBranch ∧ x.cycle.pendingElse = some l := by
  have hpend : (afterAll σ x.cycle (x.steps m)).pendingElse = some l := hpend
  rw [Context.pendingElse_steps] at hpend
  cases hm : m.kind with
  | test =>
    simp only [hm] at hpend
    split at hpend
    next =>
      -- the target of this test is newer than the one that the run is on its way to
      cases hpend
      have hlt : x.nextLabel + 1 < x.nextLabel := hp.going _ hgo
      omega
    next => exact ⟨nofun, hpend⟩
  | elseBranch =>
    rw [hm] at hpend
    cases hpend
  | _ =>
    rw [hm] at hpend
    exact ⟨nofun, hpend⟩

theorem called_of_passes (h : M.Visit w x σ m i k s t) (hk : (x.before i k s).Known M) {L : Int32}
    (hd : x.Decided σ s.memory L) (hL : ¬ x.tracking.gate.Skips L) :
    ∃ e r, (x.before i k s).Called M e r := by
  refine hk.resolve_right fun hs => hL ?_
  obtain ⟨L', hL', hlevel⟩ := hs.level
  rw [← h.tracking] at hL'
  exact (hd.skips_iff fun hc _ => (h.decided hlevel hc).2).1 hL'

theorem away_behind (h : M.Visit w x σ m i k s t) (hp : (x.before i k s).Sound M)
    (ha : (x.before i k s).Aware M (m :: ms)) {l : Label} (hgo : t.going = some l)
    (hpend : (x.behind σ m i k t).cycle.pendingElse = some l) :
    (∃ e r, (x.behind σ m i k t).Called M e r) ∧ ElseFirst ms ∨
      ∀ n ∈ ms, n.kind ≠ .elseBranch := by
  cases h.outcome with
  | passes going _ still =>
    obtain rfl := Option.some.inj (still.symm.trans hgo)
    obtain ⟨hm, hpend⟩ := pending_of_passes hp going hpend
    rcases ha.away _ going hpend with ⟨⟨e, r, hc⟩, hfirst⟩ | hno
    · by_cases hreset : m.kind = .reset
      · exact .inr (hfirst.no_else_of_reset hreset)
      · exact .inl ⟨⟨e, r, h.called_behind hp hreset hc⟩, hfirst.tail hm⟩
    · exact .inr fun n hn => hno n (List.mem_cons_of_mem m hn)
  | tests kind going run =>
    have hreset : m.kind ≠ .reset := by simp [kind]
    obtain ⟨L, hL⟩ := x.exists_decided (h.tracking ▸ hp.coherent) σ s.memory
    cases (run L hL).2 with
    | left _ bound passes =>
      have hentered : x.cycle.Entered := .inr bound
      obtain ⟨e, r, hc⟩ := h.called_of_passes (ha.here going hentered) (hL hentered) passes
      exact .inl ⟨⟨e, r, h.called_behind hp hreset hc⟩, ha.order.elseFirst kind⟩
    | rest here => cases here.symm.trans hgo
    | measured here => cases here.symm.trans hgo
  | arrives _ _ _ here => cases here.symm.trans hgo
  | enters _ _ here => cases here.symm.trans hgo
  | exits _ _ here => cases here.symm.trans hgo
  | pushes _ _ here => cases here.symm.trans hgo
  | rests _ _ here => cases here.symm.trans hgo

theorem aware (hT : M.tracking.Sound) (h : M.Visit w x σ m i k s t)
    (hp : (x.before i k s).Sound M) (ho : (x.before i k s).OneCall M)
    (ha : (x.before i k s).Aware M (m :: ms)) : (x.behind σ m i k t).Aware M ms :=
  ⟨h.known_of_here hT hp ho ha, fun _ => h.away_behind hp ha, ha.order.tail⟩

end ProbedMethod.Visit

end MethodProbes
