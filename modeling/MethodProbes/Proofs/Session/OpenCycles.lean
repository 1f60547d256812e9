import MethodProbes.Proofs.Cycles.Stretches
import MethodProbes.Proofs.Session.Asked
import MethodProbes.Proofs.Session.Labels

/-!
# The open cycle of an expander

If an expander is asked for its records first, and its expansions succeed, then its variables are bound as
its tracking asks for, and those of an entry only behind an entry of the open cycle.
-/
namespace MethodProbes

open Step

def openMarkers (as : List Action) : List Marker := (as.filterMap Action.expanded?).foldl openCycle []

theorem openMarkers_expand (as : List Action) (m : Marker) :
    openMarkers (as ++ [.expand m]) = openCycle (openMarkers as) m := by
  simp [openMarkers, Action.expanded?]

theorem openMarkers_forget (as : List Action) :
    openMarkers (as ++ [.forgetMeasurement]) = openMarkers as := by
  simp [openMarkers, Action.expanded?, List.filterMap_cons]

/-- Only an entry binds the variables of an entry, and a reset gives them up. -/
theorem Context.hasEntry_of_entered {x : Context} {past : List Marker}
    (h : x.cycle.Entered → hasEntry past = true) {m : Marker} {σ : Layout}
    (he : (afterAll σ x.cycle (x.steps m)).Entered) : hasEntry (openCycle past m) = true := by
  by_cases hr : m.kind = .reset
  · rw [steps, hr] at he
    simp [Cycle.Entered, Cycle.isBound, after] at he
  rw [openCycle, if_neg hr, hasEntry_concat]
  by_cases hm : m.kind = .entry
  · simp [Marker.isEntry, hm]
  have hkept {v : Var} (hv : v = .entryTs ∨ v = .sampleHit)
      (hb : (afterAll σ x.cycle (x.steps m)).isBound v = true) : x.cycle.isBound v = true := by
    refine ((isBound_afterAll σ (x.scoped_steps hr).reset_notMem _ v).1 hb).resolve_left fun hs => ?_
    rcases store_mem_steps hm hs with ⟨-, rfl | ⟨rfl, -⟩⟩ <;> simp at hv
  rw [h (he.imp (hkept (.inl rfl)) (hkept (.inr rfl))), Bool.true_or]

theorem Cycle.Coherent.forgetMeasurement {T : Tracking} {x : Expander} (h : x.cycle.Coherent T) :
    x.forgetMeasurement.cycle.Coherent T := by
  have hbound (v : Var) : x.forgetMeasurement.cycle.isBound v = x.cycle.isBound v := by
    cases v <;> rfl
  constructor <;> simp only [Entered, hbound]
  · exact h.timed
  · exact h.sampled
  · exact h.entry
  · exact h.duration
  · exact h.level
  · exact h.timed_of_duration
  · exact fun hm => absurd hm Bool.false_ne_true

namespace Session

variable {expanders : List (Nat × Settings)} {firstSlot : UInt16} {as : List (Nat × Action)} {i : Nat}
  {x : Expander}

/-- How an expander stands that is asked for its records first and whose expansions have succeeded. -/
theorem coherent_of_recordsFirst (h : RecordsFirst i as)
    (hs : ∀ t ∈ (opened expanders firstSlot).turns as, t.index = i → t.Succeeds)
    (hx : ((opened expanders firstSlot).actAll as).expanders[i]? = some x) :
    x.cycle.Coherent x.tracking ∧
      (x.cycle.Entered → hasEntry (openMarkers (asked i as)) = true) := by
  refine h.induction (P := fun as x => x.cycle.Coherent x.tracking ∧
    (x.cycle.Entered → hasEntry (openMarkers as) = true)) (fun as y hy _ => ?_)
    (fun bs m y hb hsound hy ih => ?_) (fun before y ih => ?_) hx
  · rw [hy]
    exact ⟨Cycle.coherent_initial _, by simp [Cycle.Entered, Cycle.isBound]⟩
  · let t : Turn := ⟨(opened expanders firstSlot).actAll bs, i, .expand m⟩
    have herror : (y.expand m t.before.buffer).error = none :=
      (t.performs hy).1.symm.trans (hs t (mem_turns_of_begins hb) rfl m rfl)
    have hplaced : MethodProbes.Placed t.before.buffer y.cycle :=
      placed_actAll (placed_opened expanders firstSlot) bs y (List.mem_of_getElem? hy)
    have hexpand : y.expand m t.before.buffer = ⟨(y.expand m t.before.buffer).expander,
        (y.expand m t.before.buffer).buffer, (y.expand m t.before.buffer).registration, none⟩ := by
      rw [← herror]
    obtain ⟨id, σ, hw⟩ := Expander.exists_writes hplaced hexpand
    let z : Context := y.context id t.before.buffer.nextLabel
    rw [openMarkers_expand, hw.expander]
    exact ⟨Cycle.Coherent.steps (x := z) hsound ih.1 m σ,
      Context.hasEntry_of_entered (x := z) ih.2⟩
  · rw [openMarkers_forget]
    refine ⟨ih.1.forgetMeasurement, fun he => ih.2 ?_⟩
    exact he

/-- An expansion that succeeds, behind others of the same expander that have, writes the code of its
marker. -/
theorem exists_writes_of_recordsFirst {t : Turn} {m : Marker}
    (hbefore : t.before = (opened expanders firstSlot).actAll as) (h : RecordsFirst t.index as)
    (hs : ∀ u ∈ (opened expanders firstSlot).turns as, u.index = t.index → u.Succeeds)
    (hx : t.expander? = some x) (ha : t.action = .expand m) (he : t.error? = none) :
    ∃ id σ y, t.Writes x m id σ y ∧ x.tracking.Sound ∧ x.cycle.Coherent x.tracking ∧
      (x.cycle.Entered → hasEntry (openMarkers (asked t.index as)) = true) := by
  have hreached : ((opened expanders firstSlot).actAll as).expanders[t.index]? = some x :=
    hbefore ▸ hx
  have hplaced : t.before.Placed := hbefore ▸ placed_actAll (placed_opened expanders firstSlot) as
  obtain ⟨id, σ, y, hw⟩ := Turn.exists_writes hplaced hx ha he
  exact ⟨id, σ, y, hw, (sound_of_asked hreached).1, coherent_of_recordsFirst h hs hreached⟩

end Session

end MethodProbes
