import MethodProbes.Proofs.Machine.StackTypes
import MethodProbes.Proofs.Session.Writes

/-!
# The stack discipline of probe code

The code of a marker is spliced in where the operand stack may hold anything.  It finds all its
operands among its own, and leaves nothing behind but the value that the signature of its template
promises.
-/
namespace MethodProbes

open Step

def MarkerKind.results (k : MarkerKind) : List ValueType := if k = .duration then [.long] else []

namespace Types

variable {c : Const} {r : Slot} {st out : List ValueType} {code : List Insn}

theorem push (rest : Types (c.type :: st) code out) : Types st (.push c :: code) out :=
  .cons st rfl nofun rest

theorem load (ty : ValueType) (rest : Types (ty.carrier :: st) code out) :
    Types st (.load ty r :: code) out :=
  .cons st rfl nofun rest

theorem store (ty : ValueType) (rest : Types st code out) :
    Types (ty.carrier :: st) (.store ty r :: code) out :=
  .cons st rfl nofun rest

theorem jump {c : Cond} {l : Label} (h : st = List.replicate c.operands .int)
    (rest : Types [] code out) : Types st (.jump c l :: code) out :=
  .cons [] (by rw [h, List.append_nil]; rfl) (fun _ => rfl) rest

end Types

section
variable (σ : Layout)

theorem Asks.types {call : ProbeCall} {ss : List Step} (h : Asks call ss) :
    Types [] (written σ ss) (call.ret.map ValueType.carrier).toList := by
  have hinvoke {st : List ValueType} (hst : st = (call.params.map ValueType.carrier).reverse) :
      Types st [.invoke call.callee] (call.ret.map ValueType.carrier).toList := by
    refine .cons [] (by rw [hst, List.append_nil]; rfl) nofun ?_
    rw [List.append_nil]
    exact .nil _
  cases h with
  | clock => exact hinvoke rfl
  | withId id h =>
    refine .push (hinvoke ?_)
    cases call <;> first | rfl | exact absurd rfl h

/-- A test of the level pushes its operands itself. -/
theorem types_levelTest (field : String) (bound : Bool) (n : Int32) {c d : Cond}
    (hc : c.operands = 1) (hd : d.operands = 2) (l : Label) :
    Types [] (written σ (Gate.pushLevel field bound ++ Gate.compare n c d l)) [] := by
  have hlevel : Types [] (written σ (Gate.pushLevel field bound)) [.int] := by
    cases bound with
    | true => exact .load _ (.nil _)
    | false => exact .cons [] rfl nofun (.cons [] rfl nofun (.store .int (.nil _)))
  rw [written_append]
  apply hlevel.append
  rw [Gate.compare]
  split
  · exact .jump (by rw [hc]; rfl) (.nil _)
  · exact .push (.jump (by rw [hd]; rfl) (.nil _))

/-- A phrase leaves the stack as it found it. -/
theorem Phrase.types {p : List Step} (h : Phrase p) : Types [] (written σ p) [] := by
  cases h with
  | @note s h =>
    cases s with
    | emit _ | load _ | store _ => cases h
    | _ => exact .nil []
  | merge l => exact .cons [] rfl (fun _ => rfl) (.cons [] rfl nofun (.nil _))
  | goto l => exact .jump rfl (.nil _)
  | @constant v c h =>
    have hcarrier : c.type = v.type.carrier := h.trans v.carrier_type.symm
    exact .push (hcarrier ▸ .store _ (.nil _))
  | levelTest field bound n hc hd l => exact types_levelTest σ field bound n hc hd l
  | flagTest l => exact .load _ (.jump rfl (.nil _))
  | @keep call ss v h hret =>
    rw [written_append]
    apply (h.types σ).append
    rw [hret, ← v.carrier_type]
    exact .store _ (.nil _)
  | keepTimeAndFlag h hret =>
    rw [written_append]
    apply (h.types σ).append
    rw [hret]
    exact .cons [] rfl nofun (.store .long (.cons [] rfl nofun (.store .int (.nil _))))
  | elapsed h hret =>
    rw [written_append]
    apply (h.types σ).append
    rw [hret]
    exact .load _ (.cons [] rfl nofun (.store .long (.nil _)))
  | tell h hret =>
    have hcall := h.types σ
    rwa [hret] at hcall

theorem Phrased.types {ss : List Step} (h : Phrased ss) : Types [] (written σ ss) [] := by
  induction h with
  | nil => exact .nil []
  | append phrase _ ih =>
    rw [written_append]
    exact (phrase.types σ).append ih

theorem Context.types_steps (x : Context) (m : Marker) :
    Types [] (written σ (x.steps m)) m.kind.results := by
  rw [MarkerKind.results]
  split
  next hm =>
    rw [steps, hm]
    dsimp only [durationSteps]
    split
    · exact .load _ (.nil _)
    · exact .push (.nil _)
  next hm => exact (x.phrased_steps hm).types σ

end

namespace Session

variable {expanders : List (Nat × Settings)} {firstSlot : UInt16} {as : List (Nat × Action)}

/-- Whatever the expanders of a session have been asked before, the code of a marker that is
expanded has stack types.  It is entered with an empty stack, and ends with what the signature of
its template promises.  Its jumps, which leave the stack empty, go to labels behind them in the same
code, but for the sample branch of a test, which goes to a new label that is left to be placed. -/
theorem exists_stackMap_emitted {t : Turn} (ht : t ∈ (opened expanders firstSlot).turns as)
    {m : Marker} (ha : t.action = .expand m) (hx : t.expander?.isSome) (he : t.error? = none) :
    (∃ τ, StackMap t.emitted τ m.kind.results) ∧
      m.kind.descriptor = (if m.kind.results = [] then "()V" else "()J") ∧
      ∀ (i : Nat) (c : Cond) (l : Label), t.emitted[i]? = some (.jump c l) →
        (∃ j : Nat, i < j ∧ t.emitted[j]? = some (.label l)) ∨
          t.Branches l ∧ t.before.buffer.nextLabel ≤ l.id ∧ t.after.pending? t.index = some l := by
  obtain ⟨x, hx⟩ := Option.isSome_iff_exists.1 hx
  obtain ⟨id, σ, y, hw⟩ := Turn.exists_writes (placed_of_mem_turns (placed_opened _ _) ht) hx ha he
  refine ⟨?_, ?_, fun i c l hi => ?_⟩
  · rw [hw.emitted]
    exact (Context.types_steps σ _ m).exists_stackMap
  · cases m.kind <;> rfl
  · exact (hw.target hi).imp_right fun hb =>
      ⟨hb, (hw.of_branches hb).2.2, hw.pending?_of_branches hb⟩

/-- The test of a timed and sampled method whose entry has been expanded branches at its start. -/
theorem exists_stackMap_emitted_test :
    let entry := (Marker.ofKind .entry).withFlag "timed" |>.withSampler (some .adaptive)
    let test := (Marker.ofKind .test).withFlag "timed"
    let as := [(0, Action.record entry), (0, .expand entry)]
    let t : Turn := ⟨(opened [(7, {})] 0).actAll as, 0, .expand test⟩
    t ∈ (opened [(7, {})] 0).turns (as ++ [(0, .expand test)]) ∧ t.error? = none ∧
      (∃ τ, StackMap t.emitted τ []) ∧ t.emitted[1]? = some (.jump .ifZero ⟨1⟩) ∧
        t.Branches ⟨1⟩ := by
  intro entry test as t
  have ht : t ∈ (opened [(7, {})] 0).turns (as ++ [(0, .expand test)]) := by
    rw [turns_concat]
    exact List.mem_append_right _ List.mem_cons_self
  have he : t.error? = none := by decide
  obtain ⟨hmap, -, hjump⟩ := exists_stackMap_emitted ht rfl (by decide) he
  have hat : t.emitted[1]? = some (.jump .ifZero ⟨1⟩) := by decide
  refine ⟨ht, he, hmap, hat, ?_⟩
  rcases hjump 1 _ _ hat with ⟨j, -, hj⟩ | ⟨hb, -⟩
  · exact absurd (List.mem_of_getElem? hj) (by decide)
  · exact hb

end Session

end MethodProbes
