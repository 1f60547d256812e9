import MethodProbes.Proofs.Machine.Pass

/-!
# Where code ends

What matters behind a part of the code is its stack, its memory and the label that it leaves for.
-/
namespace MethodProbes.Machine

/-- The code can be run to its end, where it leaves this stack and memory and this way to go. -/
def Ends (w : World) (code : List Insn) (s : Machine) (st : List Const) (m : Memory)
    (g : Option Label) : Prop :=
  ∃ t, exec w code s = some t ∧ t.stack = st ∧ t.memory = m ∧ t.going = g

section
variable {w : World} {a b : List Insn} {s : Machine} {st st' : List Const} {m m' : Memory}
  {g g' : Option Label} {pc : Nat} {h : History} {l : Label}

theorem ends_nil : Ends w [] ⟨pc, st, m, h, g⟩ st m g := ⟨_, rfl, rfl, rfl, rfl⟩

theorem Ends.append (ha : Ends w a s st m g)
    (hb : ∀ pc h, Ends w b ⟨pc, st, m, h, g⟩ st' m' g') : Ends w (a ++ b) s st' m' g' := by
  obtain ⟨⟨pc, _, _, h, _⟩, ha, rfl, rfl, rfl⟩ := ha
  rw [Ends, exec_append_of ha]
  exact hb pc h

theorem ends_of_notMem (hl : .label l ∉ a) :
    Ends w a ⟨pc, st, m, h, some l⟩ st m (some l) :=
  ⟨_, exec_of_notMem rfl hl, rfl, rfl, rfl⟩

theorem ends_of_last (hl : .label l ∉ a) :
    Ends w (a ++ [.label l, .frame l]) ⟨pc, st, m, h, some l⟩ st m none := by
  apply (ends_of_notMem hl).append
  intro pc h
  rw [Ends, exec_label_going, exec_label, exec_frame]
  exact ends_nil

/-- A label on the way to another one is passed by, and a frame is. -/
theorem ends_merge (hg : g ≠ some l) :
    Ends w [.label l, .frame l] ⟨pc, st, m, h, g⟩ st m g := by
  cases g with
  | none =>
    rw [Ends, exec_label, exec_frame]
    exact ends_nil
  | some k => exact ends_of_notMem (by simpa using fun h => hg (congrArg some h))

end

end MethodProbes.Machine
