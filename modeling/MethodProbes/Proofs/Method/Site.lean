import MethodProbes.Method.Basic

/-!
# Sites

Every instruction of a method belongs to a marker.  A cycle is the stretch of markers from one reset
to the next; a reset marker itself closes the cycle before it.
-/
namespace MethodProbes

structure Site where
  /-- The index of the marker. -/
  marker : Nat
  kind : MarkerKind
  /-- Number of resets before the marker. -/
  cycle : Nat
  deriving DecidableEq

def MarkerKind.nextCycle (m : MarkerKind) (k : Nat) : Nat := if m = .reset then k + 1 else k

/-- The site of an instruction in the spans from marker `i` on, which is in cycle `k`. -/
def siteIn (i k : Nat) : List Span → Nat → Option Site
  | [], _ => none
  | s :: ss, n =>
    if n < s.stop then some ⟨i, s.kind, k⟩ else siteIn (i + 1) (s.kind.nextCycle k) ss n

def spansOf (n : Nat) : List Marker → List (List Insn) → List Span
  | m :: ms, code :: parts => ⟨m.kind, n, n + code.length⟩ :: spansOf (n + code.length) ms parts
  | _, _ => []

namespace ProbedMethod

variable (M : ProbedMethod)

def site? (n : Nat) : Option Site := siteIn 0 0 M.spans n

def kind? (i : Nat) : Option MarkerKind := M.spans[i]?.map (·.kind)

def cycleOf (i : Nat) : Nat := (M.spans.take i).countP (·.kind = .reset)

/-- From index `n` on, the method is the code of these markers, the first of which has index `i` and
is in cycle `k`. -/
structure Ahead (i k n : Nat) (ms : List Marker) (parts : List (List Insn)) : Prop where
  spans : M.spans.drop i = spansOf n ms parts
  code : M.code.toList.drop n = parts.flatten
  site : ∀ j, n ≤ j → M.site? j = siteIn i k (M.spans.drop i) j
  cycle : M.cycleOf i = k

namespace Ahead

variable {M} {i k n : Nat} {m : Marker} {ms : List Marker} {code : List Insn}
  {parts : List (List Insn)}

theorem start (hs : M.spans = spansOf 0 ms parts) (hc : M.code.toList = parts.flatten) :
    M.Ahead 0 0 0 ms parts := ⟨hs, hc, fun _ _ => rfl, rfl⟩

theorem span_eq (h : M.Ahead i k n (m :: ms) (code :: parts)) :
    M.spans[i]? = some ⟨m.kind, n, n + code.length⟩ := by
  rw [← List.head?_drop, h.spans]
  rfl

theorem kind?_eq (h : M.Ahead i k n (m :: ms) (code :: parts)) : M.kind? i = some m.kind := by
  rw [kind?, h.span_eq]
  rfl

theorem segment?_eq (h : M.Ahead i k n (m :: ms) (code :: parts)) :
    M.segment? i = some code := by
  rw [segment?, h.span_eq, Option.map_some, segment, Array.toList_extract,
    List.extract_eq_take_drop, h.code, List.flatten_cons, Nat.add_sub_cancel_left, List.take_left]

theorem site?_eq (h : M.Ahead i k n (m :: ms) (code :: parts)) {j : Nat} (hn : n ≤ j)
    (hj : j < n + code.length) : M.site? j = some ⟨i, m.kind, k⟩ := by
  rw [h.site j hn, h.spans]
  exact if_pos hj

theorem next (h : M.Ahead i k n (m :: ms) (code :: parts)) :
    M.Ahead (i + 1) (m.kind.nextCycle k) (n + code.length) ms parts := by
  have hspans : M.spans.drop (i + 1) = spansOf (n + code.length) ms parts := by
    rw [← List.tail_drop, h.spans]
    rfl
  refine ⟨hspans, ?_, fun j hj => ?_, ?_⟩
  · rw [← List.drop_drop, h.code, List.flatten_cons, List.drop_left]
  · rw [h.site j (Nat.le_trans (Nat.le_add_right _ _) hj), hspans, h.spans]
    exact if_neg (Nat.not_lt.2 hj)
  · rw [cycleOf, List.take_add_one, h.span_eq, List.countP_append]
    exact (congrArg (· + _) h.cycle).trans (by cases m.kind <;> rfl)

end Ahead

end ProbedMethod

end MethodProbes
