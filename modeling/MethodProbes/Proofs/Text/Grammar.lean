import Mathlib.Data.List.Induction
import Mathlib.Data.List.TakeWhile
import Mathlib.Data.Nat.Digits.Defs
import MethodProbes.Text.Blank
import MethodProbes.Text.Numeral

/-!
# Words, parts and numerals by their form

What the readers of texts find is described by the form of the text alone: words are maximal runs between
blanks, the first separator has none before it, and a numeral is a sign and the digits of its value.
-/
namespace MethodProbes.Text

/-- The maximal runs of characters that are not blank, in order. -/
inductive Runs : List Char → List (List Char) → Prop where
  | nil : Runs [] []
  | blank {c : Char} {cs : List Char} {ws : List (List Char)} (hc : isBlank c = true)
      (h : Runs cs ws) : Runs (c :: cs) ws
  | run {w cs : List Char} {ws : List (List Char)} (hne : w ≠ [])
      (hw : ∀ c ∈ w, isBlank c = false) (hmax : ∀ c ∈ cs.head?, isBlank c = true)
      (h : Runs cs ws) : Runs (w ++ cs) (w :: ws)

/-- The parts of a text around the first separator; without one there is no second part. -/
inductive Parts (d : Char) : List Char → List Char → Option (List Char) → Prop where
  | whole {cs : List Char} (h : d ∉ cs) : Parts d cs cs none
  | parts {k v : List Char} (h : d ∉ k) : Parts d (k ++ d :: v) k (some v)

/-- ASCII digits and their value, the last digit being that of the ones. -/
structure IsDigits (ds : List Char) (n : Nat) : Prop where
  nonempty : ds ≠ []
  digits : ∀ c ∈ ds, c.isDigit = true
  value : n = Nat.ofDigits 10 (ds.reverse.map fun c => c.toNat - 48)

inductive IsNumeral : List Char → Int → Prop where
  | unsigned {ds : List Char} {n : Nat} (h : IsDigits ds n) : IsNumeral ds n
  | plus {ds : List Char} {n : Nat} (h : IsDigits ds n) : IsNumeral ('+' :: ds) n
  | minus {ds : List Char} {n : Nat} (h : IsDigits ds n) : IsNumeral ('-' :: ds) (-n)

theorem words_cons_blank {c : Char} (hc : isBlank c = true) (cs : List Char) :
    words (c :: cs) = words cs := by
  simp [words, List.splitOnP_cons_eq_if_modifyHead, hc]

theorem words_append {w cs : List Char} (hne : w ≠ []) (hw : ∀ c ∈ w, isBlank c = false)
    (hmax : ∀ c ∈ cs.head?, isBlank c = true) : words (w ++ cs) = w :: words cs := by
  have hkeep : (! w.isEmpty) = true := by simpa using hne
  cases cs with
  | nil =>
    rw [List.append_nil, words, List.splitOnP_eq_singleton hw, List.filter_cons, if_pos hkeep]
    rfl
  | cons c cs =>
    have hc : isBlank c = true := hmax c rfl
    rw [words_cons_blank hc, words, List.splitOnP_append_cons_of_forall_mem hw c hc,
      List.filter_cons, if_pos hkeep]
    rfl

theorem Runs.blanks {gap cs : List Char} {ws : List (List Char)} (hgap : ∀ c ∈ gap, isBlank c = true)
    (h : Runs cs ws) : Runs (gap ++ cs) ws := by
  induction gap with
  | nil => exact h
  | cons c gap ih =>
    obtain ⟨hc, hgap⟩ := List.forall_mem_cons.1 hgap
    exact .blank hc (ih hgap)

theorem Runs.eq_words {cs : List Char} {ws : List (List Char)} (h : Runs cs ws) : ws = words cs := by
  induction h with
  | nil => rfl
  | blank hc _ ih => rw [words_cons_blank hc, ih]
  | run hne hw hmax _ ih => rw [words_append hne hw hmax, ih]

theorem exists_runs (cs : List Char) : ∃ ws, Runs cs ws := by
  induction hn : cs.length using Nat.strong_induction_on generalizing cs with
  | _ n ih =>
    subst hn
    cases cs with
    | nil => exact ⟨[], .nil⟩
    | cons c cs =>
      cases hc : isBlank c with
      | true =>
        obtain ⟨ws, h⟩ := ih cs.length (Nat.lt_succ_self _) cs rfl
        exact ⟨ws, .blank hc h⟩
      | false =>
        -- the run that `c` begins, and what comes behind it
        have hsplit := List.takeWhile_append_dropWhile (p := (! isBlank ·)) (l := cs)
        have hlen : (cs.dropWhile (! isBlank ·)).length ≤ cs.length :=
          (List.dropWhile_sublist _).length_le
        obtain ⟨ws, h⟩ := ih _ (Nat.lt_succ_of_le hlen) _ rfl
        have hrun : Runs (c :: cs.takeWhile (! isBlank ·) ++ cs.dropWhile (! isBlank ·))
            ((c :: cs.takeWhile (! isBlank ·)) :: ws) := by
          refine .run (by simp) (List.forall_mem_cons.2 ⟨hc, fun d hd => ?_⟩) (fun d hd => ?_) h
          · simpa using List.mem_takeWhile_imp hd
          · have hnot := List.head?_dropWhile_not (p := (! isBlank ·)) cs
            rw [Option.mem_def.1 hd] at hnot
            simpa using hnot
        rw [List.cons_append, hsplit] at hrun
        exact ⟨_, hrun⟩

theorem runs_words (cs : List Char) : Runs cs (words cs) := by
  obtain ⟨ws, h⟩ := exists_runs cs
  exact h.eq_words ▸ h

theorem Runs.isBlank_eq_false {cs : List Char} {ws : List (List Char)} (h : Runs cs ws) :
    ∀ w ∈ ws, ∀ c ∈ w, isBlank c = false := by
  induction h with
  | nil => simp
  | blank _ _ ih => exact ih
  | run _ hw _ _ ih => exact List.forall_mem_cons.2 ⟨hw, ih⟩

theorem splitFirst_eq_iff {d : Char} {cs k : List Char} {r : Option (List Char)} :
    splitFirst d cs = (k, r) ↔ Parts d cs k r := by
  constructor
  · intro h
    obtain ⟨rfl, rfl⟩ := Prod.mk.inj h
    have hd : d ∉ cs.takeWhile (· != d) := fun hm => by simpa using List.mem_takeWhile_imp hm
    have hsplit := List.takeWhile_append_dropWhile (p := (· != d)) (l := cs)
    have hhead := List.head?_dropWhile_not (p := (· != d)) cs
    cases hrest : cs.dropWhile (· != d) with
    | nil =>
      rw [hrest, List.append_nil] at hsplit
      rw [hsplit] at hd ⊢
      exact .whole hd
    | cons c v =>
      obtain rfl : c = d := by simpa [hrest] using hhead
      rw [hrest] at hsplit
      simpa [hsplit] using Parts.parts (v := v) hd
  · intro h
    cases h with
    | whole h =>
      have hcs : ∀ c ∈ cs, (c != d) = true := fun c hc => by
        simpa using fun heq : c = d => h (heq ▸ hc)
      rw [splitFirst, List.takeWhile_eq_self_iff.2 hcs, List.dropWhile_eq_nil_iff.2 hcs]
      rfl
    | parts h =>
      have hk : ∀ c ∈ k, (c != d) = true := fun c hc => by
        simpa using fun heq : c = d => h (heq ▸ hc)
      simp [splitFirst, List.takeWhile_append_of_pos hk, List.dropWhile_append_of_pos hk]

theorem trim_eq_self {cs : List Char} (h : ∀ c ∈ cs, isBlank c = false) : trim cs = cs := by
  have hself {ds : List Char} (h : ∀ c ∈ ds, isBlank c = false) : ds.dropWhile isBlank = ds := by
    cases ds with
    | nil => rfl
    | cons c ds => simp [h c List.mem_cons_self]
  rw [trim, hself h, hself (by simpa using h), List.reverse_reverse]

theorem foldl_digits (ds : List Char) : ds.foldl (fun n c => 10 * n + (c.toNat - 48)) 0 =
    Nat.ofDigits 10 (ds.reverse.map fun c => c.toNat - 48) := by
  induction ds using List.reverseRecOn with
  | nil => rfl
  | append_singleton ds c ih =>
    rw [List.foldl_append, ih, List.reverse_append]
    simp [Nat.ofDigits_cons, Nat.add_comm]

theorem digits?_eq_some_iff {ds : List Char} {n : Nat} : digits? ds = some n ↔ IsDigits ds n := by
  rw [digits?, foldl_digits]
  constructor
  · intro h
    split at h
    next hds =>
      obtain ⟨hne, hdigits⟩ := Bool.and_eq_true_iff.1 hds
      exact ⟨by simpa using hne, List.all_eq_true.1 hdigits, (Option.some.inj h).symm⟩
    next => cases h
  · rintro ⟨hne, hdigits, rfl⟩
    rw [if_pos (by simpa using ⟨hne, hdigits⟩)]

theorem numeral?_eq_some_iff {cs : List Char} {n : Int} : numeral? cs = some n ↔ IsNumeral cs n := by
  constructor
  · intro h
    unfold numeral? at h
    split at h <;> obtain ⟨m, hm, rfl⟩ := Option.map_eq_some_iff.1 h
    · exact .plus (digits?_eq_some_iff.1 hm)
    · exact .minus (digits?_eq_some_iff.1 hm)
    · exact .unsigned (digits?_eq_some_iff.1 hm)
  · intro h
    cases h with
    | plus h => simp [numeral?, digits?_eq_some_iff.2 h]
    | minus h => simp [numeral?, digits?_eq_some_iff.2 h]
    | unsigned h =>
      -- a digit is no sign
      have hsign : ∀ c ∈ cs, c ≠ '+' ∧ c ≠ '-' := fun c hc => by
        have hd := h.digits c hc
        constructor <;> rintro rfl <;> exact absurd hd (by decide)
      unfold numeral?
      split
      · exact absurd rfl (hsign '+' List.mem_cons_self).1
      · exact absurd rfl (hsign '-' List.mem_cons_self).2
      · simp [digits?_eq_some_iff.2 h]

theorem chars_of_numeral {cs : List Char} {n : Int} (h : IsNumeral cs n) :
    cs ≠ [] ∧ ∀ c ∈ cs, c = '+' ∨ c = '-' ∨ c.isDigit = true := by
  cases h with
  | unsigned h => exact ⟨h.nonempty, fun c hc => .inr (.inr (h.digits c hc))⟩
  | plus h =>
    refine ⟨by simp, List.forall_mem_cons.2 ⟨.inl rfl, fun c hc => .inr (.inr (h.digits c hc))⟩⟩
  | minus h =>
    refine ⟨by simp, List.forall_mem_cons.2 ⟨.inr (.inl rfl), fun c hc => .inr (.inr (h.digits c hc))⟩⟩

theorem isBlank_eq_false_of_isDigit {c : Char} (h : c.isDigit = true) : isBlank c = false := by
  have hdigit : 48 ≤ c.toNat ∧ c.toNat ≤ 57 := by simpa [Char.isDigit, UInt32.le_iff_toNat_le] using h
  -- each range of blanks ends below the digits or begins above them
  have hranges : ∀ r ∈ blankRanges, r.2 < 48 ∨ 57 < r.1 := by decide
  rw [isBlank, List.any_eq_false]
  intro r hr
  have hr := hranges r hr
  rw [Bool.and_eq_true, decide_eq_true_eq, decide_eq_true_eq]
  omega

/-- The decimal digits of a number are a numeral of it. -/
theorem isDigits_toDigits (n : Nat) : IsDigits (Nat.toDigits 10 n) n where
  nonempty := Nat.toDigits_ne_nil
  digits _ hc := Nat.isDigit_of_mem_toDigits (by decide) (by decide) hc
  value := by
    rw [← foldl_digits]
    exact Nat.ofDigitChars_ten_toDigits.symm.trans Nat.ofDigitChars_eq_foldl

end MethodProbes.Text
