import MethodProbes.Level.Expr
import MethodProbes.Level.Complement
import MethodProbes.Proofs.Text.Grammar

/-!
# Level expressions by their form

What a level expression says is described by its form and by the order of the integers alone: two bounds
in brackets of which each may be left out, or a numeral after a sign of comparison.  The reader finds the
interval of exactly the levels that are meant, and rejects every other text.
-/
namespace MethodProbes.Interval
open Text

/-- A bound in brackets is left out or a numeral. -/
inductive Bound (openEnd : Int32) : List Char → Int32 → Prop where
  | missing : Bound openEnd [] openEnd
  | numeral {cs : List Char} {n : Int32} (h : IsNumeral cs n.toInt) : Bound openEnd cs n

/-- The levels that an expression without blanks speaks of. -/
inductive Tells : List Char → (Int32 → Prop) → Prop where
  | between {a b : List Char} {lo hi : Int32} (ha : Bound Int32.minValue a lo)
      (hb : Bound Int32.maxValue b hi) (h : lo ≤ hi) :
      Tells ('[' :: (a ++ ',' :: b) ++ [']']) fun v => lo ≤ v ∧ v ≤ hi
  | alone {cs : List Char} {n : Int32} (h : IsNumeral cs n.toInt) : Tells cs fun v => n ≤ v
  | atLeast {cs : List Char} {n : Int32} (h : IsNumeral cs n.toInt) :
      Tells ('>' :: '=' :: cs) fun v => n ≤ v
  | atMost {cs : List Char} {n : Int32} (h : IsNumeral cs n.toInt) :
      Tells ('<' :: '=' :: cs) fun v => v ≤ n
  | above {cs : List Char} {n : Int32} (h : IsNumeral cs n.toInt) : Tells ('>' :: cs) fun v => n < v
  | below {cs : List Char} {n : Int32} (h : IsNumeral cs n.toInt) : Tells ('<' :: cs) fun v => v < n
  | exact {cs : List Char} {n : Int32} (h : IsNumeral cs n.toInt) : Tells ('=' :: cs) fun v => v = n

theorem Tells.congr {cs : List Char} {P Q : Int32 → Prop} (h : Tells cs P) (hPQ : ∀ v, P v ↔ Q v) :
    Tells cs Q := by
  obtain rfl : P = Q := funext fun v => propext (hPQ v)
  exact h

theorem not_mem_empty (v : Int32) : v ∉ empty :=
  not_mem_of_isEmpty rfl v

theorem mem_above {n v : Int32} : v ∈ above n ↔ n < v := by
  have hv := Int32.le_iff_toInt_le.1 (Int32.le_maxValue v)
  rw [above, Int32.lt_iff_toInt_lt]
  split
  next h =>
    subst h
    simp only [not_mem_empty, false_iff]
    omega
  next h =>
    have hn := Int32.le_iff_toInt_le.1 (Int32.le_maxValue n)
    have hne : n.toInt ≠ Int32.maxValue.toInt := fun heq => h (Int32.toInt_inj.1 heq)
    rw [mem_atLeast, Int32.le_iff_toInt_le, toInt_add_one (w := Int32.maxValue) (by omega)]
    omega

theorem mem_below {n v : Int32} : v ∈ below n ↔ v < n := by
  have hv := Int32.le_iff_toInt_le.1 (Int32.minValue_le v)
  rw [below, Int32.lt_iff_toInt_lt]
  split
  next h =>
    subst h
    simp only [not_mem_empty, false_iff]
    omega
  next h =>
    have hn := Int32.le_iff_toInt_le.1 (Int32.minValue_le n)
    have hne : n.toInt ≠ Int32.minValue.toInt := fun heq => h (Int32.toInt_inj.1 heq)
    rw [mem_atMost, Int32.le_iff_toInt_le, toInt_sub_one (w := Int32.minValue) (by omega)]
    omega

theorem int32?_eq_some_iff {cs : List Char} {n : Int32} :
    int32? cs = some n ↔ IsNumeral cs n.toInt := by
  rw [int32?, Option.map_eq_some_iff]
  constructor
  · rintro ⟨m, hm, rfl⟩
    obtain ⟨hm, hlo, hhi⟩ := numeralIn?_eq_some_iff.1 hm
    rw [Int32.toInt_ofInt_of_le hlo (Int.lt_add_one_of_le hhi)]
    exact numeral?_eq_some_iff.1 hm
  · intro h
    refine ⟨n.toInt, numeralIn?_eq_some_iff.2 ⟨numeral?_eq_some_iff.2 h, ?_, ?_⟩, Int32.ofInt_toInt n⟩
    · exact Int32.le_iff_toInt_le.1 (Int32.minValue_le n)
    · exact Int32.le_iff_toInt_le.1 (Int32.le_maxValue n)

theorem bound?_eq_some_iff {openEnd n : Int32} {cs : List Char} :
    bound? openEnd cs = some n ↔ Bound openEnd cs n := by
  constructor
  · intro h
    cases cs with
    | nil =>
      obtain rfl : openEnd = n := by simpa [bound?] using h
      exact .missing
    | cons c cs => exact .numeral (int32?_eq_some_iff.1 (by simpa [bound?] using h))
  · intro h
    cases h with
    | missing => rfl
    | numeral h =>
      have hne : cs.isEmpty = false := by simpa using (chars_of_numeral h).1
      rw [bound?, hne]
      exact int32?_eq_some_iff.2 h

theorem Bound.comma_not_mem {openEnd n : Int32} {cs : List Char} (h : Bound openEnd cs n) :
    ',' ∉ cs := by
  cases h with
  | missing => simp
  | numeral h => exact fun hc => absurd ((chars_of_numeral h).2 ',' hc) (by decide)

theorem bracketed?_eq_some_iff {cs body : List Char} :
    bracketed? cs = some body ↔ cs = '[' :: body ++ [']'] := by
  constructor
  · intro h
    unfold bracketed? at h
    split at h
    next rest =>
      split at h
      next hlast =>
        obtain ⟨pre, rfl⟩ := List.getLast?_eq_some_iff.1 hlast
        obtain rfl : pre = body := by simpa using h
        rfl
      next => cases h
    next => cases h
  · rintro rfl
    simp [bracketed?]

theorem ofBounds?_eq_some_iff {body : List Char} {i : Interval} :
    ofBounds? body = some i ↔ ∃ a b, body = a ++ ',' :: b ∧ Bound Int32.minValue a i.lo ∧
      Bound Int32.maxValue b i.hi ∧ i.lo ≤ i.hi := by
  obtain ⟨a, rest, hsplit⟩ : ∃ a rest, splitFirst ',' body = (a, rest) := ⟨_, _, rfl⟩
  have hparts := splitFirst_eq_iff.1 hsplit
  simp only [ofBounds?, hsplit]
  constructor
  · intro h
    obtain ⟨lo, hlo, hbody⟩ := Option.bind_eq_some_iff.1 h
    obtain ⟨b, hb, hrest⟩ := Option.bind_eq_some_iff.1 hbody
    obtain ⟨hi, hhi, hi'⟩ := Option.bind_eq_some_iff.1 hrest
    subst hb
    split at hi'
    next hle =>
      obtain rfl := Option.some.inj hi'
      cases hparts with
      | parts => exact ⟨a, b, rfl, bound?_eq_some_iff.1 hlo, bound?_eq_some_iff.1 hhi, hle⟩
    next => cases hi'
  · rintro ⟨a', b', rfl, hlo, hhi, hle⟩
    obtain ⟨rfl, rfl⟩ : a' = a ∧ some b' = rest := by
      have hsplit' := splitFirst_eq_iff.2 (Parts.parts (v := b') hlo.comma_not_mem)
      exact Prod.mk.inj (hsplit'.symm.trans hsplit)
    simp [bound?_eq_some_iff.2 hlo, bound?_eq_some_iff.2 hhi, hle]

theorem tells_of_ofComparison? {cs : List Char} {i : Interval} (h : ofComparison? cs = some i) :
    Tells cs (· ∈ i) := by
  unfold ofComparison? at h
  split at h <;> obtain ⟨n, hn, rfl⟩ := Option.map_eq_some_iff.1 h <;>
    have hn := int32?_eq_some_iff.1 hn
  · exact (Tells.atLeast hn).congr fun v => mem_atLeast.symm
  · exact (Tells.atMost hn).congr fun v => mem_atMost.symm
  · exact (Tells.above hn).congr fun v => mem_above.symm
  · exact (Tells.below hn).congr fun v => mem_below.symm
  · exact (Tells.exact hn).congr fun v => mem_exact.symm
  · exact (Tells.alone hn).congr fun v => mem_atLeast.symm

/-- Every expression that is read speaks of the levels it is read as. -/
theorem tells_of_ofCompact? {cs : List Char} {i : Interval} (h : ofCompact? cs = some i) :
    Tells cs (· ∈ i) := by
  unfold ofCompact? at h
  split at h
  next body hbody =>
    obtain ⟨a, b, rfl, ha, hb, hle⟩ := ofBounds?_eq_some_iff.1 h
    obtain rfl := bracketed?_eq_some_iff.1 hbody
    exact (Tells.between ha hb hle).congr fun v => mem_def.symm
  next => exact tells_of_ofComparison? h

theorem ofComparison?_of_head {c : Char} {cs : List Char} (h : c ≠ '>' ∧ c ≠ '<' ∧ c ≠ '=') :
    ofComparison? (c :: cs) = (int32? (c :: cs)).map Interval.atLeast := by
  unfold ofComparison?
  split <;> simp_all

theorem ofCompact?_of_head {c : Char} {cs : List Char} (h : c ≠ '[') :
    ofCompact? (c :: cs) = ofComparison? (c :: cs) := by
  have hbracket : bracketed? (c :: cs) = none := by
    refine Option.eq_none_iff_forall_ne_some.2 fun body hbody => ?_
    exact h (List.cons.inj (bracketed?_eq_some_iff.1 hbody)).1
  rw [ofCompact?, hbracket]

/-- A numeral does not begin as another form does. -/
theorem exists_cons_of_numeral {cs : List Char} {n : Int} (h : IsNumeral cs n) :
    ∃ c ds, cs = c :: ds ∧ c ≠ '[' ∧ c ≠ '>' ∧ c ≠ '<' ∧ c ≠ '=' := by
  obtain ⟨hne, hmem⟩ := chars_of_numeral h
  cases cs with
  | nil => exact absurd rfl hne
  | cons c ds =>
    have hc := hmem c List.mem_cons_self
    refine ⟨c, ds, rfl, ?_, ?_, ?_, ?_⟩ <;> rintro rfl <;> exact absurd hc (by decide)

theorem ofCompact?_of_numeral {cs : List Char} {n : Int} (h : IsNumeral cs n) :
    ofCompact? cs = (int32? cs).map Interval.atLeast := by
  obtain ⟨c, ds, rfl, hbracket, hsign⟩ := exists_cons_of_numeral h
  rw [ofCompact?_of_head hbracket, ofComparison?_of_head hsign]

/-- The sign `>` or `<` before a numeral is not half of a longer one. -/
theorem ne_equals_of_numeral {cs : List Char} {n : Int} (h : IsNumeral cs n) :
    ∀ ds, cs = '=' :: ds → False := by
  obtain ⟨c, cs', rfl, -, -, -, hne⟩ := exists_cons_of_numeral h
  exact fun ds heq => hne (List.cons.inj heq).1

/-- Every expression that speaks of levels is read as those levels. -/
theorem ofCompact?_of_tells {cs : List Char} {P : Int32 → Prop} (h : Tells cs P) :
    ∃ i, ofCompact? cs = some i ∧ ∀ v, v ∈ i ↔ P v := by
  cases h with
  | @between a b lo hi ha hb hle =>
    refine ⟨⟨lo, hi⟩, ?_, fun v => Iff.rfl⟩
    rw [ofCompact?, bracketed?_eq_some_iff.2 rfl]
    exact ofBounds?_eq_some_iff.2 ⟨a, b, rfl, ha, hb, hle⟩
  | @alone cs n h =>
    refine ⟨.atLeast n, ?_, fun v => mem_atLeast⟩
    rw [ofCompact?_of_numeral h, int32?_eq_some_iff.2 h]
    rfl
  | @atLeast cs n h =>
    refine ⟨.atLeast n, ?_, fun v => mem_atLeast⟩
    rw [ofCompact?_of_head (by decide), ofComparison?, int32?_eq_some_iff.2 h]
    rfl
  | @atMost cs n h =>
    refine ⟨.atMost n, ?_, fun v => mem_atMost⟩
    rw [ofCompact?_of_head (by decide), ofComparison?, int32?_eq_some_iff.2 h]
    rfl
  | @above cs n h =>
    refine ⟨.above n, ?_, fun v => mem_above⟩
    rw [ofCompact?_of_head (by decide), ofComparison?, int32?_eq_some_iff.2 h]
    · rfl
    · exact ne_equals_of_numeral h
  | @below cs n h =>
    refine ⟨.below n, ?_, fun v => mem_below⟩
    rw [ofCompact?_of_head (by decide), ofComparison?, int32?_eq_some_iff.2 h]
    · rfl
    · exact ne_equals_of_numeral h
  | @exact cs n h =>
    refine ⟨.exact n, ?_, fun v => mem_exact⟩
    rw [ofCompact?_of_head (by decide), ofComparison?, int32?_eq_some_iff.2 h]
    rfl

/-- A level expression is read as exactly the levels that its text without blanks speaks of, and it is
rejected, with the text as it stands, if it speaks of none. -/
theorem parse_spec (s : String) :
    (∀ P, Tells (compact s.toList) P ↔ ∃ i, parse s = .ok i ∧ ∀ v, v ∈ i ↔ P v) ∧
      ∀ e, parse s = .error e ↔ e = .invalidLevel s ∧ ∀ P, ¬ Tells (compact s.toList) P := by
  constructor
  · intro P
    constructor
    · intro h
      obtain ⟨i, hi, hmem⟩ := ofCompact?_of_tells h
      exact ⟨i, parse_eq_ok_iff.2 hi, hmem⟩
    · rintro ⟨i, hi, hmem⟩
      exact (tells_of_ofCompact? (parse_eq_ok_iff.1 hi)).congr hmem
  · intro e
    rw [parse_eq_error_iff, and_comm]
    refine and_congr_right fun _ => ⟨fun hnone P h => ?_, fun hnot => ?_⟩
    · obtain ⟨i, hi, -⟩ := ofCompact?_of_tells h
      simp [hnone] at hi
    · exact Option.eq_none_iff_forall_ne_some.2 fun i hi => hnot _ (tells_of_ofCompact? hi)

example : parse "> 214 7483647" = .ok empty := by decide

end MethodProbes.Interval
