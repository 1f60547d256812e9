import Mathlib.Data.String.Basic
import MethodProbes.Proofs.Maps
import MethodProbes.Proofs.Text.Grammar
import MethodProbes.Script

/-!
# The lines of a script by their form

A line is taken as the row of its words.  Which rows are well formed, what a row says and what is wrong with
it are relations on rows; whether a marker is in place depends on the rows before it.
-/
namespace MethodProbes

theorem MarkerKind.ofName?_eq_some_iff {s : String} {k : MarkerKind} :
    ofName? s = some k ↔ s = k.name ∨ s = k.templateName := by
  constructor
  · intro h
    have hs := List.find?_some h
    rw [Bool.or_eq_true, beq_iff_eq, beq_iff_eq] at hs
    exact hs.imp Eq.symm Eq.symm
  · rintro (rfl | rfl)
    · exact ofName?_name k
    · exact ofName?_templateName k

namespace Script

/-- The words of a line. -/
abbrev Row := List (List Char)

/-- The rows of a text: its lines end at line feeds, and a comment is no part of a row. -/
def Rows (s : String) (rows : List Row) : Prop :=
  List.Forall₂ (fun line row => Text.Runs (line.takeWhile (· != '#')) row) (s.toList.splitOn '\n') rows

def IsHeader (row : Row) : Prop := row.head? = some "method".toList

/-- The word is the name of the kind, in full or as a template. -/
def Names (word : List Char) (k : MarkerKind) : Prop :=
  word = k.name.toList ∨ word = k.templateName.toList

/-- The word is a numeral of 32 signed bits, and its value is not negative. -/
structure IsId (word : List Char) (id : Nat) : Prop where
  numeral : Text.IsNumeral word id
  fits : (id : Int) ≤ Int32.maxValue.toInt

/-- The word sets the key to the value: the first `=` is between them, and a word without one is a key with the
empty value. -/
def IsTag (word : List Char) (key value : String) : Prop :=
  ∃ part, Text.Parts '=' word key.toList part ∧ value.toList = part.getD []

def LastTag (words : List (List Char)) (key value : String) : Prop :=
  ∃ pre word post, words = pre ++ word :: post ∧ IsTag word key value ∧
    ∀ w ∈ post, ∀ v, ¬ IsTag w key v

structure Marks (row : Row) (m : Marker) : Prop where
  kind : ∃ head ∈ row.head?, Names head m.kind
  tags : ∀ key value, m.tags.get? key = some value ↔ LastTag row.tail key value

inductive Says : Row → Line → Prop where
  | blank : Says [] .blank
  | header {name : String} {word : List Char} {id : Nat} (h : IsId word id) :
      Says ["method".toList, name.toList, word] (.header name id)
  | marker {row : Row} {m : Marker} (h : Marks row m) : Says row (.marker m)

/-- A row that may follow the `earlier` ones. -/
inductive Good (earlier : List Row) : Row → Prop where
  | blank : Good earlier []
  | header {name word : List Char} {id : Nat} (h : IsId word id) :
      Good earlier ["method".toList, name, word]
  | marker {head : List Char} {tags : Row} {k : MarkerKind} (hk : Names head k)
      (hm : ∃ row ∈ earlier, IsHeader row) : Good earlier (head :: tags)

/-- What is wrong with a row that may not follow the `earlier` ones. -/
inductive Bad (earlier : List Row) : Row → String → Prop where
  | headerShape {rest : Row} (h : rest.length ≠ 2) :
      Bad earlier ("method".toList :: rest) "expected `method <name> <id>`"
  | invalidId {name word : List Char} (h : ∀ id, ¬ IsId word id) :
      Bad earlier ["method".toList, name, word] ("invalid method id " ++ Text.quoted (.ofList word))
  | unknownMarker {head : List Char} {tags : Row} (hm : head ≠ "method".toList)
      (hk : ∀ k, ¬ Names head k) : Bad earlier (head :: tags) ("unknown marker: " ++ .ofList head)
  | markerBeforeMethod {head : List Char} {tags : Row} {k : MarkerKind} (hk : Names head k)
      (hm : ∀ row ∈ earlier, ¬ IsHeader row) :
      Bad earlier (head :: tags) ("marker `" ++ .ofList head ++ "` before any method")

/-- Every row may follow the `earlier` ones and those before it. -/
def AllGood (earlier rows : List Row) : Prop :=
  ∀ pre row post, rows = pre ++ row :: post → Good (earlier ++ pre) row

theorem ofName?_ofList {word : List Char} {k : MarkerKind} :
    MarkerKind.ofName? (.ofList word) = some k ↔ Names word k := by
  rw [MarkerKind.ofName?_eq_some_iff, String.ofList_eq, String.ofList_eq, Names]

theorem Names.ne_method {word : List Char} {k : MarkerKind} (h : Names word k) :
    word ≠ "method".toList := by
  rintro rfl
  have hk := ofName?_ofList.2 h
  rw [String.ofList_toList, show MarkerKind.ofName? "method" = none by decide] at hk
  cases hk

theorem Marks.not_isHeader {row : Row} {m : Marker} (h : Marks row m) : ¬ IsHeader row := by
  obtain ⟨head, hhead, hk⟩ := h.kind
  rw [IsHeader, Option.mem_def.1 hhead, Option.some.injEq]
  exact hk.ne_method

theorem Marks.ne_nil {row : Row} {m : Marker} (h : Marks row m) : row ≠ [] := by
  rintro rfl
  obtain ⟨_, hhead, _⟩ := h.kind
  cases hhead

theorem numeralIn?_eq_some_iff_isId {word : List Char} {id : Nat} :
    Text.numeralIn? 0 maxMethodId word = some (id : Int) ↔ IsId word id := by
  rw [Text.numeralIn?_eq_some_iff, Text.numeral?_eq_some_iff]
  exact ⟨fun h => ⟨h.1, h.2.2⟩, fun h => ⟨h.numeral, Int.natCast_nonneg id, h.fits⟩⟩

theorem parseMethodId_eq_ok_iff {word : List Char} (hw : ∀ c ∈ word, Text.isBlank c = false) {id : Nat} :
    parseMethodId (.ofList word) = .ok id ↔ IsId word id := by
  rw [parseMethodId, String.toList_ofList, Text.trim_eq_self hw, ← numeralIn?_eq_some_iff_isId]
  cases h : Text.numeralIn? 0 maxMethodId word with
  | none => simp
  | some n =>
    have hn : 0 ≤ n := (Text.numeralIn?_eq_some_iff.1 h).2.1
    simp only [Except.ok.injEq, Option.some.injEq]
    omega

/-- A tag is rejected exactly if its text is no id, without the blanks around it. -/
theorem parseMethodId_eq_error_iff {s : String} {e : MarkerError} : parseMethodId s = .error e ↔
    (∀ id, ¬ IsId (Text.trim s.toList) id) ∧ e = .invalidInteger "methodid" s := by
  have hid (id : Nat) : Text.numeralIn? 0 maxMethodId (Text.trim s.toList) = some (id : Int) ↔
      IsId (Text.trim s.toList) id := numeralIn?_eq_some_iff_isId
  rw [parseMethodId]
  cases hn : Text.numeralIn? 0 maxMethodId (Text.trim s.toList) with
  | none =>
    have hno (id : Nat) : ¬ IsId (Text.trim s.toList) id := fun h => by
      cases hn.symm.trans ((hid id).2 h)
    simp only [Except.error.injEq, hno, not_false_eq_true, implies_true, true_and]
    exact eq_comm
  | some n =>
    obtain ⟨-, hlo, -⟩ := Text.numeralIn?_eq_some_iff.1 hn
    refine iff_of_false (by simp) fun h => h.1 n.toNat ((hid n.toNat).1 ?_)
    rw [hn, Int.toNat_of_nonneg hlo]

theorem IsId.unique {word : List Char} {id id' : Nat} (h : IsId word id) (h' : IsId word id') :
    id = id' := by
  have heq := (numeralIn?_eq_some_iff_isId.2 h).symm.trans (numeralIn?_eq_some_iff_isId.2 h')
  exact Int.ofNat_inj.1 (Option.some.inj heq)

theorem Marks.unique {row : Row} {m m' : Marker} (h : Marks row m) (h' : Marks row m') : m = m' := by
  obtain ⟨head, hhead, hk⟩ := h.kind
  obtain ⟨head', hhead', hk'⟩ := h'.kind
  obtain rfl := Option.mem_unique hhead hhead'
  have hkind : m.kind = m'.kind :=
    Option.some.inj ((ofName?_ofList.2 hk).symm.trans (ofName?_ofList.2 hk'))
  have htags : m.tags = m'.tags := SortedMap.eq_of_get?_eq fun key =>
    Option.ext fun value => (h.tags key value).trans (h'.tags key value).symm
  cases m
  cases m'
  cases hkind
  cases htags
  rfl

theorem isTag_iff {word : List Char} {key value : String} : IsTag word key value ↔
    key = .ofList (Text.splitFirst '=' word).1 ∧
      value = .ofList ((Text.splitFirst '=' word).2.getD []) := by
  rw [eq_comm, String.ofList_eq, eq_comm (a := value), String.ofList_eq]
  constructor
  · rintro ⟨part, hpart, hvalue⟩
    rw [← Text.splitFirst_eq_iff] at hpart
    rw [hpart]
    exact ⟨rfl, hvalue.symm⟩
  · rintro ⟨hkey, hvalue⟩
    exact ⟨_, Text.splitFirst_eq_iff.1 (Prod.ext hkey rfl), hvalue.symm⟩

theorem lastTag_concat {words : List (List Char)} {word : List Char} {key value : String} :
    LastTag (words ++ [word]) key value ↔
      IsTag word key value ∨ LastTag words key value ∧ ∀ v, ¬ IsTag word key v := by
  constructor
  · rintro ⟨pre, w, post, heq, hw, hpost⟩
    rcases List.eq_nil_or_concat post with rfl | ⟨post, last, rfl⟩
    · obtain ⟨-, hlast⟩ := List.append_inj' heq rfl
      obtain rfl := List.head_eq_of_cons_eq hlast
      exact .inl hw
    · rw [List.concat_eq_append, ← List.cons_append, ← List.append_assoc] at heq
      obtain ⟨rfl, hlast⟩ := List.append_inj' heq rfl
      obtain rfl := List.head_eq_of_cons_eq hlast
      exact .inr ⟨⟨pre, w, post, rfl, hw, fun x hx => hpost x (by simp [hx])⟩, hpost _ (by simp)⟩
  · rintro (h | ⟨⟨pre, w, post, rfl, hw, hpost⟩, hword⟩)
    · exact ⟨words, word, [], rfl, h, by simp⟩
    · refine ⟨pre, w, post ++ [word], by simp, hw, fun x hx => ?_⟩
      rcases List.mem_append.1 hx with hx | hx
      · exact hpost x hx
      · exact List.mem_singleton.1 hx ▸ hword

theorem get?_addTag (m : Marker) (word : List Char) (key value : String) :
    (addTag m word).tags.get? key = some value ↔
      IsTag word key value ∨ m.tags.get? key = some value ∧ ∀ v, ¬ IsTag word key v := by
  have hget : (addTag m word).tags.get? key =
      if key = .ofList (Text.splitFirst '=' word).1 then
        some (.ofList ((Text.splitFirst '=' word).2.getD []))
      else m.tags.get? key := SortedMap.get?_insert ..
  rw [hget]
  by_cases h : key = .ofList (Text.splitFirst '=' word).1
  · simp [isTag_iff, h, eq_comm (b := value)]
  · simp [isTag_iff, h]

/-- The tags that the words add from left to right; the last one of a key counts. -/
theorem get?_foldl_addTag (k : MarkerKind) (words : List (List Char)) (key value : String) :
    (words.foldl addTag (.ofKind k)).tags.get? key = some value ↔ LastTag words key value := by
  induction words using List.reverseRecOn generalizing value with
  | nil => simp [Marker.ofKind, LastTag]
  | append_singleton words word ih =>
    rw [List.foldl_append, List.foldl_cons, List.foldl_nil, get?_addTag, ih, lastTag_concat]

theorem kind_foldl_addTag (m : Marker) (words : List (List Char)) :
    (words.foldl addTag m).kind = m.kind := by
  induction words generalizing m with
  | nil => rfl
  | cons word words ih => exact ih _

theorem marks_foldl_addTag {head : List Char} {tags : Row} {k : MarkerKind} (h : Names head k) :
    Marks (head :: tags) (tags.foldl addTag (.ofKind k)) :=
  ⟨⟨head, rfl, (kind_foldl_addTag (.ofKind k) tags).symm ▸ h⟩, get?_foldl_addTag k tags⟩

theorem Bad.not_good {earlier : List Row} {row : Row} {message : String} (h : Bad earlier row message) :
    ¬ Good earlier row := by
  intro hg
  cases h with
  | headerShape h =>
    cases hg with
    | header => exact h rfl
    | marker hk => exact hk.ne_method rfl
  | invalidId h =>
    cases hg with
    | header hid => exact h _ hid
    | marker hk => exact hk.ne_method rfl
  | unknownMarker hm hk =>
    cases hg with
    | header => exact hm rfl
    | marker hk' => exact hk _ hk'
  | markerBeforeMethod hk hm =>
    cases hg with
    | header => exact hk.ne_method rfl
    | marker _ hm' =>
      obtain ⟨row, hrow, hr⟩ := hm'
      exact hm row hrow hr

section

variable {earlier : List Row} {inMethod : Bool} {row : Row}

/-- Reading a row gives what it says, or tells what is wrong with it. -/
theorem ofWords_spec (hm : inMethod = true ↔ ∃ row ∈ earlier, IsHeader row)
    (hrow : ∀ w ∈ row, ∀ c ∈ w, Text.isBlank c = false) :
    match Line.ofWords inMethod row with
    | .ok line => Good earlier row ∧ Says row line
    | .error d => Bad earlier row d.message := by
  cases row with
  | nil => exact ⟨.blank, .blank⟩
  | cons head rest =>
    by_cases hhead : head = "method".toList
    · subst hhead
      by_cases hlen : rest.length = 2
      · obtain ⟨name, word, rfl⟩ := List.length_eq_two.1 hlen
        have hid (id : Nat) : parseMethodId (.ofList word) = .ok id ↔ IsId word id :=
          parseMethodId_eq_ok_iff (hrow word (by simp))
        simp only [Line.ofWords, String.ofList_toList, if_true]
        cases h : parseMethodId (.ofList word) with
        | ok id =>
          have hsays : Says ["method".toList, (String.ofList name).toList, word]
              (.header (.ofList name) id) := .header ((hid id).1 h)
          rw [show (String.ofList name).toList = name from String.toList_ofList] at hsays
          exact ⟨.header ((hid id).1 h), hsays⟩
        | error e => exact .invalidId fun id hi => by simp [(hid id).2 hi] at h
      · have hshape : ∀ name word, rest = [name, word] → False := by
          rintro name word rfl
          exact hlen rfl
        simp only [Line.ofWords, String.ofList_toList, if_true]
        exact .headerShape hlen
    · simp only [Line.ofWords, mt String.ofList_eq.1 hhead, if_false]
      cases hk : MarkerKind.ofName? (.ofList head) with
      | none => exact .unknownMarker hhead fun k h => by simp [ofName?_ofList.2 h] at hk
      | some k =>
        have hk := ofName?_ofList.1 hk
        cases inMethod with
        | true => exact ⟨.marker hk (hm.1 rfl), .marker (marks_foldl_addTag hk)⟩
        | false => exact .markerBeforeMethod hk fun row hr h => by simpa using hm.2 ⟨row, hr, h⟩

end

end Script

end MethodProbes
