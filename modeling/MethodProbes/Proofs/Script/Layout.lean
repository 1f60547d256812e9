import MethodProbes.Proofs.Script.Language

/-!
# Scripts as they are laid out

Bodies can be written down in many ways: the tags in any order, blanks of any kind between the words, comments
and blank lines anywhere, and either ending of a line.  All of them are read back as the bodies.
-/
namespace MethodProbes

namespace Script

def IsPlain (cs : List Char) : Prop := ∀ c ∈ cs, Text.isBlank c = false ∧ c ≠ '#'

instance : DecidablePred IsPlain := fun cs => List.decidableBAll _ cs

def IsWord (w : List Char) : Prop := w ≠ [] ∧ IsPlain w

def IsGap (cs : List Char) : Prop := ∀ c ∈ cs, Text.isBlank c = true ∧ c ≠ '\n'

instance : DecidablePred IsGap := fun cs => List.decidableBAll _ cs

end Script

open Script

/-- The tags of the marker can be told apart and read back. -/
def Marker.IsRepresentable (m : Marker) : Prop :=
  ∀ e ∈ m.tags.entries, IsPlain e.1.toList ∧ '=' ∉ e.1.toList ∧ IsPlain e.2.toList

structure Body.IsRepresentable (b : Body) : Prop where
  named : b.name ≠ ""
  name : IsPlain b.name.toList
  methodId : b.methodId ≤ maxMethodId
  markers : ∀ m ∈ b.markers, m.IsRepresentable

def Body.lines (b : Body) : List Line := .header b.name b.methodId :: b.markers.map .marker

namespace Script

structure LineLayout where
  /-- The words, each with the blanks in front of it. -/
  words : List (List Char × List Char)
  trailing : List Char := []
  /-- What is behind the `#`. -/
  comment : Option (List Char) := none
  isGap : ∀ p ∈ words, IsGap p.1 := by decide
  apart : ∀ p ∈ words.tail, p.1 ≠ [] := by decide
  isGap_trailing : IsGap trailing := by decide
  oneLine : ∀ cs ∈ comment, '\n' ∉ cs := by decide

inductive LineEnd where
  | lf | crlf

def LineEnd.carriage : LineEnd → List Char
  | lf => []
  | crlf => ['\r']

/-- A script: its lines, and the last one, which has no ending and may be empty. -/
structure Layout where
  lines : List (LineLayout × LineEnd)
  last : LineLayout

namespace LineLayout

def row (l : LineLayout) : Row := l.words.map (·.2)

def code (l : LineLayout) : List Char := (l.words.flatMap fun p => p.1 ++ p.2) ++ l.trailing

def text (l : LineLayout) : List Char := l.code ++ (l.comment.map ('#' :: ·)).getD []

end LineLayout

namespace Layout

def text (y : Layout) : String :=
  .ofList ((y.lines.flatMap fun p => p.1.text ++ p.2.carriage ++ ['\n']) ++ y.last.text)

def rows (y : Layout) : List Row := y.lines.map (·.1.row) ++ [y.last.row]

end Layout

def tagWord (e : String × String) : List Char := e.1.toList ++ '=' :: e.2.toList

/-- The row writes down what the line says. -/
inductive Spells : Row → Line → Prop where
  | header {name : String} {word : List Char} {id : Nat} (h : IsId word id) :
      Spells ["method".toList, name.toList, word] (.header name id)
  | marker {head : List Char} {tags : List (String × String)} {m : Marker} (hk : Names head m.kind)
      (ht : tags.Perm m.tags.entries) : Spells (head :: tags.map tagWord) (.marker m)

/-- The rows that are not blank write down the bodies. -/
def Layout.Writes (y : Layout) (bs : List Body) : Prop :=
  List.Forall₂ Spells (y.rows.filter (· ≠ [])) (bs.flatMap Body.lines)

section

variable {row : Row} {line line' : Line}

theorem IsPlain.newline_not_mem {cs : List Char} (h : IsPlain cs) : '\n' ∉ cs := fun hc =>
  absurd (h _ hc).1 (by decide)

theorem IsGap.hash_not_mem {cs : List Char} (h : IsGap cs) : '#' ∉ cs := fun hc =>
  absurd (h _ hc).1 (by decide)

theorem IsId.isWord {word : List Char} {id : Nat} (h : IsId word id) : IsWord word := by
  obtain ⟨hne, hchars⟩ := Text.chars_of_numeral h.numeral
  refine ⟨hne, fun c hc => ?_⟩
  rcases hchars c hc with rfl | rfl | hdigit
  · decide
  · decide
  · refine ⟨Text.isBlank_eq_false_of_isDigit hdigit, ?_⟩
    rintro rfl
    cases hdigit

theorem Names.isWord {head : List Char} {k : MarkerKind} (h : Names head k) :
    IsWord head := by
  rcases h with rfl | rfl <;> cases k <;> exact ⟨by decide, by decide⟩

theorem isWord_tagWord {m : Marker} (hm : m.IsRepresentable) {e : String × String}
    (he : e ∈ m.tags.entries) : IsWord (tagWord e) := by
  obtain ⟨hkey, -, hvalue⟩ := hm e he
  refine ⟨by simp [tagWord], fun c hc => ?_⟩
  rcases List.mem_append.1 hc with hc | hc
  · exact hkey c hc
  · rcases List.mem_cons.1 hc with rfl | hc
    · decide
    · exact hvalue c hc

theorem isTag_tagWord_iff {e : String × String} (he : '=' ∉ e.1.toList) {key value : String} :
    IsTag (tagWord e) key value ↔ e = (key, value) := by
  have hsplit := Text.splitFirst_eq_iff.2 (Text.Parts.parts (v := e.2.toList) he)
  rw [isTag_iff, tagWord, hsplit, Prod.ext_iff]
  simp [eq_comm]

/-- The words of the tags say what the map of the tags says. -/
theorem lastTag_map_tagWord {m : Marker} (hm : m.IsRepresentable) {tags : List (String × String)}
    (ht : tags.Perm m.tags.entries) (key value : String) :
    LastTag (tags.map tagWord) key value ↔ m.tags.get? key = some value := by
  have htag : ∀ e ∈ tags, ∀ k v, IsTag (tagWord e) k v ↔ e = (k, v) := fun e he _ _ =>
    isTag_tagWord_iff (hm e (ht.mem_iff.1 he)).2.1
  rw [← SortedMap.mem_entries, ← ht.mem_iff]
  constructor
  · rintro ⟨pre, word, post, heq, hword, -⟩
    obtain ⟨e, he, rfl⟩ := List.mem_map.1 (heq ▸ List.mem_append_cons_self : word ∈ tags.map tagWord)
    exact (htag e he key value).1 hword ▸ he
  · intro h
    have hkeys : (tags.map (·.1)).Nodup := by
      refine (ht.map _).nodup_iff.2 (List.pairwise_map.2 ?_)
      exact m.tags.increasing.imp fun hlt => Std.ne_of_lt hlt
    -- no later word has the key, as the keys of a map are distinct
    obtain ⟨pre, post, rfl⟩ := List.mem_iff_append.1 h
    refine ⟨pre.map tagWord, _, post.map tagWord, by simp, (htag _ h key value).2 rfl, ?_⟩
    intro w hw v hv
    obtain ⟨e, he, rfl⟩ := List.mem_map.1 hw
    obtain rfl := (htag e (by simp [he]) key v).1 hv
    simp only [List.map_append, List.map_cons, List.nodup_append, List.nodup_cons] at hkeys
    exact hkeys.2.1.1 (List.mem_map.2 ⟨_, he, rfl⟩)

def Line.IsRepresentable : Line → Prop
  | .blank => True
  | .header name _ => name ≠ "" ∧ IsPlain name.toList
  | .marker m => m.IsRepresentable

theorem Spells.ne_nil (h : Spells row line) : row ≠ [] := by
  cases h <;> simp

theorem Spells.isWord (hline : line.IsRepresentable) (h : Spells row line) :
    ∀ w ∈ row, IsWord w := by
  cases h with
  | @header name word id hid =>
    have hmethod : IsWord "method".toList := ⟨by decide, by decide⟩
    have hname : IsWord name.toList := ⟨fun h => hline.1 (String.toList_eq_nil_iff.1 h), hline.2⟩
    simpa using ⟨hmethod, hname, hid.isWord⟩
  | @marker head tags m hk ht =>
    refine List.forall_mem_cons.2 ⟨hk.isWord, fun w hw => ?_⟩
    obtain ⟨e, he, rfl⟩ := List.mem_map.1 hw
    exact isWord_tagWord hline (ht.mem_iff.1 he)

theorem Spells.toSays (hline : line.IsRepresentable) (h : Spells row line) : Says row line := by
  cases h with
  | header hid => exact .header hid
  | marker hk ht => exact .marker ⟨⟨_, rfl, hk⟩, fun _ _ => (lastTag_map_tagWord hline ht _ _).symm⟩

theorem says_of_spells {rows : List Row} {lines : List Line} (h : List.Forall₂ Spells rows lines)
    (hlines : ∀ line ∈ lines, line.IsRepresentable) :
    (∀ row ∈ rows, ∀ w ∈ row, IsWord w) ∧ List.Forall₂ Says rows lines := by
  induction h with
  | nil => exact ⟨by simp, .nil⟩
  | cons hrow _ ih =>
    obtain ⟨hline, hlines⟩ := List.forall_mem_cons.1 hlines
    obtain ⟨hplain, hsays⟩ := ih hlines
    exact ⟨List.forall_mem_cons.2 ⟨hrow.isWord hline, hplain⟩, .cons (hrow.toSays hline) hsays⟩

theorem Says.unique (h : Says row line) (h' : Says row line') : line = line' := by
  cases h with
  | blank =>
    cases h' with
    | blank => rfl
    | marker hm => exact absurd rfl hm.ne_nil
  | @header name word id hid =>
    generalize hrow : ["method".toList, name.toList, word] = row at h'
    cases h' with
    | blank => cases hrow
    | @header name' word' id' hid' =>
      obtain ⟨hname, rfl⟩ : name.toList = name'.toList ∧ word = word' := by simpa using hrow
      rw [String.toList_inj.1 hname, hid.unique hid']
    | marker hm =>
      subst hrow
      exact absurd rfl hm.not_isHeader
  | @marker row m hm =>
    cases h' with
    | blank => exact absurd rfl hm.ne_nil
    | header => exact absurd rfl hm.not_isHeader
    | marker hm' => rw [hm.unique hm']

/-- Blank rows are of no account for the bodies. -/
theorem group_eq_of_says {rows : List Row} {lines lines' : List Line} (h : List.Forall₂ Says rows lines)
    (h' : List.Forall₂ Says (rows.filter (· ≠ [])) lines') : group lines = group lines' := by
  induction h generalizing lines' with
  | nil =>
    cases h'
    rfl
  | @cons row line rows lines hrow _ ih =>
    by_cases hne : row = []
    · subst hne
      rw [List.filter_cons_of_neg (by simp)] at h'
      cases hrow.unique .blank
      exact ih h'
    · rw [List.filter_cons_of_pos (by simpa using hne)] at h'
      cases h' with
      | cons hrow' h' =>
        cases hrow.unique hrow'
        cases line <;> simp only [group, ih h']

theorem group_map_marker (ms : List Marker) (ls : List Line) :
    group (ms.map .marker ++ ls) = (ms ++ (group ls).1, (group ls).2) := by
  induction ms with
  | nil => rfl
  | cons m ms ih => rw [List.map_cons, List.cons_append, group, ih, List.cons_append]

theorem group_flatMap_lines (bs : List Body) : group (bs.flatMap Body.lines) = ([], bs) := by
  induction bs with
  | nil => rfl
  | cons b bs ih =>
    rw [List.flatMap_cons, Body.lines, List.cons_append, group, group_map_marker, ih]
    simp

/-- The rows of lines are good if the first that is not blank is a header. -/
theorem allGood_of_spells {earlier rows : List Row} {lines : List Line}
    (h : List.Forall₂ Spells (rows.filter (· ≠ [])) lines)
    (hhead : (∃ row ∈ earlier, IsHeader row) ∨ ∀ m, lines.head? ≠ some (.marker m)) :
    AllGood earlier rows := by
  induction rows generalizing earlier lines with
  | nil => exact allGood_nil
  | cons row rows ih =>
    have hkeep (h : ∃ r ∈ earlier, IsHeader r) : ∃ r ∈ earlier ++ [row], IsHeader r := by
      obtain ⟨r, hr, hheader⟩ := h
      exact ⟨r, List.mem_append_left _ hr, hheader⟩
    by_cases hne : row = []
    · subst hne
      rw [List.filter_cons_of_neg (by simp)] at h
      exact allGood_cons.2 ⟨.blank, ih h (hhead.imp_left hkeep)⟩
    · rw [List.filter_cons_of_pos (by simpa using hne)] at h
      cases h with
      | cons hrow h =>
        cases hrow with
        | header hid =>
          exact allGood_cons.2 ⟨.header hid,
            ih h (.inl ⟨_, List.mem_append_right _ List.mem_cons_self, rfl⟩)⟩
        | @marker head tags m hk ht =>
          have hheader := hhead.resolve_right fun hno => hno m rfl
          exact allGood_cons.2 ⟨.marker hk hheader, ih h (.inl (hkeep hheader))⟩

end

namespace LineLayout

/-- Blanks between words and at the ends are of no account. -/
theorem runs_flatMap {words : List (List Char × List Char)} {gap : List Char}
    (hplain : ∀ p ∈ words, IsWord p.2) (hgaps : ∀ p ∈ words, IsGap p.1)
    (hapart : ∀ p ∈ words.tail, p.1 ≠ []) (hgap : ∀ c ∈ gap, Text.isBlank c = true) :
    Text.Runs ((words.flatMap fun p => p.1 ++ p.2) ++ gap) (words.map (·.2)) := by
  induction words with
  | nil => simpa using Text.Runs.nil.blanks hgap
  | cons p words ih =>
    obtain ⟨⟨hne, hp⟩, hplain⟩ := List.forall_mem_cons.1 hplain
    obtain ⟨hblank, hgaps⟩ := List.forall_mem_cons.1 hgaps
    have hwords := ih hplain hgaps fun q hq => hapart q (List.mem_of_mem_tail hq)
    rw [List.flatMap_cons, List.append_assoc, List.append_assoc, List.map_cons]
    have hword : ∀ c ∈ p.2, Text.isBlank c = false := fun c hc => (hp c hc).1
    refine .blanks (fun c hc => (hblank c hc).1) (.run hne hword (fun c hc => ?_) hwords)
    -- the word ends at the gap of the next one, which is not empty, or at what is behind the last one
    cases words with
    | nil => exact hgap c (List.mem_of_mem_head? hc)
    | cons q words =>
      have hq := hapart q List.mem_cons_self
      rw [List.flatMap_cons, List.append_assoc, List.append_assoc, List.head?_append_of_ne_nil _ hq] at hc
      exact (hgaps q List.mem_cons_self c (List.mem_of_mem_head? hc)).1

variable {l : LineLayout}

theorem runs_code {gap : List Char} (hrow : ∀ w ∈ l.row, IsWord w)
    (hgap : ∀ c ∈ gap, Text.isBlank c = true) : Text.Runs (l.code ++ gap) l.row := by
  rw [code, List.append_assoc]
  exact runs_flatMap (fun p hp => hrow p.2 (List.mem_map_of_mem hp)) l.isGap l.apart
    (List.forall_mem_append.2 ⟨fun c hc => (l.isGap_trailing c hc).1, hgap⟩)

theorem hash_newline_not_mem_code (hrow : ∀ w ∈ l.row, IsWord w) :
    '#' ∉ l.code ∧ '\n' ∉ l.code := by
  have hchars : ∀ c ∈ l.code, c ≠ '#' ∧ c ≠ '\n' := by
    have hgap {cs : List Char} (h : IsGap cs) : ∀ c ∈ cs, c ≠ '#' ∧ c ≠ '\n' := fun c hc =>
      ⟨fun heq => h.hash_not_mem (heq ▸ hc), (h c hc).2⟩
    refine List.forall_mem_append.2 ⟨fun c hc => ?_, hgap l.isGap_trailing⟩
    obtain ⟨p, hp, hc⟩ := List.mem_flatMap.1 hc
    rcases List.mem_append.1 hc with hc | hc
    · exact hgap (l.isGap p hp) c hc
    · have hplain := (hrow p.2 (List.mem_map_of_mem hp)).2
      exact ⟨(hplain c hc).2, fun heq => hplain.newline_not_mem (heq ▸ hc)⟩
  exact ⟨fun h => (hchars _ h).1 rfl, fun h => (hchars _ h).2 rfl⟩

theorem newline_not_mem_text (hrow : ∀ w ∈ l.row, IsWord w) : '\n' ∉ l.text := by
  rw [text, List.mem_append, not_or]
  refine ⟨(hash_newline_not_mem_code hrow).2, ?_⟩
  cases hcomment : l.comment with
  | none => simp
  | some cs => simpa using l.oneLine cs hcomment

/-- The row of a line is what is read from it, with or without a carriage return. -/
theorem lineWords_text (hrow : ∀ w ∈ l.row, IsWord w) (e : LineEnd) :
    lineWords (l.text ++ e.carriage) = l.row := by
  have hreturn : ∀ c ∈ e.carriage, Text.isBlank c = true ∧ c ≠ '#' := by
    cases e with
    | lf => exact List.forall_mem_nil _
    | crlf => exact List.forall_mem_singleton.2 (by decide)
  have hcode : ∀ c ∈ l.code, (c != '#') = true := fun c hc => by
    simpa using fun heq : c = '#' => (hash_newline_not_mem_code hrow).1 (heq ▸ hc)
  have hblank (c : Char) (hc : c ∈ e.carriage) := (hreturn c hc).1
  rw [lineWords, text]
  cases l.comment with
  | none =>
    have hall : ∀ c ∈ l.code ++ e.carriage, (c != '#') = true :=
      List.forall_mem_append.2 ⟨hcode, fun c hc => by simpa using (hreturn c hc).2⟩
    rw [Option.map_none, Option.getD_none, List.append_nil, List.takeWhile_eq_self_iff.2 hall]
    exact (runs_code hrow hblank).eq_words.symm
  | some cs =>
    have hcut : (l.code ++ '#' :: cs ++ e.carriage).takeWhile (· != '#') = l.code := by
      rw [List.append_assoc, List.takeWhile_append_of_pos hcode]
      simp
    rw [Option.map_some, Option.getD_some, hcut]
    have hruns := (runs_code hrow (List.forall_mem_nil _)).eq_words
    rw [List.append_nil] at hruns
    exact hruns.symm

end LineLayout

namespace Layout

variable {y : Layout} {bs : List Body}

theorem splitOn_text (hrows : ∀ row ∈ y.rows, ∀ w ∈ row, IsWord w) : y.text.toList.splitOn '\n' =
    y.lines.map (fun p => p.1.text ++ p.2.carriage) ++ [y.last.text] := by
  rw [text, String.toList_ofList]
  obtain ⟨hlines, hlast⟩ := List.forall_mem_append.1 hrows
  rw [List.forall_mem_singleton] at hlast
  generalize y.lines = lines at hlines ⊢
  induction lines with
  | nil => exact List.splitOn_eq_singleton (LineLayout.newline_not_mem_text hlast)
  | cons p lines ih =>
    obtain ⟨hline, hlines⟩ := List.forall_mem_cons.1 hlines
    have hnot : '\n' ∉ p.1.text ++ p.2.carriage := by
      rw [List.mem_append, not_or]
      exact ⟨LineLayout.newline_not_mem_text hline, by cases p.2 <;> decide⟩
    rw [List.flatMap_cons, List.append_assoc, List.append_assoc, List.singleton_append,
      List.splitOn_append_cons_self_of_not_mem hnot, ih hlines]
    rfl

theorem map_lineWords_splitOn (hrows : ∀ row ∈ y.rows, ∀ w ∈ row, IsWord w) :
    (y.text.toList.splitOn '\n').map lineWords = y.rows := by
  have hlast := hrows y.last.row (List.mem_append_right _ List.mem_cons_self)
  rw [splitOn_text hrows, List.map_append, List.map_map, rows]
  refine congr (congrArg _ (List.map_congr_left fun p hp => ?_)) ?_
  · exact LineLayout.lineWords_text (hrows _ (List.mem_append_left _ (List.mem_map_of_mem hp))) p.2
  · rw [List.map_singleton, ← LineLayout.lineWords_text hlast .lf, LineEnd.carriage, List.append_nil]

theorem isRepresentable_of_mem_lines (hbs : ∀ b ∈ bs, b.IsRepresentable) :
    ∀ line ∈ bs.flatMap Body.lines, line.IsRepresentable := by
  intro line hline
  obtain ⟨b, hb, hline⟩ := List.mem_flatMap.1 hline
  obtain ⟨hnamed, hname, -, hmarkers⟩ := hbs b hb
  rcases List.mem_cons.1 hline with rfl | hline
  · exact ⟨hnamed, hname⟩
  · obtain ⟨m, hm, rfl⟩ := List.mem_map.1 hline
    exact hmarkers m hm

theorem parse_text (hbs : ∀ b ∈ bs, b.IsRepresentable) (h : y.Writes bs) : parse y.text = .ok bs := by
  obtain ⟨hkept, hsays⟩ := says_of_spells h (isRepresentable_of_mem_lines hbs)
  have hplain : ∀ row ∈ y.rows, ∀ w ∈ row, IsWord w := fun row hrow w hw =>
    hkept row (List.mem_filter.2 ⟨hrow, by simpa using List.ne_nil_of_mem hw⟩) w hw
  have hgood : AllGood [] y.rows := allGood_of_spells h (.inr fun m hm => by
    cases bs <;> cases hm)
  have hspec := readLines_spec 1 [] false (by simp) (y.text.toList.splitOn '\n')
  rw [map_lineWords_splitOn hplain] at hspec
  rw [parse]
  cases hread : readLines 1 false (y.text.toList.splitOn '\n') with
  | error e =>
    rw [hread] at hspec
    obtain ⟨i, -, hbad⟩ := hspec
    exact absurd hgood hbad.not_allGood
  | ok lines =>
    rw [hread] at hspec
    rw [Except.map, group_eq_of_says hspec.2 hsays, group_flatMap_lines]

end Layout

def spaced : Row → List (List Char × List Char)
  | [] => []
  | w :: ws => ([], w) :: ws.map fun v => ([' '], v)

def LineLayout.ofRow (row : Row) : LineLayout where
  words := spaced row
  isGap := by cases row <;> simp [spaced, IsGap, Text.isBlank_of_isWhitespace]
  apart := by cases row <;> simp [spaced]

@[simp] theorem LineLayout.row_ofRow (row : Row) : (ofRow row).row = row := by
  cases row <;> simp [LineLayout.row, ofRow, spaced, Function.comp_def]

def Line.row : Line → Row
  | .blank => []
  | .header name id => ["method".toList, name.toList, (toString id).toList]
  | .marker m => m.kind.name.toList :: m.tags.entries.map tagWord

def Layout.ofLines (lines : List Line) : Layout :=
  ⟨lines.map fun line => (.ofRow line.row, .lf), .ofRow []⟩

theorem isId_toString {id : Nat} (h : id ≤ maxMethodId) : IsId (toString id).toList id := by
  rw [Nat.toString_eq_ofList_toDigits, String.toList_ofList]
  exact ⟨.unsigned (Text.isDigits_toDigits id), Int.ofNat_le.2 h⟩

theorem Layout.writes_ofLines {bs : List Body} (hbs : ∀ b ∈ bs, b.methodId ≤ maxMethodId) :
    (ofLines (bs.flatMap Body.lines)).Writes bs := by
  have hspells : ∀ line ∈ bs.flatMap Body.lines, Spells line.row line := fun line hline => by
    obtain ⟨b, hb, hline⟩ := List.mem_flatMap.1 hline
    rcases List.mem_cons.1 hline with rfl | hline
    · exact .header (isId_toString (hbs b hb))
    · obtain ⟨m, -, rfl⟩ := List.mem_map.1 hline
      exact .marker (.inl rfl) (.refl _)
  rw [Writes]
  generalize bs.flatMap Body.lines = lines at hspells ⊢
  have hne : ∀ row ∈ lines.map Line.row, decide (row ≠ []) = true := by
    rintro _ hrow
    obtain ⟨line, hline, rfl⟩ := List.mem_map.1 hrow
    simpa using (hspells line hline).ne_nil
  have hrows : (ofLines lines).rows = lines.map Line.row ++ [[]] := by
    simp [rows, ofLines, Function.comp_def]
  rw [hrows, List.filter_append, List.filter_eq_self.2 hne, List.filter_cons_of_neg (by simp),
    List.filter_nil, List.append_nil]
  exact List.forall₂_map_left_iff.2 (List.forall₂_same.2 hspells)

/-- Representable bodies can be written down as a script, and every script that writes them down is read as
exactly these bodies. -/
theorem layouts_read_back {bs : List Body} (hbs : ∀ b ∈ bs, b.IsRepresentable) :
    (∃ y : Layout, y.Writes bs) ∧ ∀ y : Layout, y.Writes bs → parse y.text = .ok bs :=
  ⟨⟨_, Layout.writes_ofLines fun b hb => (hbs b hb).methodId⟩, fun _ hy => Layout.parse_text hbs hy⟩

/-- Comments, a blank line, three kinds of blanks, a sign in front of an id, tags out of order, both endings, and
none behind the last line. -/
theorem layouts_read_back_mixed :
    let entry := ((Marker.ofKind .entry).withTag "" "a=b").withTag "sampler" "Const"
    let bs : List Body := [⟨"f", 7, [entry]⟩, ⟨"g", 0, [.ofKind .exit]⟩]
    let comment : LineLayout := { words := [], comment := some " probes".toList }
    let first : LineLayout :=
      { words := [(['\u3000'], "method".toList), ([' '], "f".toList), ([' '], "+07".toList)]
        trailing := [' ']
        comment := some " first".toList }
    let marker : LineLayout :=
      { words := [(['\t'], "mc$entry".toList), ([' '], "sampler=Const".toList), (['\u00a0'], "=a=b".toList)]
        trailing := [' '] }
    let y : Layout :=
      { lines := [(comment, .crlf), (first, .lf), (.ofRow [], .lf), (marker, .crlf),
          (.ofRow ["method".toList, "g".toList, "0".toList], .lf)]
        last := .ofRow ["exit".toList] }
    y.text = "# probes\r\n\u3000method f +07 # first\n\n\tmc$entry sampler=Const\u00a0=a=b \r\n" ++
      "method g 0\nexit" ∧
    (∀ b ∈ bs, b.IsRepresentable) ∧ y.Writes bs ∧ parse y.text = .ok bs := by
  intro entry bs comment first marker y
  have hentry : entry.IsRepresentable := by
    rw [Marker.IsRepresentable]
    decide +kernel
  have hexit : (Marker.ofKind .exit).IsRepresentable := by
    rw [Marker.IsRepresentable]
    decide
  have hbs : ∀ b ∈ bs, b.IsRepresentable := by
    simp only [bs, List.forall_mem_cons, List.not_mem_nil, false_imp_iff, implies_true, and_true]
    exact ⟨⟨by decide, by decide, by decide, by simpa using hentry⟩,
      ⟨by decide, by decide, by decide, by simpa using hexit⟩⟩
  have hwrites : y.Writes bs := by
    have hf : IsId "+07".toList 7 := numeralIn?_eq_some_iff_isId.1 (by decide +kernel)
    have hg : IsId "0".toList 0 := numeralIn?_eq_some_iff_isId.1 (by decide +kernel)
    have hentry : [("sampler", "Const"), ("", "a=b")].Perm entry.tags.entries := by decide +kernel
    have hexit : ([] : List (String × String)).Perm (Marker.ofKind .exit).tags.entries := .nil
    exact .cons (.header hf) (.cons (.marker (.inr rfl) hentry) (.cons (.header hg)
      (.cons (.marker (.inl rfl) hexit) .nil)))
  exact ⟨by decide +kernel, hbs, hwrites, (layouts_read_back hbs).2 y hwrites⟩

end Script

end MethodProbes
