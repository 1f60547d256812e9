import Mathlib.Data.List.Forall2
import MethodProbes.Proofs.Script.Rows

/-!
# The language of scripts

A text is a script if each of its rows may follow those before it.  The headers then cut the rows into blocks,
one for each body; of any other text the first bad row is reported.
-/
namespace MethodProbes.Script

variable {earlier rows : List Row} {row : Row} {i : Nat} {message : String}

/-- The row at index `i` is the first bad one, and `message` says what is wrong with it. -/
def FirstBad (earlier rows : List Row) (i : Nat) (message : String) : Prop :=
  ∃ pre row post, rows = pre ++ row :: post ∧ pre.length = i ∧ AllGood earlier pre ∧
    ¬ Good (earlier ++ pre) row ∧ Bad (earlier ++ pre) row message

/-- A body is what a header says and the rows behind it, up to the next header. -/
structure Describes (block : Row × List Row) (b : Body) : Prop where
  header : ∃ word, block.1 = ["method".toList, b.name.toList, word] ∧ IsId word b.methodId
  noHeader : ∀ row ∈ block.2, ¬ IsHeader row
  markers : List.Forall₂ Marks (block.2.filter (· ≠ [])) b.markers

/-- Behind the rows in front of the first header there is one block for each body. -/
def Lists (rows : List Row) (bs : List Body) : Prop :=
  ∃ front blocks, rows = front ++ blocks.flatMap (fun block => block.1 :: block.2) ∧
    (∀ row ∈ front, ¬ IsHeader row) ∧ List.Forall₂ Describes blocks bs

theorem allGood_nil : AllGood earlier [] := fun _ _ _ h => by simp at h

theorem allGood_cons :
    AllGood earlier (row :: rows) ↔ Good earlier row ∧ AllGood (earlier ++ [row]) rows := by
  constructor
  · intro h
    refine ⟨by simpa using h [] row rows rfl, fun pre r post heq => ?_⟩
    simpa using h (row :: pre) r post (by rw [heq, List.cons_append])
  · rintro ⟨hrow, h⟩ pre r post heq
    rcases List.cons_eq_append_iff.1 heq with ⟨rfl, heq⟩ | ⟨pre, rfl, heq⟩
    · obtain rfl := List.head_eq_of_cons_eq heq
      simpa using hrow
    · simpa using h pre r post (List.tail_eq_of_cons_eq heq)

theorem Bad.firstBad (h : Bad earlier row message) : FirstBad earlier (row :: rows) 0 message := by
  have hbad : Bad (earlier ++ []) row message := by simpa using h
  exact ⟨[], row, rows, rfl, rfl, allGood_nil, hbad.not_good, hbad⟩

theorem FirstBad.cons (hrow : Good earlier row) (h : FirstBad (earlier ++ [row]) rows i message) :
    FirstBad earlier (row :: rows) (i + 1) message := by
  obtain ⟨pre, r, post, rfl, rfl, hpre, hnot, hbad⟩ := h
  rw [List.append_assoc, List.singleton_append] at hnot hbad
  exact ⟨row :: pre, r, post, rfl, rfl, allGood_cons.2 ⟨hrow, hpre⟩, hnot, hbad⟩

theorem FirstBad.not_allGood (h : FirstBad earlier rows i message) : ¬ AllGood earlier rows := by
  obtain ⟨pre, r, post, rfl, -, -, hnot, -⟩ := h
  exact fun hall => hnot (hall pre r post rfl)

theorem Says.matches_header_iff {line : Line} :
    Says row line → ((line matches .header ..) = true ↔ IsHeader row) := by
  intro h
  cases h with
  | blank => simp [IsHeader]
  | header => simp [IsHeader]
  | marker h => simpa using h.not_isHeader

theorem isBlank_of_mem_lineWords (line : List Char) :
    ∀ w ∈ lineWords line, ∀ c ∈ w, Text.isBlank c = false :=
  (Text.runs_words _).isBlank_eq_false

theorem readLines_spec (n : Nat) (earlier : List Row) (inMethod : Bool)
    (hm : inMethod = true ↔ ∃ row ∈ earlier, IsHeader row) (ls : List (List Char)) :
    match readLines n inMethod ls with
    | .ok lines => AllGood earlier (ls.map lineWords) ∧ List.Forall₂ Says (ls.map lineWords) lines
    | .error e => ∃ i, e.line = n + i ∧ FirstBad earlier (ls.map lineWords) i e.defect.message := by
  induction ls generalizing n earlier inMethod with
  | nil => exact ⟨allGood_nil, .nil⟩
  | cons l ls ih =>
    have hl := ofWords_spec hm (isBlank_of_mem_lineWords l)
    rw [readLines, List.map_cons]
    cases h : Line.ofWords inMethod (lineWords l) with
    | error d =>
      rw [h] at hl
      exact ⟨0, rfl, hl.firstBad⟩
    | ok line =>
      rw [h] at hl
      obtain ⟨hgood, hsays⟩ := hl
      dsimp only
      generalize hb : (inMethod || _) = b
      have hm' : b = true ↔ ∃ row ∈ earlier ++ [lineWords l], IsHeader row := by
        rw [← hb, Bool.or_eq_true, hm]
        refine (or_congr_right hsays.matches_header_iff).trans ?_
        simp [or_and_right, exists_or]
      have hls := ih (n + 1) _ b hm'
      cases h' : readLines (n + 1) b ls with
      | error e =>
        rw [h'] at hls
        obtain ⟨i, hi, hbad⟩ := hls
        exact ⟨i + 1, by omega, hbad.cons hgood⟩
      | ok lines =>
        rw [h'] at hls
        exact ⟨allGood_cons.2 ⟨hgood, hls.1⟩, .cons hsays hls.2⟩

theorem group_spec {lines : List Line} (h : List.Forall₂ Says rows lines) :
    ∃ front blocks, rows = front ++ blocks.flatMap (fun block => block.1 :: block.2) ∧
      (∀ row ∈ front, ¬ IsHeader row) ∧
      List.Forall₂ Marks (front.filter (· ≠ [])) (group lines).1 ∧
      List.Forall₂ Describes blocks (group lines).2 := by
  induction h with
  | nil => exact ⟨[], [], rfl, by simp, .nil, .nil⟩
  | @cons row line rows lines hrow _ ih =>
    obtain ⟨front, blocks, rfl, hfront, hmarks, hblocks⟩ := ih
    cases hrow with
    | blank =>
      refine ⟨[] :: front, blocks, rfl, List.forall_mem_cons.2 ⟨by simp [IsHeader], hfront⟩, ?_, hblocks⟩
      rw [List.filter_cons_of_neg (by simp)]
      exact hmarks
    | @header name word id hid =>
      exact ⟨[], (["method".toList, name.toList, word], front) :: blocks, rfl, by simp, .nil,
        .cons ⟨⟨word, rfl, hid⟩, hfront, hmarks⟩ hblocks⟩
    | marker hmark =>
      refine ⟨row :: front, blocks, rfl, List.forall_mem_cons.2 ⟨hmark.not_isHeader, hfront⟩, ?_,
        hblocks⟩
      rw [List.filter_cons_of_pos (by simpa using hmark.ne_nil)]
      exact .cons hmark hmarks

theorem Describes.isHeader {block : Row × List Row} {b : Body} (h : Describes block b) :
    IsHeader block.1 := by
  obtain ⟨word, hrow, -⟩ := h.header
  rw [IsHeader, hrow]
  rfl

theorem Describes.unique {block : Row × List Row} {b b' : Body} (h : Describes block b)
    (h' : Describes block b') : b = b' := by
  obtain ⟨word, hrow, hid⟩ := h.header
  obtain ⟨word', hrow', hid'⟩ := h'.header
  rw [hrow] at hrow'
  obtain ⟨hname, rfl⟩ : b.name.toList = b'.name.toList ∧ word = word' := by simpa using hrow'
  have hunique : Relator.RightUnique Marks := fun _ _ _ hm hm' => hm.unique hm'
  have hmarkers := List.right_unique_forall₂' hunique h.markers h'.markers
  cases b
  cases b'
  cases String.toList_inj.1 hname
  cases hid.unique hid'
  cases hmarkers
  rfl

/-- What stands in front of the first header is determined, and so is what begins with it. -/
theorem front_unique {front front' later later' : List Row} (hfront : ∀ row ∈ front, ¬ IsHeader row)
    (hfront' : ∀ row ∈ front', ¬ IsHeader row) (hlater : ∀ row ∈ later.head?, IsHeader row)
    (hlater' : ∀ row ∈ later'.head?, IsHeader row) (h : front ++ later = front' ++ later') :
    front = front' ∧ later = later' := by
  induction front generalizing front' with
  | nil =>
    cases front' with
    | nil => exact ⟨rfl, h⟩
    | cons row front' =>
      subst h
      exact absurd (hlater row rfl) (hfront' row List.mem_cons_self)
  | cons row front ih =>
    obtain ⟨hrow, hfront⟩ := List.forall_mem_cons.1 hfront
    cases front' with
    | nil =>
      subst h
      exact absurd (hlater' row rfl) hrow
    | cons row' front' =>
      obtain ⟨rfl, htail⟩ := List.cons.inj h
      obtain ⟨rfl, rfl⟩ := ih hfront (List.forall_mem_cons.1 hfront').2 htail
      exact ⟨rfl, rfl⟩

theorem isHeader_of_mem_head? {blocks : List (Row × List Row)} {bs : List Body}
    (h : List.Forall₂ Describes blocks bs) :
    ∀ row ∈ (blocks.flatMap fun block => block.1 :: block.2).head?, IsHeader row := by
  cases h with
  | nil => simp
  | cons hblock _ => simpa using hblock.isHeader

theorem bodies_unique {blocks blocks' : List (Row × List Row)} {bs bs' : List Body}
    (h : List.Forall₂ Describes blocks bs) (h' : List.Forall₂ Describes blocks' bs')
    (heq : (blocks.flatMap fun block => block.1 :: block.2) =
      blocks'.flatMap fun block => block.1 :: block.2) : bs = bs' := by
  induction h generalizing blocks' bs' with
  | nil =>
    cases h' with
    | nil => rfl
    | cons => simp at heq
  | @cons block b blocks bs hblock hblocks ih =>
    cases h' with
    | nil => simp at heq
    | @cons block' b' blocks' bs' hblock' hblocks' =>
      rw [List.flatMap_cons, List.flatMap_cons, List.cons_append, List.cons_append] at heq
      obtain ⟨hrow, htail⟩ := List.cons.inj heq
      obtain ⟨hrows, hlater⟩ := front_unique hblock.noHeader hblock'.noHeader
        (isHeader_of_mem_head? hblocks) (isHeader_of_mem_head? hblocks') htail
      obtain rfl : block = block' := Prod.ext hrow hrows
      rw [hblock.unique hblock', ih hblocks' hlater]

theorem Lists.unique {bs bs' : List Body} (h : Lists rows bs) (h' : Lists rows bs') : bs = bs' := by
  obtain ⟨front, blocks, heq, hfront, hblocks⟩ := h
  obtain ⟨front', blocks', heq', hfront', hblocks'⟩ := h'
  have hlater := front_unique hfront hfront' (isHeader_of_mem_head? hblocks)
    (isHeader_of_mem_head? hblocks') (heq.symm.trans heq')
  exact bodies_unique hblocks hblocks' hlater.2

/-- A text is parsed if all its rows are good, and gives the bodies that they list; otherwise its first bad row
is reported, by the number of the line and by what is wrong with it. -/
theorem parse_accepts_language (s : String) : ∃ rows, Rows s rows ∧
    ((∃ bs, parse s = .ok bs) ↔ AllGood [] rows) ∧
    (∀ bs, parse s = .ok bs ↔ AllGood [] rows ∧ Lists rows bs) ∧
    ∀ e, parse s = .error e → ∃ i, e.line = i + 1 ∧ FirstBad [] rows i e.defect.message := by
  have hrows : Rows s ((s.toList.splitOn '\n').map lineWords) :=
    List.forall₂_map_right_iff.2 (List.forall₂_same.2 fun _ _ => Text.runs_words _)
  refine ⟨_, hrows, ?_⟩
  have hspec := readLines_spec 1 [] false (by simp) (s.toList.splitOn '\n')
  cases h : readLines 1 false (s.toList.splitOn '\n') with
  | ok lines =>
    rw [h] at hspec
    obtain ⟨hall, hsays⟩ := hspec
    obtain ⟨front, blocks, heq, hfront, -, hblocks⟩ := group_spec hsays
    have hlists : Lists _ (group lines).2 := ⟨front, blocks, heq, hfront, hblocks⟩
    have hparse : parse s = .ok (group lines).2 := by rw [parse, h, Except.map]
    simp only [hparse, Except.ok.injEq, exists_eq', hall, true_and, reduceCtorEq, false_imp_iff,
      implies_true, and_true]
    exact fun bs => ⟨fun hbs => hbs ▸ hlists, hlists.unique⟩
  | error e =>
    rw [h] at hspec
    obtain ⟨i, hi, hbad⟩ := hspec
    have hparse : parse s = .error e := by rw [parse, h, Except.map]
    simp only [hparse, reduceCtorEq, exists_false, hbad.not_allGood, false_and, implies_true, true_and,
      Except.error.injEq, forall_eq']
    exact ⟨i, by omega, hbad⟩

-- The second line has a comment and Unicode blanks; the third is the first bad one.
example : parse "method f 7\n\u3000entry\u00a0timed # = on entry\nmethod g 2147483648\nend" =
    .error ⟨3, .invalidId "2147483648"⟩ := by decide +kernel

end MethodProbes.Script
