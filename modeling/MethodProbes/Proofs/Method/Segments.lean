import MethodProbes.Proofs.Cycles.SlotBudget
import MethodProbes.Proofs.Method.Site

/-!
# The code of a method in segments

The spans of a method cut its code into one segment for each marker, and the listing shows these segments
one after the other.
-/
namespace MethodProbes

variable {settings : Settings} {firstSlot : UInt16}

namespace Expander

/-- Markers that are all expanded write one part of code each, and the parts of the first ones are what is
written for these alone. -/
theorem exists_parts {x : Expander} {b : Buffer} {n : Nat} {ms : List Marker} (hn : b.insns.size = n)
    (h : (x.expandAll b n ms).error = none) :
    ∃ parts, parts.length = ms.length ∧ (x.expandAll b n ms).spans = spansOf n ms parts ∧
      ∀ i, (x.expandAll b n (ms.take i)).buffer.code = b.code ++ (parts.take i).flatten := by
  induction ms generalizing x b n with
  | nil => exact ⟨[], rfl, rfl, by simp [expandAll]⟩
  | cons m ms ih =>
    obtain ⟨part, hpart⟩ := ((Buffer.keeps_extends b).expand x m (.refl b)).code
    rcases he : x.expand m b with ⟨y, c, r, _ | e⟩
    · rw [he] at hpart
      dsimp only at hpart
      rw [expandAll, he] at h ⊢
      have hsize : c.insns.size = n + part.length := by
        rw [← hn, ← c.insns.length_toList, ← b.insns.length_toList, ← List.length_append]
        exact congrArg List.length hpart.symm
      obtain ⟨parts, hlength, hspans, htake⟩ := ih (x := y) rfl h
      refine ⟨part :: parts, congrArg (· + 1) hlength, ?_, fun i => ?_⟩
      · dsimp only
        rw [hspans, hsize]
        rfl
      · cases i with
        | zero => simp [expandAll]
        | succ i =>
          rw [List.take_succ_cons, List.take_succ_cons, expandAll, he, List.flatten_cons,
            ← List.append_assoc, hpart]
          exact htake i
    · rw [expandAll, he] at h
      cases h

end Expander

inductive ListedLine where
  /-- Name, id and tracking of the method. -/
  | header
  /-- The template of a marker. -/
  | marker (k : MarkerKind)
  | insn (i : Insn)

namespace ListedLine

def text (M : ProbedMethod) : ListedLine → String
  | header => M.header
  | marker k => s!"  ; {k.templateName} {k.descriptor}"
  | insn i => i.text

def insn? : ListedLine → Option Insn
  | insn i => some i
  | _ => none

def ofMarker (k : MarkerKind) (code : List Insn) : List ListedLine := .marker k :: code.map .insn

theorem filterMap_insn?_ofMarker (k : MarkerKind) (code : List Insn) :
    (ofMarker k code).filterMap insn? = code := by
  rw [ofMarker, List.filterMap_cons_none rfl, List.filterMap_map]
  exact List.filterMap_some

theorem join_ofMarker (M : ProbedMethod) (k : MarkerKind) (code : List Insn) :
    String.join ((ofMarker k code).map fun l => l.text M ++ "\n") =
      s!"  ; {k.templateName} {k.descriptor}" ++ "\n" ++ listing code := by
  rw [ofMarker, List.map_cons, String.join_cons, List.map_map]
  rfl

end ListedLine

namespace ProbedMethod

variable (M : ProbedMethod)

def segments : List (List Insn) := M.spans.map M.segment

/-- The lines of the listing: behind the header those of each marker and its own segment. -/
def listedLines (ms : List Marker) : List ListedLine :=
  .header :: (ms.zip M.segments).flatMap fun p => ListedLine.ofMarker p.1.kind p.2

/-- The spans divide the code of the method among the markers. -/
structure DividedAmong (ms : List Marker) : Prop where
  kinds : M.spans.map (·.kind) = ms.map (·.kind)
  first : ∀ s ∈ M.spans.head?, s.start = 0
  next : ∀ i s t, M.spans[i]? = some s → M.spans[i + 1]? = some t → t.start = s.stop
  last : ∀ s ∈ M.spans.getLast?, s.stop = M.code.size
  empty : ms = [] → M.code = #[]
  inRange : ∀ s ∈ M.spans, s.start ≤ s.stop ∧ s.stop ≤ M.code.size
  defined : ∀ i, (M.segment? i).isSome = true ↔ i < ms.length
  whole : ((List.range ms.length).filterMap M.segment?).flatten = M.code.toList
  listing : M.listing = String.join ((M.listedLines ms).map fun l => l.text M ++ "\n")
  listed : (M.listedLines ms).filterMap ListedLine.insn? = M.code.toList

end ProbedMethod

section

variable {n : Nat} {ms : List Marker} {parts : List (List Insn)}

theorem map_kind_spansOf (h : parts.length = ms.length) :
    (spansOf n ms parts).map (·.kind) = ms.map (·.kind) := by
  induction ms generalizing n parts with
  | nil => rfl
  | cons m ms ih =>
    cases parts with
    | nil => cases h
    | cons part parts => exact congrArg (m.kind :: ·) (ih (Nat.succ.inj h))

/-- A span goes from behind the parts before it to behind its own part. -/
theorem exists_of_getElem?_spansOf {i : Nat} {s : Span} (h : (spansOf n ms parts)[i]? = some s) :
    ∃ part, parts[i]? = some part ∧ s.start = n + (parts.take i).flatten.length ∧
      s.stop = n + (parts.take (i + 1)).flatten.length := by
  induction ms generalizing n i parts with
  | nil => simp [spansOf] at h
  | cons m ms ih =>
    cases parts with
    | nil => simp [spansOf] at h
    | cons part parts =>
      cases i with
      | zero =>
        obtain rfl := Option.some.inj h
        exact ⟨part, rfl, rfl, by simp⟩
      | succ i =>
        obtain ⟨part', hpart, hstart, hstop⟩ := ih (i := i) h
        refine ⟨part', hpart, ?_, ?_⟩
        · rw [hstart, List.take_succ_cons, List.flatten_cons, List.length_append, Nat.add_assoc]
        · rw [hstop, List.take_succ_cons, List.flatten_cons, List.length_append, Nat.add_assoc]

theorem flatten_take_succ {i : Nat} {part : List Insn} (h : parts[i]? = some part) :
    (parts.take (i + 1)).flatten = (parts.take i).flatten ++ part := by
  rw [List.take_add_one, h, List.flatten_append, Option.toList_some, List.flatten_singleton]

theorem flatten_take_append (parts : List (List Insn)) (i : Nat) :
    (parts.take i).flatten ++ (parts.drop i).flatten = parts.flatten := by
  rw [← List.flatten_append, List.take_append_drop]

end

namespace ProbedMethod

variable {M : ProbedMethod} {ms : List Marker} {parts : List (List Insn)}

theorem segment?_eq (i : Nat) : M.segment? i = M.segments[i]? := by
  rw [segment?, segments, List.getElem?_map]

theorem filterMap_segment? :
    (List.range M.segments.length).filterMap M.segment? = M.segments := by
  have hmap : (List.range M.segments.length).map M.segment? = M.segments.map some :=
    List.ext_getElem (by simp) fun i hi hi' => by
      rw [List.getElem_map, List.getElem_range, segment?_eq, List.getElem_map]
      exact List.getElem?_eq_getElem _
  have hid : (List.range M.segments.length).filterMap M.segment? =
      ((List.range M.segments.length).map M.segment?).filterMap id := by
    rw [List.filterMap_map, Function.id_comp]
  rw [hid, hmap, List.filterMap_map]
  exact List.filterMap_some

theorem listedLines_eq (h : M.spans.map (·.kind) = ms.map (·.kind)) :
    M.listedLines ms = .header :: M.spans.flatMap fun s =>
      ListedLine.ofMarker s.kind (M.segment s) := by
  have hzip : (ms.map (·.kind)).zip M.segments = M.spans.map fun s => (s.kind, M.segment s) := by
    rw [← h, segments, List.zip_map']
  have hflat := congrArg (List.flatMap fun p => ListedLine.ofMarker p.1 p.2) hzip
  rw [List.zip_map_left, List.flatMap_map, List.flatMap_map] at hflat
  exact congrArg (.header :: ·) hflat

theorem filterMap_insn?_listedLines (h : M.spans.map (·.kind) = ms.map (·.kind)) :
    (M.listedLines ms).filterMap ListedLine.insn? = M.segments.flatten := by
  rw [listedLines_eq h, List.filterMap_cons_none rfl, List.filterMap_flatMap, List.flatMap_def, segments]
  simp only [ListedLine.filterMap_insn?_ofMarker]

theorem listing_eq (h : M.spans.map (·.kind) = ms.map (·.kind)) :
    M.listing = String.join ((M.listedLines ms).map fun l => l.text M ++ "\n") := by
  have hspans (ss : List Span) : String.join ((ss.flatMap fun s =>
        ListedLine.ofMarker s.kind (M.segment s)).map fun l => l.text M ++ "\n") =
      String.join (ss.map fun s => s!"  ; {s.kind.templateName} {s.kind.descriptor}" ++ "\n" ++
        MethodProbes.listing (M.segment s)) := by
    induction ss with
    | nil => rfl
    | cons s ss ih =>
      rw [List.flatMap_cons, List.map_append, String.join_append, ih, ListedLine.join_ofMarker,
        List.map_cons, String.join_cons]
  rw [listing, ← hspans, listedLines_eq h, List.map_cons, String.join_cons]
  rfl

theorem segments_eq (hspans : M.spans = spansOf 0 ms parts) (hlength : parts.length = ms.length)
    (hcode : M.code.toList = parts.flatten) : M.segments = parts := by
  refine List.ext_getElem? fun i => ?_
  rw [segments, List.getElem?_map, hspans]
  cases hs : (spansOf 0 ms parts)[i]? with
  | none =>
    have hkinds : (spansOf 0 ms parts).length = parts.length := by
      simpa [hlength] using congrArg List.length (map_kind_spansOf (n := 0) hlength)
    rw [List.getElem?_eq_none_iff, hkinds, ← List.getElem?_eq_none_iff] at hs
    exact hs.symm
  | some s =>
    obtain ⟨part, hpart, hstart, hstop⟩ := exists_of_getElem?_spansOf hs
    rw [Option.map_some, hpart, segment, Array.toList_extract, List.extract_eq_take_drop, hstop, hstart,
      hcode, ← flatten_take_append parts (i + 1), flatten_take_succ hpart]
    simp

/-- Spans of parts that make up the code divide it. -/
theorem dividedAmong_of_parts (hspans : M.spans = spansOf 0 ms parts)
    (hlength : parts.length = ms.length) (hcode : M.code.toList = parts.flatten) :
    M.DividedAmong ms := by
  have hkinds : M.spans.map (·.kind) = ms.map (·.kind) := hspans ▸ map_kind_spansOf hlength
  have hsegments := segments_eq hspans hlength hcode
  have hsize : M.code.size = parts.flatten.length := by rw [← hcode, Array.length_toList]
  have hcut {i : Nat} {s : Span} (h : M.spans[i]? = some s) :
      ∃ part, parts[i]? = some part ∧ s.start = (parts.take i).flatten.length ∧
        s.stop = (parts.take (i + 1)).flatten.length := by
    have hs := exists_of_getElem?_spansOf (hspans ▸ h)
    simpa only [Nat.zero_add] using hs
  refine
    { kinds := hkinds
      first := fun s hs => ?first
      next := fun i s t hs ht => ?next
      last := fun s hs => ?last
      empty := ?empty
      inRange := fun s hs => ?inRange
      defined := fun i => ?defined
      whole := ?whole
      listing := listing_eq hkinds
      listed := ?listed }
  case first =>
    rw [List.head?_eq_getElem?] at hs
    obtain ⟨part, -, hstart, -⟩ := hcut hs
    exact hstart
  case next =>
    obtain ⟨part, -, -, hstop⟩ := hcut hs
    obtain ⟨part', -, hstart, -⟩ := hcut ht
    rw [hstart, hstop]
  case last =>
    have hspans : M.spans.length = parts.length := by
      simpa [segments] using congrArg List.length hsegments
    rw [List.getLast?_eq_getElem?, hspans] at hs
    obtain ⟨part, hpart, -, hstop⟩ := hcut hs
    have hlt : parts.length - 1 < parts.length := (List.getElem?_eq_some_iff.1 hpart).1
    rw [hstop, hsize, List.take_of_length_le (by omega)]
  case empty =>
    rintro rfl
    rw [List.eq_nil_of_length_eq_zero hlength] at hcode
    exact Array.toList_eq_nil_iff.1 hcode
  case inRange =>
    obtain ⟨i, hi⟩ := List.mem_iff_getElem?.1 hs
    obtain ⟨part, hpart, hstart, hstop⟩ := hcut hi
    rw [hstart, hstop, hsize, ← flatten_take_append parts (i + 1), List.length_append,
      flatten_take_succ hpart, List.length_append]
    omega
  case defined =>
    rw [segment?_eq, hsegments, ← hlength]
    simp
  case whole => rw [← hlength, ← hsegments, filterMap_segment?, hsegments, hcode]
  case listed => rw [filterMap_insn?_listedLines hkinds, hsegments, hcode]

end ProbedMethod

/-- A method that succeeds is divided by its spans among the markers of the body, and the segments of the first
markers are what their expansion has written. -/
theorem Body.spans_divide {b : Body} {M : ProbedMethod}
    (h : (b.attempt settings firstSlot).result = .ok M) :
    M.DividedAmong b.markers ∧ ∃ x, (Expander.new b.methodId settings).recordAll b.markers = .ok x ∧
      ∀ i, (x.expandAll (.empty firstSlot) 0 (b.markers.take i)).buffer.code =
        (M.segments.take i).flatten := by
  cases hx : (Expander.new b.methodId settings).recordAll b.markers with
  | error e =>
    rw [attempt, hx] at h
    cases h
  | ok x =>
    rw [result_of_recordAll firstSlot hx] at h
    cases he : (x.expandAll (.empty firstSlot) 0 b.markers).error with
    | some e =>
      rw [he] at h
      cases h
    | none =>
      rw [he] at h
      cases h
      obtain ⟨parts, hlength, hspans, htake⟩ :=
        Expander.exists_parts (b := .empty firstSlot) (n := 0) rfl he
      simp only [Buffer.code_empty, List.nil_append] at htake
      have hcode := htake b.markers.length
      rw [List.take_length, ← hlength, List.take_length] at hcode
      refine ⟨ProbedMethod.dividedAmong_of_parts hspans hlength hcode, x, rfl, fun i => ?_⟩
      rw [htake, ProbedMethod.segments_eq hspans hlength hcode]

/-- The reset has an empty segment, and the else marker places a label of the test. -/
theorem Body.spans_divide_reset :
    let entry := (Marker.ofKind .entry).withSampler (some .const)
    let b : Body := ⟨"m", 7, [entry, .ofKind .test, .ofKind .reset, .ofKind .elseBranch]⟩
    ∃ M, (b.attempt {} 0).result = .ok M ∧ M.DividedAmong b.markers ∧
      M.spans.map (fun s => (s.start, s.stop)) = [(0, 3), (3, 7), (7, 7), (7, 9)] ∧
      M.segment? 2 = some [] ∧ M.segment? 3 = some [.label ⟨1⟩, .frame ⟨1⟩] := by
  intro entry b
  have hP : (b.attempt {} 0).result.toOption.any (fun M =>
      M.spans.map (fun s => (s.start, s.stop)) = [(0, 3), (3, 7), (7, 7), (7, 9)] ∧
      M.segment? 2 = some [] ∧ M.segment? 3 = some [.label ⟨1⟩, .frame ⟨1⟩]) = true := by
    decide +kernel
  cases hM : (b.attempt {} 0).result with
  | error e =>
    rw [hM] at hP
    cases hP
  | ok M =>
    rw [hM] at hP
    exact ⟨M, rfl, (spans_divide hM).1, of_decide_eq_true hP⟩

end MethodProbes
