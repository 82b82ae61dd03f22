import Pseudocode.Source
import Pseudocode.Proofs.Quoting
import Pseudocode.Proofs.Trimming

/-!
The lines of a source text. A text that is put together from lines falls apart into the same
lines; where no line ends with a blank or holds a comment, they are also what is left of them
after stripping. No line that is read has a line feed.
-/

namespace Pseudocode

def numbered (first : Nat) (texts : List Text) : List Line :=
  (texts.zipIdx first).map fun (text, number) => ⟨number, text⟩

theorem numbered_nil (first : Nat) : numbered first [] = [] := rfl

theorem numbered_cons (first : Nat) (text : Text) (texts : List Text) :
    numbered first (text :: texts) = ⟨first, text⟩ :: numbered (first + 1) texts := rfl

theorem numbered_append (first : Nat) (front back : List Text) :
    numbered first (front ++ back) =
      numbered first front ++ numbered (first + front.length) back := by
  simp [numbered, List.zipIdx_append]

theorem text_of_mem_numbered {first : Nat} {texts : List Text} {line : Line}
    (member : line ∈ numbered first texts) : line.text ∈ texts := by
  obtain ⟨⟨text, number⟩, held, rfl⟩ := List.mem_map.1 member
  exact List.fst_mem_of_mem_zipIdx held

theorem map_text_numbered (first : Nat) (texts : List Text) :
    (numbered first texts).map Line.text = texts := by
  simp [numbered, Function.comp_def]

namespace Text

theorem parts_append {mark : Char} {front : Text} (absent : mark ∉ front) (rest : Text) :
    parts mark (front ++ mark :: rest) = front :: parts mark rest := by
  induction front with
  | nil => simp [parts]
  | cons c others ih =>
      rw [List.mem_cons, not_or] at absent
      simp [parts, Ne.symm absent.1, ih absent.2]

theorem parts_lines {lines : List Text} (oneLine : ∀ line ∈ lines, '\n' ∉ line) :
    parts '\n' (lines.flatMap (· ++ ['\n'])) = lines ++ [[]] := by
  induction lines with
  | nil => rfl
  | cons line others ih =>
      obtain ⟨first, later⟩ := List.forall_mem_cons.1 oneLine
      rw [List.flatMap_cons, List.append_assoc, List.singleton_append, parts_append first, ih later]
      rfl

theorem absent_of_mem_parts {mark : Char} {text part : Text} (member : part ∈ parts mark text) :
    mark ∉ part := by
  induction text generalizing part with
  | nil => simp_all [parts]
  | cons c rest ih =>
      by_cases same : c = mark
      · rw [parts, if_pos same] at member
        rcases List.mem_cons.1 member with rfl | later
        · simp
        · exact ih later
      · rw [parts, if_neg same] at member
        cases shape : parts mark rest with
        | nil =>
            rw [shape] at member
            rw [List.mem_singleton.1 member]
            simpa using Ne.symm same
        | cons first others =>
            rw [shape] at ih member
            rcases List.mem_cons.1 member with rfl | later
            · simp [Ne.symm same, ih List.mem_cons_self]
            · exact ih (List.mem_cons_of_mem _ later)

/-- There is nothing to strip from the text. -/
structure Bare (text : Text) : Prop where
  uncommented : scanOpen opensComment false text = none
  ends : ∃ c, text.getLast? = some c ∧ isBlank c = false

theorem Bare.ne_nil {text : Text} (bare : Bare text) : text ≠ [] := by
  obtain ⟨c, last, _⟩ := bare.ends
  rintro rfl
  contradiction

theorem Bare.stripped {text : Text} (bare : Bare text) (number : Nat) :
    (Line.mk number text).stripped = ⟨number, text⟩ := by
  obtain ⟨c, last, visible⟩ := bare.ends
  have kept : trimEnd text = text := by
    apply trimTail_of_last
    intro d final
    rw [last] at final
    cases final
    exact visible
  simp [Line.stripped, withoutComment_of_none bare.uncommented, kept]

theorem bare_of_absent {text : Text} {c : Char} (unquoted : '"' ∉ text) (slash : '/' ∉ text)
    (last : text.getLast? = some c) (visible : isBlank c = false) : Bare text :=
  ⟨(passes_of_absent acceptsOnly_slash unquoted slash).finds_none, c, last, visible⟩

end Text

theorem sourceLines_rendered {texts : List Text} (oneLine : ∀ text ∈ texts, '\n' ∉ text)
    (bare : ∀ text ∈ texts, Text.Bare text) :
    sourceLines (texts.flatMap (· ++ ['\n'])) = numbered 1 texts := by
  have stripped : (numbered 1 texts).map Line.stripped = numbered 1 texts := by
    rw [List.map_congr_left (g := id), List.map_id]
    intro line member
    exact (bare _ (text_of_mem_numbered member)).stripped line.number
  have split : numberedLines (texts.flatMap (· ++ ['\n'])) =
      numbered 1 texts ++ [⟨1 + texts.length, []⟩] := by
    change numbered 1 (Text.parts '\n' _) = _
    rw [Text.parts_lines oneLine, numbered_append]
    rfl
  have kept : (numbered 1 texts).filter (fun line => !line.text.isEmpty) = numbered 1 texts := by
    rw [List.filter_eq_self]
    intro line member
    simpa using (bare _ (text_of_mem_numbered member)).ne_nil
  have last : Line.stripped ⟨1 + texts.length, []⟩ = ⟨1 + texts.length, []⟩ := rfl
  simp [sourceLines, split, stripped, kept, last]

theorem oneLine_sourceLines {source : Text} {line : Line} (member : line ∈ sourceLines source) :
    '\n' ∉ line.text := by
  obtain ⟨stripped, _⟩ := List.mem_filter.1 member
  obtain ⟨whole, numbered, rfl⟩ := List.mem_map.1 stripped
  have part : whole.text ∈ Text.parts '\n' source := text_of_mem_numbered numbered
  intro held
  exact Text.absent_of_mem_parts part
    (Text.mem_of_withoutComment (Text.mem_of_trimTail held))

theorem numbers_sourceLines (source : Text) :
    ((sourceLines source).map Line.number).Pairwise (· < ·) := by
  have sub : ((sourceLines source).map Line.number).Sublist
      (((numberedLines source).map Line.stripped).map Line.number) :=
    List.filter_sublist.map _
  have all : ((numberedLines source).map Line.stripped).map Line.number =
      List.range' 1 (Text.parts '\n' source).length := by
    simp [numberedLines, Line.stripped, Function.comp_def]
  rw [all] at sub
  exact List.Pairwise.sublist sub List.pairwise_lt_range'

end Pseudocode
