import Pseudocode.Proofs.Renumbering
import Pseudocode.Proofs.SourceLines

/-!
Comments and blank space mean nothing. A line that is blank or holds nothing but a comment may be
put anywhere into a source: the lines after it move down by one, and nothing else changes. A comment
may be put behind any line that is not inside quotes at its end, and blanks behind every line. What
decides is the one scan over a line that looks for its comment: whether that scan is inside quotes
at the end of the line, and that neither a blank nor the comment's first slash can be taken for the
second half of something that the line had begun.
-/

namespace Pseudocode

namespace Text

theorem parts_eq_splitOn (mark : Char) (text : Text) : parts mark text = text.splitOn mark := by
  induction text with
  | nil => rfl
  | cons c rest ih =>
      rw [List.splitOn, List.splitOnP_cons_eq_if_modifyHead]
      rw [List.splitOn] at ih
      by_cases same : c = mark
      · simp [parts, same, ih]
      · rw [← ih]
        cases shape : parts mark rest with
        | nil => exact absurd shape (parts_ne_nil mark rest)
        | cons first others => simp [parts, same, shape]

/-- Lines put together, with a line feed between each two. -/
def unlines (lines : List Text) : Text := ['\n'].intercalate lines

theorem parts_unlines {lines : List Text} (filled : lines ≠ [])
    (oneLine : ∀ line ∈ lines, '\n' ∉ line) : parts '\n' (unlines lines) = lines := by
  rw [unlines, parts_eq_splitOn, List.splitOn_intercalate _ oneLine filled]

/-- One more line, behind the first `position` lines. -/
def insertLine (position : Nat) (line source : Text) : Text :=
  unlines ((parts '\n' source).take position ++ line :: (parts '\n' source).drop position)

/-- More characters at the end of one line; the lines are counted from zero. -/
def appendToLine (position : Nat) (tail source : Text) : Text :=
  unlines ((parts '\n' source).modify position (· ++ tail))

theorem parts_insertLine {line : Text} (oneLine : '\n' ∉ line) (position : Nat) (source : Text) :
    parts '\n' (insertLine position line source) =
      (parts '\n' source).take position ++ line :: (parts '\n' source).drop position := by
  apply parts_unlines (by simp)
  intro other member
  rcases List.mem_append.1 member with before | following
  · exact absent_of_mem_parts (List.mem_of_mem_take before)
  · rcases List.mem_cons.1 following with rfl | behind
    · exact oneLine
    · exact absent_of_mem_parts (List.mem_of_mem_drop behind)

theorem parts_appendToLine {tail : Text} (oneLine : '\n' ∉ tail) (position : Nat) (source : Text) :
    parts '\n' (appendToLine position tail source) =
      (parts '\n' source).modify position (· ++ tail) := by
  apply parts_unlines
  · rw [← List.length_pos_iff, List.length_modify, List.length_pos_iff]
    exact parts_ne_nil '\n' source
  · intro line member
    obtain ⟨index, found⟩ := List.mem_iff_getElem?.1 member
    rw [List.getElem?_modify, Option.map_eq_map, Option.map_eq_some_iff] at found
    obtain ⟨old, held, rfl⟩ := found
    have absent : '\n' ∉ old := absent_of_mem_parts (List.mem_of_getElem? held)
    split <;> simp [absent, oneLine]

/-- Whether the scan for a comment is inside quotes when it ends, at the first comment or at the
end of the text. The flag says whether it starts there. -/
def endsQuoted : (quoted : Bool) → Text → Bool
  | quoted, [] => quoted
  | true, '\\' :: '"' :: rest => endsQuoted true rest
  | quoted, c :: rest =>
      if c = '"' then endsQuoted (!quoted) rest
      else if !quoted && opensComment (c :: rest) then false
      else endsQuoted quoted rest

/-- The text cannot complete a comment mark or an escaped quote that stands before it. -/
def Detached (tail : Text) : Prop := tail.head? ≠ some '/' ∧ tail.head? ≠ some '"'

theorem Detached.opensComment_append {tail : Text} (detached : Detached tail) (c : Char)
    (rest : Text) : opensComment (c :: rest ++ tail) = opensComment (c :: rest) := by
  cases rest with
  | nil =>
      cases tail with
      | nil => rfl
      | cons d others =>
          have other : '/' ≠ d := by
            rintro rfl
            exact detached.1 rfl
          simp [opensComment, startsWith, after?, other]
  | cons d others =>
      simp only [opensComment, startsWith, after?, List.cons_append]
      split
      · split <;> rfl
      · rfl

/-- What the scan finds when the line goes on, given what it has found in the line alone. -/
def resumed (line tail : Text) (quoted : Bool) : Option (Text × Text) → Option (Text × Text)
  | some found => some (found.1, found.2 ++ tail)
  | none => (scanOpen opensComment quoted tail).map (extend line)

theorem resumed_extend (lead line tail : Text) (quoted : Bool) (found? : Option (Text × Text)) :
    resumed (lead ++ line) tail quoted (found?.map (extend lead)) =
      (resumed line tail quoted found?).map (extend lead) := by
  cases found? with
  | none => simp only [resumed, Option.map_none, Option.map_map, extend_comp]
  | some found => rfl

theorem Detached.scanOpen_append {tail : Text} (detached : Detached tail) (quoted : Bool)
    (line : Text) :
    scanOpen opensComment quoted (line ++ tail) =
      resumed line tail (endsQuoted quoted line) (scanOpen opensComment quoted line) := by
  fun_induction endsQuoted quoted line with
  | case1 quoted => rw [List.nil_append, scanOpen, resumed, extend_nil, Option.map_id_apply]
  | case2 rest ih =>
      rw [List.cons_append, List.cons_append, scanOpen_escaped, scanOpen_escaped, ih]
      exact (resumed_extend ['\\', '"'] rest tail _ _).symm
  | case3 quoted rest _ ih =>
      rw [List.cons_append, scanOpen_quote, scanOpen_quote, ih]
      exact (resumed_extend ['"'] rest tail _ _).symm
  | case4 quoted c rest _ other accepted =>
      rw [Bool.and_eq_true, Bool.not_eq_true'] at accepted
      obtain ⟨rfl, opens⟩ := accepted
      have again : opensComment (c :: (rest ++ tail)) = true :=
        (detached.opensComment_append c rest).trans opens
      rw [List.cons_append, scanOpen_accepted other again, scanOpen_accepted other opens]
      rfl
  | case5 quoted c rest unescaped other refused ih =>
      have inside : quoted = true → c = '\\' → rest.head? ≠ some '"' := by
        intro open_ backslash head
        obtain ⟨more, shape⟩ := List.head?_eq_some_iff.1 head
        exact unescaped more open_ backslash shape
      have outside : quoted = false → opensComment (c :: rest) = false := by
        rintro rfl
        simpa using refused
      have longer : (rest ++ tail).head? = some '"' → rest.head? = some '"' := by
        cases rest with
        | nil => exact fun head => absurd head detached.2
        | cons d others => exact id
      rw [List.cons_append, scanOpen_passed other
          (fun open_ backslash head => inside open_ backslash (longer head))
          (fun closed => (detached.opensComment_append c rest).trans (outside closed)),
        scanOpen_passed other inside outside, ih]
      exact (resumed_extend [c] rest tail _ _).symm

/-- What a line has besides its comment and trailing blanks. -/
def strip (line : Text) : Text := trimEnd (withoutComment line)

theorem withoutComment_eq (line : Text) :
    withoutComment line = ((scanOpen opensComment false line).map Prod.fst).getD line := by
  unfold withoutComment opensComment
  cases scanOpen (fun rest => startsWith rest ['/', '/']) false line <;> rfl

/-- Behind a line that is not inside quotes at its end, a comment is one, also behind a slash. -/
theorem strip_append_comment {line : Text} (outside : endsQuoted false line = false)
    (note : Text) : strip (line ++ (" // ".toList ++ note)) = strip line := by
  have detached : Detached (" // ".toList ++ note) := by simp [Detached]
  have found : scanOpen opensComment false (" // ".toList ++ note) =
      some ([' '], '/' :: '/' :: ' ' :: note) := rfl
  unfold strip
  rw [withoutComment_eq, withoutComment_eq, detached.scanOpen_append, outside]
  cases scanOpen opensComment false line with
  | some earlier => rfl
  | none =>
      rw [resumed, found]
      exact trimTail_append_of_all line blank_of_mem_space

theorem not_mem_of_blank {blanks : Text} {d : Char} (blank : ∀ c ∈ blanks, isBlank c = true)
    (visible : isBlank d = false) : d ∉ blanks := by
  intro member
  rw [blank d member] at visible
  contradiction

theorem strip_append_blanks (line : Text) {blanks : Text}
    (blank : ∀ c ∈ blanks, isBlank c = true) : strip (line ++ blanks) = strip line := by
  have slash := not_mem_of_blank blank (show isBlank '/' = false by decide)
  have quote := not_mem_of_blank blank (show isBlank '"' = false by decide)
  have detached : Detached blanks :=
    ⟨fun head => slash (List.mem_of_mem_head? head), fun head => quote (List.mem_of_mem_head? head)⟩
  have nothing : ∀ quoted, scanOpen opensComment quoted blanks = none := by
    intro quoted
    cases quoted with
    | false => exact (passes_of_absent acceptsOnly_slash quote slash).finds_none
    | true => exact scanOpen_unclosed quote
  unfold strip
  rw [withoutComment_eq, withoutComment_eq, detached.scanOpen_append]
  cases scanOpen opensComment false line with
  | some earlier => rfl
  | none =>
      rw [resumed, nothing]
      exact trimTail_append_of_all line blank

/-- Blank, or a comment and nothing else. -/
def isRemark (line : Text) : Bool :=
  (trimStart line).isEmpty || startsWith (trimStart line) ['/', '/']

theorem strip_remark {line : Text} (remark : isRemark line = true) : strip line = [] := by
  obtain ⟨blanks, whole, blank⟩ : ∃ blanks, blanks ++ trimStart line = line ∧
      ∀ c ∈ blanks, isBlank c = true :=
    ⟨line.takeWhile isBlank, trimStart_append line, List.all_eq_true.1 List.all_takeWhile⟩
  rw [isRemark, Bool.or_eq_true, List.isEmpty_iff] at remark
  rcases remark with empty | comment
  · rw [empty, List.append_nil] at whole
    rw [← whole]
    exact strip_append_blanks [] blank
  · obtain ⟨note, follows⟩ := Option.isSome_iff_exists.1 comment
    have shape : trimStart line = '/' :: '/' :: note := after?_eq_some.1 follows
    have passes : Passes opensComment blanks :=
      passes_of_absent acceptsOnly_slash (not_mem_of_blank blank (by decide))
        (not_mem_of_blank blank (by decide))
    have found : scanOpen opensComment false line = some (blanks, '/' :: '/' :: note) := by
      rw [← whole, shape, passes, scanOpen_accepted (by decide) rfl]
      simp [extend]
    rw [strip, withoutComment_eq, found]
    exact trimTail_append_of_all [] blank

end Text

section LinesLeft

/-- What is left of lines without their comments and trailing blanks. -/
def meaningful (lines : List Line) : List Line :=
  (lines.map Line.stripped).filter fun line => !line.text.isEmpty

theorem sourceLines_eq (source : Text) :
    sourceLines source = meaningful (numbered 1 (Text.parts '\n' source)) := rfl

theorem meaningful_append (front back : List Line) :
    meaningful (front ++ back) = meaningful front ++ meaningful back := by
  simp [meaningful]

theorem meaningful_renumber (shift : Nat → Nat) (lines : List Line) :
    meaningful (lines.map (Line.renumber shift)) =
      (meaningful lines).map (Line.renumber shift) := by
  have kept : (fun line : Line => !line.text.isEmpty) ∘ Line.renumber shift =
      fun line => !line.text.isEmpty := rfl
  have stripped : Line.stripped ∘ Line.renumber shift = Line.renumber shift ∘ Line.stripped := rfl
  rw [meaningful, meaningful, List.map_map, stripped, ← List.map_map, List.filter_map, kept]

theorem map_stripped_numbered (first : Nat) (texts : List Text) :
    (numbered first texts).map Line.stripped = numbered first (texts.map Text.strip) := by
  induction texts generalizing first with
  | nil => rfl
  | cons text others ih =>
      rw [List.map_cons, numbered_cons, numbered_cons, List.map_cons, ih]
      rfl

theorem map_renumber_numbered {shift : Nat → Nat} {first later : Nat} {texts : List Text}
    (shifted : ∀ index < texts.length, shift (first + index) = later + index) :
    (numbered first texts).map (Line.renumber shift) = numbered later texts := by
  induction texts generalizing first later with
  | nil => rfl
  | cons text others ih =>
      have head : shift first = later := shifted 0 (by simp)
      have tail : ∀ index < others.length, shift (first + 1 + index) = later + 1 + index := by
        intro index inside
        have next := shifted (index + 1) (by simpa using inside)
        rw [Nat.add_right_comm first, Nat.add_right_comm later]
        exact next
      rw [numbered_cons, numbered_cons, List.map_cons, ih tail, Line.renumber, head]

theorem meaningful_cons_remark {line : Text} (remark : Text.isRemark line = true) (number : Nat)
    (rest : List Line) : meaningful (⟨number, line⟩ :: rest) = meaningful rest := by
  have nothing : (Line.mk number line).stripped.text = [] := Text.strip_remark remark
  simp [meaningful, nothing]

/-- Where a line ends up when another one is put behind the first `position` lines. -/
def pastLine (position number : Nat) : Nat := if number ≤ position then number else number + 1

theorem sourceLines_insertLine {line : Text} (oneLine : '\n' ∉ line)
    (remark : Text.isRemark line = true) (position : Nat) (source : Text) :
    sourceLines (Text.insertLine position line source) =
      (sourceLines source).map (Line.renumber (pastLine position)) := by
  have whole := List.take_append_drop position (Text.parts '\n' source)
  have size := List.length_take_le position (Text.parts '\n' source)
  have before : (numbered 1 ((Text.parts '\n' source).take position)).map
      (Line.renumber (pastLine position)) =
        numbered 1 ((Text.parts '\n' source).take position) := by
    apply map_renumber_numbered
    intro index inside
    exact if_pos (by omega)
  -- There are lines behind only if the position is not beyond the last line.
  have behind : (numbered (1 + ((Text.parts '\n' source).take position).length)
      ((Text.parts '\n' source).drop position)).map (Line.renumber (pastLine position)) =
        numbered (1 + ((Text.parts '\n' source).take position).length + 1)
          ((Text.parts '\n' source).drop position) := by
    apply map_renumber_numbered
    intro index inside
    rw [List.length_drop] at inside
    rw [List.length_take_of_le (by omega), pastLine, if_neg (by omega)]
    omega
  calc sourceLines (Text.insertLine position line source)
    _ = meaningful (numbered 1 ((Text.parts '\n' source).take position)) ++
          meaningful (numbered (1 + ((Text.parts '\n' source).take position).length + 1)
            ((Text.parts '\n' source).drop position)) := by
        rw [sourceLines_eq, Text.parts_insertLine oneLine, numbered_append, numbered_cons,
          meaningful_append, meaningful_cons_remark remark]
    _ = meaningful ((numbered 1 (Text.parts '\n' source)).map
          (Line.renumber (pastLine position))) := by
        rw [← before, ← behind, ← meaningful_append, ← List.map_append, ← numbered_append, whole]
    _ = (sourceLines source).map (Line.renumber (pastLine position)) := meaningful_renumber _ _

theorem sourceLines_appendToLine {position : Nat} {source tail : Text} (oneLine : '\n' ∉ tail)
    (stripped : ∀ line, (Text.parts '\n' source)[position]? = some line →
      Text.strip (line ++ tail) = Text.strip line) :
    sourceLines (Text.appendToLine position tail source) = sourceLines source := by
  have same : ((Text.parts '\n' source).modify position (· ++ tail)).map Text.strip =
      (Text.parts '\n' source).map Text.strip := by
    apply List.ext_getElem?
    intro index
    rw [List.getElem?_map, List.getElem?_map, List.getElem?_modify, Option.map_eq_map,
      Option.map_map]
    cases held : (Text.parts '\n' source)[index]? with
    | none => rfl
    | some line =>
        by_cases here : position = index
        · subst here
          simp [stripped line held]
        · simp [here]
  rw [sourceLines_eq, sourceLines_eq, Text.parts_appendToLine oneLine, meaningful, meaningful,
    map_stripped_numbered, map_stripped_numbered, same]

end LinesLeft

namespace Program

/-- Loading does not see comments and blank space. A line that is blank or only a comment changes
nothing but the numbers of the lines behind it, wherever it is put in; and neither does a comment
behind a line that is not inside quotes at its end, nor do blanks behind any line. -/
theorem load_ignores_comments (commands : List Command) (source : Text) (position : Nat) :
    (∀ line, '\n' ∉ line → Text.isRemark line = true →
      loadWith commands (Text.insertLine position line source) =
        renumbered (pastLine position) (Program.renumber (pastLine position))
          (loadWith commands source)) ∧
    (∀ line note, (Text.parts '\n' source)[position]? = some line →
      Text.endsQuoted false line = false → '\n' ∉ note →
      loadWith commands (Text.appendToLine position (" // ".toList ++ note) source) =
        loadWith commands source) ∧
    ∀ blanks, (∀ c ∈ blanks, Text.isBlank c = true) → '\n' ∉ blanks →
      loadWith commands (Text.appendToLine position blanks source) =
        loadWith commands source := by
  simp only [loadWith_eq_ofLines]
  refine ⟨?_, ?_, ?_⟩
  · intro line oneLine remark
    rw [sourceLines_insertLine oneLine remark, ofLines_renumber]
  · intro line note held outside oneLine
    have comment : '\n' ∉ " // ".toList ++ note := by simp [oneLine]
    rw [sourceLines_appendToLine comment]
    intro other found
    rw [held] at found
    cases found
    exact Text.strip_append_comment outside note
  · intro blanks blank oneLine
    rw [sourceLines_appendToLine oneLine]
    intro line _
    exact Text.strip_append_blanks line blank

def slashes : Text :=
  ["Algorithm A;", "Begin", "    Write(\"\\\"//\");", "End"].flatMap fun line =>
    line.toList ++ ['\n']

-- The slashes in the statement are quoted, and so is a quote before them.
theorem slashes_commented :
    ∃ program, load slashes = .ok program ∧
      program.statements = [⟨3, .write, "Write(\"\\\"//\");".toList⟩] ∧
      load (Text.insertLine 2 "\t// \"".toList slashes) =
        .ok (program.renumber (pastLine 2)) ∧
      load (Text.appendToLine 2 " // \"".toList slashes) = .ok program ∧
      load (Text.appendToLine 1 " \t".toList slashes) = .ok program := by
  have evaluated : (load slashes).toOption.map Program.statements =
        some [⟨3, .write, "Write(\"\\\"//\");".toList⟩] ∧
      (Text.parts '\n' slashes)[2]? = some "    Write(\"\\\"//\");".toList ∧
      Text.endsQuoted false "    Write(\"\\\"//\");".toList = false := by decide +kernel
  obtain ⟨statements, third, outside⟩ := evaluated
  cases loaded : load slashes with
  | error rejection =>
      rw [loaded] at statements
      contradiction
  | ok program =>
      rw [loaded] at statements
      obtain ⟨inserted, commented, _⟩ := load_ignores_comments Command.standard slashes 2
      obtain ⟨_, _, spaced⟩ := load_ignores_comments Command.standard slashes 1
      refine ⟨program, rfl, Option.some.inj statements, ?_, ?_, ?_⟩
      · exact (inserted "\t// \"".toList (by decide) (by decide)).trans
          (congrArg (renumbered _ _) loaded)
      · exact (commented _ ['"'] third outside (by decide)).trans loaded
      · exact (spaced " \t".toList (List.all_eq_true.1 (by decide)) (by decide)).trans loaded

end Program

end Pseudocode
