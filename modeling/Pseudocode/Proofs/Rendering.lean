import Pseudocode.Proofs.Declaring
import Pseudocode.Proofs.Layout
import Pseudocode.Proofs.SourceLines

/-!
Programs written out, and loaded again. A manuscript has all that a program has except for line
numbers: a name, two tables and a body. It is rendered as a source text with one line for each
declaration and each statement. Loading that text gives the manuscript back, line numbers added,
as long as its strings can be written on a line: a line feed inside a string breaks the line, and
a backslash at its end hides the end of the literal.
-/

namespace Pseudocode

/-- A text that can stand as a statement on a line of its own. -/
structure Command.Writable (scope : Scope) (command : Command) (text : Text) : Prop where
  oneLine : '\n' ∉ text
  flush : text.head? ≠ some ' '
  ended : text.getLast? = some ';'
  uncommented : Text.scanOpen Text.opensComment false text = none
  classified : Command.classify? Command.standard scope text = some command

structure Manuscript where
  name : Text
  scope : Scope
  body : List (Command × Text)
  named : Text.isIdentifier name = true
  identified : ∀ part, ∀ entry ∈ (scope.table part).entries, Text.isIdentifier entry.1 = true
  finite : ∀ part, ∀ entry ∈ (scope.table part).entries, entry.2.IsFinite
  apart : ∀ name ∈ scope.constants.names, name ∉ scope.variables.names
  writable : ∀ step ∈ body, step.1.Writable scope step.2

def indentedText (text : Text) : Text := "    ".toList ++ text

namespace Manuscript

variable (manuscript : Manuscript)

def declarationTexts (part : Section) : List Text :=
  (manuscript.scope.table part).entries.map fun entry => Declaration.text entry.1 entry.2

/-- A section without declarations is left out, with its keyword. -/
def sectionTexts (part : Section) : List Text :=
  if (manuscript.declarationTexts part).isEmpty then []
  else part.keyword :: (manuscript.declarationTexts part).map indentedText

/-- All lines before `Begin`. -/
def frontTexts : List Text :=
  ("Algorithm ".toList ++ (manuscript.name ++ [';'])) ::
    (manuscript.sectionTexts .constants ++ manuscript.sectionTexts .variables)

def bodyTexts : List Text := manuscript.body.map Prod.snd

def texts : List Text :=
  manuscript.frontTexts ++
    "Begin".toList :: (manuscript.bodyTexts.map indentedText ++ ["End".toList])

def render : Text := manuscript.texts.flatMap (· ++ ['\n'])

/-- The line after `Begin`. -/
def firstStatement : Nat := manuscript.frontTexts.length + 2

def statements : List Statement :=
  (manuscript.body.zipIdx manuscript.firstStatement).map fun (step, number) =>
    ⟨number, step.1, step.2⟩

def program : Program := ⟨manuscript.name, manuscript.scope, manuscript.statements⟩

end Manuscript

theorem bare_indentedText {text : Text} (bare : Text.Bare text) :
    Text.Bare (indentedText text) := by
  obtain ⟨c, last, visible⟩ := bare.ends
  have passes : Text.Passes Text.opensComment "    ".toList :=
    Text.passes_of_absent Text.acceptsOnly_slash (by decide) (by decide)
  refine ⟨?_, c, ?_, visible⟩
  · rw [indentedText, passes, bare.uncommented]
    rfl
  · rw [indentedText, List.getLast?_append, last]
    rfl

theorem outdented_indentedText (number : Nat) (text : Text) :
    (Line.mk number (indentedText text)).outdented = ⟨number, text⟩ := rfl

theorem isIndented_of_text {line : Line} {text : Text} (shape : line.text = indentedText text)
    (flush : text.head? ≠ some ' ') (ended : text.getLast? = some ';') : line.IsIndented := by
  have spaces : (indentedText text).takeWhile (· = ' ') = "    ".toList := by
    apply Text.takeWhile_run (List.all_eq_true.1 (by decide))
    intro c head
    rw [decide_eq_false_iff_not]
    rintro rfl
    exact flush head
  refine ⟨?_, ?_⟩
  · rw [Line.indentation, shape, spaces]
    rfl
  · rw [shape, indentedText, List.getLast?_append, ended]
    rfl

namespace Declaration

variable {name : Text} {value : Value}

theorem bare_text (identifier : Text.isIdentifier name = true) : Text.Bare (text name value) :=
  ⟨uncommented_text identifier, ';', getLast?_text name value, rfl⟩

end Declaration

namespace Manuscript

variable (manuscript : Manuscript)

theorem forall_texts (property : Text → Prop)
    (heading : property ("Algorithm ".toList ++ (manuscript.name ++ [';'])))
    (keyword : ∀ part : Section, property part.keyword)
    (declaration : ∀ part, ∀ entry ∈ (manuscript.scope.table part).entries,
      property (indentedText (Declaration.text entry.1 entry.2)))
    (begins : property "Begin".toList)
    (statement : ∀ step ∈ manuscript.body, property (indentedText step.2))
    (ends : property "End".toList) : ∀ text ∈ manuscript.texts, property text := by
  have sections : ∀ part, ∀ text ∈ manuscript.sectionTexts part, property text := by
    intro part text member
    unfold sectionTexts at member
    split at member
    · contradiction
    · rcases List.mem_cons.1 member with rfl | later
      · exact keyword part
      · simp only [declarationTexts, List.map_map, List.mem_map] at later
        obtain ⟨entry, held, rfl⟩ := later
        exact declaration part entry held
  intro text member
  simp only [texts, frontTexts, bodyTexts, List.map_map, List.mem_append, List.mem_cons,
    List.mem_map, List.not_mem_nil, or_false] at member
  rcases member with (rfl | first | second) | rfl | ⟨step, held, rfl⟩ | rfl
  · exact heading
  · exact sections .constants text first
  · exact sections .variables text second
  · exact begins
  · exact statement step held
  · exact ends

theorem bare_texts : ∀ text ∈ manuscript.texts, Text.Bare text := by
  have plain := Text.plain_of_identifier manuscript.named
  refine manuscript.forall_texts Text.Bare ?_ ?_ ?_ ?_ ?_ ?_
  · have quotes : '"' ∉ manuscript.name := Text.not_mem_of_plain plain rfl
    have slashes : '/' ∉ manuscript.name := Text.not_mem_of_plain plain rfl
    refine Text.bare_of_absent ?_ ?_ (c := ';') ?_ rfl
    · simp [quotes]
    · simp [slashes]
    · rw [← List.append_assoc, List.getLast?_concat]
  · intro part
    cases part with
    | constants => exact Text.bare_of_absent (by decide) (by decide) rfl (by decide)
    | «variables» => exact Text.bare_of_absent (by decide) (by decide) rfl (by decide)
  · intro part entry held
    exact bare_indentedText (Declaration.bare_text (manuscript.identified part entry held))
  · exact Text.bare_of_absent (by decide) (by decide) rfl (by decide)
  · intro step held
    have writable := manuscript.writable step held
    exact bare_indentedText ⟨writable.uncommented, ';', writable.ended, rfl⟩
  · exact Text.bare_of_absent (by decide) (by decide) rfl (by decide)

/-- No string of the manuscript has a line feed. -/
def OneLine : Prop :=
  ∀ part name text, (name, .string text) ∈ (manuscript.scope.table part).entries → '\n' ∉ text

variable {manuscript}

theorem OneLine.texts (oneLine : manuscript.OneLine) : ∀ text ∈ manuscript.texts, '\n' ∉ text := by
  have indented : ∀ text : Text, '\n' ∉ text → '\n' ∉ indentedText text := by
    intro text absent
    simp [indentedText, absent]
  refine manuscript.forall_texts (fun text => '\n' ∉ text) ?_ ?_ ?_ ?_ ?_ ?_
  · have name : '\n' ∉ manuscript.name :=
      Text.not_mem_of_plain (Text.plain_of_identifier manuscript.named) rfl
    simp [name]
  · intro part
    cases part <;> decide
  · intro part entry held
    apply indented
    apply Declaration.oneLine_text (manuscript.identified part entry held)
    intro inner same
    exact oneLine part entry.1 inner (by rw [← same]; exact held)
  · decide
  · intro step held
    exact indented step.2 (manuscript.writable step held).oneLine
  · decide

theorem OneLine.sourceLines (oneLine : manuscript.OneLine) :
    sourceLines manuscript.render = numbered 1 manuscript.texts :=
  sourceLines_rendered oneLine.texts manuscript.bare_texts

section RenderedOutline

variable (manuscript)

def sectionLines (first : Nat) (part : Section) : List (Section × Line) :=
  (numbered first (manuscript.declarationTexts part)).map (part, ·)

/-- The variables come after the heading, the constants and their own keyword. -/
def outline : Outline where
  name := manuscript.name
  declarations := manuscript.sectionLines 3 .constants ++
    manuscript.sectionLines (2 + (manuscript.sectionTexts .constants).length + 1) .variables
  body := numbered manuscript.firstStatement manuscript.bodyTexts

theorem map_outdented_numbered (first : Nat) (texts : List Text) :
    (numbered first (texts.map indentedText)).map Line.outdented = numbered first texts := by
  simp [numbered, List.zipIdx_map, Function.comp_def, outdented_indentedText]

theorem declaration_lines (first : Nat) (part : Section) :
    ∀ line ∈ numbered first ((manuscript.declarationTexts part).map indentedText),
      line.IsDeclaration := by
  intro line member
  have held := text_of_mem_numbered member
  simp only [declarationTexts, List.map_map, List.mem_map] at held
  obtain ⟨entry, held, same⟩ := held
  have identifier := manuscript.identified part entry held
  refine ⟨isIndented_of_text same.symm (Declaration.head_text identifier)
    (Declaration.getLast?_text _ _), ?_⟩
  rw [← same]
  exact List.mem_append_right _ (Declaration.colon_mem_text _ _)

theorem statement_lines (first : Nat) :
    ∀ line ∈ numbered first (manuscript.bodyTexts.map indentedText), line.IsIndented := by
  intro line member
  have held := text_of_mem_numbered member
  simp only [bodyTexts, List.map_map, List.mem_map] at held
  obtain ⟨step, held, same⟩ := held
  have writable := manuscript.writable step held
  exact isIndented_of_text same.symm writable.flush writable.ended

theorem section_blocks (first : Nat) (part : Section) :
    ∃ blocks : List Block,
      blocks.flatMap Block.lines = numbered first (manuscript.sectionTexts part) ∧
      blocks.flatMap Block.declarations = manuscript.sectionLines (first + 1) part ∧
      (blocks.map Block.part = [] ∨ blocks.map Block.part = [part]) := by
  by_cases empty : (manuscript.declarationTexts part).isEmpty
  · refine ⟨[], ?_, ?_, .inl rfl⟩
    · rw [sectionTexts, if_pos empty]
      rfl
    · rw [sectionLines, List.isEmpty_iff.1 empty]
      rfl
  · refine ⟨[⟨part, ⟨first, part.keyword⟩,
      numbered (first + 1) ((manuscript.declarationTexts part).map indentedText), rfl,
      manuscript.declaration_lines _ part⟩], ?_, ?_, .inr rfl⟩
    · rw [sectionTexts, if_neg empty, numbered_cons]
      simp [Block.lines]
    · rw [sectionLines, ← map_outdented_numbered (first + 1) (manuscript.declarationTexts part)]
      simp [Block.declarations]

theorem layout_exists :
    ∃ layout : Layout, layout.lines = numbered 1 manuscript.texts ∧
      layout.outline = manuscript.outline := by
  obtain ⟨constants, constantLines, constantDeclarations, constantParts⟩ :=
    manuscript.section_blocks 2 .constants
  obtain ⟨others, otherLines, otherDeclarations, otherParts⟩ :=
    manuscript.section_blocks (2 + (manuscript.sectionTexts .constants).length) .variables
  have distinct : ((constants ++ others).map Block.part).Nodup := by
    rw [List.map_append]
    rcases constantParts with first | first <;> rcases otherParts with second | second <;>
      rw [first, second] <;> decide
  have snug := Text.snug_of_plain (Text.plain_of_identifier manuscript.named)
  have follows : 1 + manuscript.frontTexts.length + 1 = manuscript.firstStatement := by
    unfold firstStatement
    omega
  refine ⟨{
    name := manuscript.name
    heading := ⟨1, "Algorithm ".toList ++ (manuscript.name ++ [';'])⟩
    blocks := constants ++ others
    headed := ⟨manuscript.name, rfl, Text.trim_snug snug, manuscript.named⟩
    distinct := distinct
    begins := ⟨1 + manuscript.frontTexts.length, "Begin".toList⟩
    body := numbered manuscript.firstStatement (manuscript.bodyTexts.map indentedText)
    ending := ⟨manuscript.firstStatement + manuscript.bodyTexts.length, "End".toList⟩
    opens := rfl
    indented := manuscript.statement_lines _
    ends := rfl }, ?_, ?_⟩
  · simp only [texts, numbered_append, numbered_cons, numbered_nil, follows, List.length_map]
    rw [Layout.lines, Front.lines, List.flatMap_append, constantLines, otherLines,
      ← numbered_append]
    rfl
  · rw [Layout.outline, Front.declarations, List.flatMap_append, constantDeclarations,
      otherDeclarations, map_outdented_numbered]
    rfl

variable {manuscript}

theorem OneLine.outlined (oneLine : manuscript.OneLine) :
    Outline.ofLines (Pseudocode.sourceLines manuscript.render) = .ok manuscript.outline := by
  obtain ⟨layout, lines, outline⟩ := manuscript.layout_exists
  rw [oneLine.sourceLines, ← lines, ← outline]
  exact (Outline.ofLines_ok_iff _ _).2 (Scan.run_layout layout)

end RenderedOutline

/-- The end of every string's literal can be seen. -/
def Closed (manuscript : Manuscript) : Prop :=
  ∀ part, ∀ entry ∈ (manuscript.scope.table part).entries, entry.2.Closes

theorem declareAll_section (closed : manuscript.Closed) (first : Nat) (part : Section)
    (scope : Scope)
    (absent : ∀ entry ∈ (manuscript.scope.table part).entries, scope.contains entry.1 = false)
    (rest : List (Section × Line)) :
    ∃ next : Scope,
      scope.declareAll (manuscript.sectionLines first part ++ rest) = next.declareAll rest ∧
      ∀ other, (next.table other).entries = (scope.table other).entries ++
        if part = other then (manuscript.scope.table part).entries else [] :=
  Scope.declareAll_texts (map_text_numbered _ _) (manuscript.identified part)
    (manuscript.finite part) (closed part) (manuscript.scope.table part).distinct scope absent rest

theorem Closed.declared (closed : manuscript.Closed) :
    Scope.empty.declareAll manuscript.outline.declarations = (manuscript.scope, none) := by
  obtain ⟨middle, ranFirst, constants⟩ := declareAll_section closed 3 .constants Scope.empty
    (fun _ _ => rfl)
    (manuscript.sectionLines (2 + (manuscript.sectionTexts .constants).length + 1) .variables)
  have absent : ∀ entry ∈ (manuscript.scope.table .variables).entries,
      middle.contains entry.1 = false := by
    intro entry held
    rw [Scope.contains_eq_false_iff]
    intro part
    cases part with
    | constants =>
        intro twice
        rw [Symbols.names, constants] at twice
        exact manuscript.apart entry.1 twice (List.mem_map_of_mem held)
    | «variables» =>
        rw [Symbols.names, constants]
        exact List.not_mem_nil
  obtain ⟨last, ranSecond, others⟩ := declareAll_section closed
    (2 + (manuscript.sectionTexts .constants).length + 1) .variables middle absent []
  have whole : last = manuscript.scope := by
    apply Scope.ext_entries
    intro part
    rw [others, constants, Scope.entries_empty, List.nil_append]
    cases part <;> simp
  rw [List.append_nil] at ranSecond
  exact (ranFirst.trans ranSecond).trans (by rw [whole]; rfl)

theorem mem_declarations {part : Section} {entry : Text × Value}
    (held : entry ∈ (manuscript.scope.table part).entries) :
    ∃ source ∈ manuscript.outline.declarations,
      source.2.text = Declaration.text entry.1 entry.2 := by
  have written : Declaration.text entry.1 entry.2 ∈ manuscript.declarationTexts part :=
    List.mem_map_of_mem held
  have stands : ∀ first, ∃ source ∈ manuscript.sectionLines first part,
      source.2.text = Declaration.text entry.1 entry.2 := by
    intro first
    rw [← map_text_numbered first (manuscript.declarationTexts part), List.mem_map] at written
    obtain ⟨line, member, same⟩ := written
    exact ⟨(part, line), List.mem_map_of_mem member, same⟩
  cases part with
  | constants =>
      obtain ⟨source, member, same⟩ := stands 3
      exact ⟨source, List.mem_append_left _ member, same⟩
  | «variables» =>
      obtain ⟨source, member, same⟩ :=
        stands (2 + (manuscript.sectionTexts .constants).length + 1)
      exact ⟨source, List.mem_append_right _ member, same⟩

theorem closed_of_declared {next : Scope}
    (declared : Scope.empty.declareAll manuscript.outline.declarations = (next, none)) :
    manuscript.Closed := by
  intro part entry held
  obtain ⟨source, member, same⟩ := mem_declarations held
  obtain ⟨declaration, parsed⟩ := Scope.parses_of_declareAll declared source member
  rw [same] at parsed
  exact Declaration.closes_of_parse (manuscript.identified part entry held) parsed

end Manuscript

theorem Statement.ofLines_numbered {commands : List Command} {scope : Scope}
    {body : List (Command × Text)}
    (classified : ∀ step ∈ body, Command.classify? commands scope step.2 = some step.1)
    (first : Nat) :
    ofLines commands scope (numbered first (body.map Prod.snd)) =
      .ok ((body.zipIdx first).map fun (step, number) => ⟨number, step.1, step.2⟩) := by
  induction body generalizing first with
  | nil => rfl
  | cons step others ih =>
      obtain ⟨head, later⟩ := List.forall_mem_cons.1 classified
      simp [numbered_cons, ofLines, ofLine, head, ih later, bind, Except.bind]

section Loadable

theorem Outline.line_of_declaration {lines : List Line} {outline : Outline}
    (made : ofLines lines = .ok outline) :
    ∀ declaration ∈ outline.declarations, ∃ line ∈ lines, declaration.2 = line.outdented := by
  obtain ⟨last, ran, finished, rfl⟩ := (ofLines_ok_iff lines outline).1 made
  have read := Scan.run_hasRead .nothing ran
  rw [List.nil_append] at read
  cases read with
  | whole layout =>
      intro declaration member
      obtain ⟨block, held, inside⟩ := List.mem_flatMap.1 member
      obtain ⟨line, declared, rfl⟩ := List.mem_map.1 inside
      have front : line ∈ layout.toFront.lines :=
        List.mem_cons_of_mem _ (List.mem_flatMap.2 ⟨block, held, List.mem_cons_of_mem _ declared⟩)
      exact ⟨line, List.mem_append_left _ front, rfl⟩
  | nothing | body => contradiction
  | front front =>
      change front.place = _ at finished
      have isOpen := front.place_isOpen
      rw [finished] at isOpen
      contradiction

/-- No string of a loaded program has a line feed. -/
theorem Program.oneLine_of_load {source : Text} {program : Program}
    (loaded : load source = .ok program) {part : Section} {name text : Text}
    (held : (name, .string text) ∈ (program.scope.table part).entries) : '\n' ∉ text := by
  obtain ⟨outline, laid, _, declared, _⟩ := loadWith_ok loaded
  rcases Scope.declared_of_entry declared held with old | ⟨entry, member, declaration, parsed, same⟩
  · rw [Scope.entries_empty] at old
    contradiction
  · obtain ⟨line, read, outdented⟩ := Outline.line_of_declaration laid entry member
    intro broken
    have inside := Declaration.mem_of_parse parsed same _ broken
    rw [outdented] at inside
    exact oneLine_sourceLines read (List.mem_of_mem_drop inside)

end Loadable

/-- Loading undoes rendering, except for strings that do not fit on a line. -/
theorem load_render_iff (manuscript : Manuscript) :
    Program.load manuscript.render = .ok manuscript.program ↔
      ∀ part name text, (name, .string text) ∈ (manuscript.scope.table part).entries →
        '\n' ∉ text ∧ text.getLast? ≠ some '\\' := by
  constructor
  · intro loaded
    have oneLine : manuscript.OneLine := fun part name text held =>
      Program.oneLine_of_load loaded held
    obtain ⟨outline, laid, _, declared, _⟩ := Program.loadWith_ok loaded
    -- The outline is known only now: a broken line could have had any other.
    rw [oneLine.outlined] at laid
    cases laid
    have closed := Manuscript.closed_of_declared declared
    intro part name text held
    exact ⟨oneLine part name text held, closed part _ held⟩
  · intro fits
    have oneLine : manuscript.OneLine := fun part name text held => (fits part name text held).1
    have closed : manuscript.Closed := by
      rintro part ⟨name, value⟩ held
      cases value with
      | string text => exact (fits part name text held).2
      | number | unset => trivial
    have bound : Statement.ofLines Command.standard manuscript.scope manuscript.outline.body =
        .ok manuscript.statements :=
      Statement.ofLines_numbered (fun step held => (manuscript.writable step held).classified)
        manuscript.firstStatement
    exact Program.loadWith_of_stages oneLine.outlined closed.declared bound

/-- A string that holds all that could be mistaken for something else. -/
def noteText : Text := "a \\\"b\" // c: = d;".toList

def noteScope : Scope where
  constants :=
    ⟨[("LOW".toList, .integer ⟨-9223372036854775808, by decide⟩),
      ("TENTH".toList, .real (.ofBits 0x3fb999999999999a))], by decide⟩
  «variables» := ⟨[("s".toList, .string noteText), ("x".toList, .unset .real)], by decide⟩

def note : Manuscript where
  name := "Note".toList
  scope := noteScope
  body := [(.write, "Write(s, \"//\");".toList), (.assign, "x = LOW / 2;".toList)]
  named := by decide
  identified := by
    intro part
    cases part <;> decide
  finite := by
    have tenth : (Binary64.ofBits 0x3fb999999999999a).isFinite = true := by decide +kernel
    intro part
    cases part <;> simp [Scope.table, noteScope, Value.IsFinite, Value.integer, Value.real, tenth]
  apart := by decide
  writable := by
    intro step held
    simp only [List.mem_cons, List.not_mem_nil, or_false] at held
    rcases held with rfl | rfl
    · exact ⟨by decide, by decide, by decide, by decide, by decide⟩
    · exact ⟨by decide, by decide, by decide, by decide, by decide⟩

theorem note_loaded : Program.load note.render = .ok note.program := by
  apply (load_render_iff note).2
  intro part name text held
  cases part with
  | constants => simp [Scope.table, note, noteScope, Value.integer, Value.real] at held
  | «variables» =>
      simp only [Scope.table, note, noteScope, List.mem_cons, Prod.mk.injEq, Value.string.injEq,
        reduceCtorEq, and_false, List.not_mem_nil, or_false] at held
      rw [held.2]
      decide

end Pseudocode
