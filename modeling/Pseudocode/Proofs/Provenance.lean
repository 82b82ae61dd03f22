import Mathlib.Data.List.Forall2
import Pseudocode.Proofs.Resolution
import Pseudocode.Proofs.SourceLines
import Pseudocode.Proofs.Viability

/-!
Which line each part of a program comes from. A line of a source belongs to the last keyword before
it. The lines under `Begin` become the statements, and those under `Constants` and `Variables` the
entries of the two tables: one for one, in their order, and nothing else gets in. So no line is
lost, merged or filed elsewhere, wherever the sections stand and however often a line is repeated.
-/

namespace Pseudocode

/-- One of the lines that open or close a part of a program. -/
def Line.isKeyword (line : Line) : Bool :=
  line.text = Section.constants.keyword || line.text = Section.variables.keyword ||
    line.text = LineRole.beginKeyword || Text.sameLetters line.text LineRole.endKeyword

/-- Collects the lines that have `keyword` as the last keyword before them. The flag says whether
it is the last one before the first line. -/
def collectUnder (keyword : Text) : (inside : Bool) → List Line → List Line
  | _, [] => []
  | inside, line :: rest =>
      if line.isKeyword then collectUnder keyword (line.text = keyword) rest
      else if inside then line :: collectUnder keyword true rest
      else collectUnder keyword false rest

def linesUnder (keyword : Text) (lines : List Line) : List Line :=
  collectUnder keyword false lines

section Collecting

variable {keyword : Text} {line : Line} (inside : Bool)

theorem collectUnder_keyword (marked : line.isKeyword = true) (rest : List Line) :
    collectUnder keyword inside (line :: rest) =
      collectUnder keyword (line.text = keyword) rest := by
  rw [collectUnder, if_pos marked]

theorem collectUnder_plain {below : List Line} (plain : ∀ line ∈ below, line.isKeyword = false)
    (rest : List Line) :
    collectUnder keyword inside (below ++ rest) =
      (if inside then below else []) ++ collectUnder keyword inside rest := by
  induction below with
  | nil => simp
  | cons line others ih =>
      obtain ⟨first, later⟩ := List.forall_mem_cons.1 plain
      rw [List.cons_append, collectUnder, first]
      cases inside with
      | false => simpa using ih later
      | true => simpa using ih later

end Collecting

namespace Line

theorem isKeyword_of_indentation {line : Line} (four : line.indentation = 4) :
    line.isKeyword = false := by
  rw [isKeyword, text_of_indentation four]
  rfl

theorem IsHeading.not_keyword {line : Line} {name : Text} (form : line.IsHeading name) :
    line.isKeyword = false := by
  obtain ⟨middle, shape, _⟩ := form
  rw [isKeyword, shape]
  rfl

theorem IsBegin.isKeyword {line : Line} (form : line.IsBegin) : line.isKeyword = true := by
  rw [Line.isKeyword, form]
  rfl

theorem IsEnd.isKeyword {line : Line} (form : line.IsEnd) : line.isKeyword = true := by
  have same : Text.sameLetters line.text LineRole.endKeyword = true := form
  simp [Line.isKeyword, same]

end Line

namespace Block

theorem opening_isKeyword (block : Block) : block.opening.isKeyword = true := by
  rw [Line.isKeyword, block.opens]
  cases block.part <;> rfl

theorem declared_not_keyword (block : Block) :
    ∀ line ∈ block.declared, line.isKeyword = false :=
  fun line member => Line.isKeyword_of_indentation (block.declares line member).1.1

/-- What a block has under a keyword. -/
def under (keyword : Text) (block : Block) : List Line :=
  if block.part.keyword = keyword then block.declared else []

/-- A keyword follows, so it does not matter which block is the last. -/
theorem collectUnder_blocks {keyword : Text} (inside : Bool) (blocks : List Block) {next : Line}
    (marked : next.isKeyword = true) (rest : List Line) :
    collectUnder keyword inside (blocks.flatMap Block.lines ++ next :: rest) =
      blocks.flatMap (under keyword) ++ collectUnder keyword (next.text = keyword) rest := by
  induction blocks generalizing inside with
  | nil => exact collectUnder_keyword inside marked rest
  | cons block others ih =>
      rw [List.flatMap_cons, List.flatMap_cons, lines, List.cons_append, List.cons_append,
        collectUnder_keyword inside block.opening_isKeyword, List.append_assoc,
        collectUnder_plain _ block.declared_not_keyword, ih, block.opens, under,
        List.append_assoc]
      simp only [decide_eq_true_eq]

end Block

namespace Layout

variable (layout : Layout)

theorem linesUnder_eq (keyword : Text) :
    linesUnder keyword layout.lines = layout.blocks.flatMap (Block.under keyword) ++
      if LineRole.beginKeyword = keyword then layout.body else [] := by
  have begins : layout.begins.text = LineRole.beginKeyword := layout.opens
  have plain : ∀ line ∈ layout.body, line.isKeyword = false :=
    fun line member => Line.isKeyword_of_indentation (layout.indented line member).1
  have skipped (rest : List Line) :
      collectUnder keyword false (layout.heading :: rest) = collectUnder keyword false rest := by
    rw [collectUnder, layout.headed.not_keyword]
    rfl
  rw [linesUnder, lines, Front.lines, List.cons_append, skipped,
    Block.collectUnder_blocks false layout.blocks layout.opens.isKeyword, begins,
    collectUnder_plain _ plain, collectUnder_keyword _ layout.ends.isKeyword, collectUnder]
  simp only [decide_eq_true_eq, List.append_nil]

theorem linesUnder_begin : linesUnder LineRole.beginKeyword layout.lines = layout.body := by
  have none : layout.blocks.flatMap (Block.under LineRole.beginKeyword) = [] := by
    rw [List.flatMap_eq_nil_iff]
    intro block _
    rw [Block.under]
    cases block.part <;> rfl
  rw [linesUnder_eq, none, if_pos rfl, List.nil_append]

end Layout

/-- The lines of one section, out of the declarations of both. -/
def declaredLines (part : Section) (declarations : List (Section × Line)) : List Line :=
  (declarations.filter fun entry => entry.1 = part).map Prod.snd

theorem declaredLines_cons (part : Section) (first : Section × Line)
    (rest : List (Section × Line)) :
    declaredLines part (first :: rest) =
      (if first.1 = part then [first.2] else []) ++ declaredLines part rest := by
  by_cases same : first.1 = part <;> simp [declaredLines, same]

theorem Block.declaredLines_eq (block : Block) (part : Section) :
    declaredLines part block.declarations = (block.under part.keyword).map Line.outdented := by
  have keywords : block.part.keyword = part.keyword ↔ block.part = part := by
    cases block.part <;> cases part <;> decide
  simp only [declaredLines, declarations, List.filter_map, Function.comp_def, under, keywords]
  by_cases same : block.part = part <;> simp [same]

theorem Layout.declaredLines_eq (layout : Layout) (part : Section) :
    declaredLines part layout.declarations =
      (linesUnder part.keyword layout.lines).map Line.outdented := by
  have other : LineRole.beginKeyword ≠ part.keyword := by cases part <;> decide
  rw [linesUnder_eq, if_neg other, List.append_nil, Front.declarations, declaredLines,
    List.filter_flatMap, List.map_flatMap, List.map_flatMap]
  simp only [← Block.declaredLines_eq, declaredLines]

theorem Layout.indented_under (layout : Layout) (part : Section) :
    ∀ line ∈ linesUnder part.keyword layout.lines, line.IsIndented := by
  have other : LineRole.beginKeyword ≠ part.keyword := by cases part <;> decide
  intro line member
  rw [linesUnder_eq, if_neg other, List.append_nil] at member
  obtain ⟨block, _, held⟩ := List.mem_flatMap.1 member
  unfold Block.under at held
  split at held
  · exact (block.declares line held).1
  · contradiction

/-- The statement is what the line says behind its indentation. -/
def Statement.StandsOn (statement : Statement) (line : Line) : Prop :=
  statement.line = line.number ∧ line.text = "    ".toList ++ statement.text

/-- Behind its indentation the line is a declaration of the name with the value, and the type of
the value is the one that is spelled out behind the first open colon. -/
def Line.Declares (line : Line) (entry : Text × Value) : Prop :=
  ∃ text declaration declared typePart, line.text = "    ".toList ++ text ∧
    Declaration.parse text = .ok declaration ∧ entry = (declaration.name, declaration.value) ∧
    Text.cutOpen? ':' text = some (declared, typePart) ∧
    Declaration.kindName typePart = entry.2.kind.name

theorem Statement.ofLines_standsOn {commands : List Command} {scope : Scope} {lines : List Line}
    {statements : List Statement} (indented : ∀ line ∈ lines, line.IsIndented)
    (bound : ofLines commands scope (lines.map Line.outdented) = .ok statements) :
    List.Forall₂ (fun line statement => statement.StandsOn line) lines statements := by
  induction lines generalizing statements with
  | nil =>
      cases bound
      exact .nil
  | cons line rest ih =>
      obtain ⟨form, later⟩ := List.forall_mem_cons.1 indented
      obtain ⟨first, made, following⟩ := bind_eq_ok.1 bound
      obtain ⟨others, rest, assembled⟩ := bind_eq_ok.1 following
      cases assembled
      unfold ofLine at made
      split at made
      · cases made
        exact .cons ⟨rfl, Line.text_of_indentation form.1⟩ (ih later rest)
      · contradiction

theorem Statement.lines_of_standsOn {lines : List Line} {statements : List Statement}
    (stands : List.Forall₂ (fun line statement => statement.StandsOn line) lines statements) :
    statements.map Statement.line = lines.map Line.number := by
  induction stands with
  | nil => rfl
  | cons first _ ih => rw [List.map_cons, List.map_cons, first.1, ih]

theorem Kind.name_of_ofName? {name : Text} {kind : Kind} (found : ofName? name = some kind) :
    kind.name = name := by
  unfold ofName? at found
  simpa using List.find?_some found

theorem Line.declares_of_parse {line : Line} {declaration : Declaration} (form : line.IsIndented)
    (parsed : Declaration.parse line.outdented.text = .ok declaration) :
    line.Declares (declaration.name, declaration.value) := by
  obtain ⟨declared, typePart, _, cut, _, _, named, _⟩ := Declaration.parse_ok parsed
  refine ⟨_, declaration, declared, typePart, text_of_indentation form.1, parsed, rfl, cut, ?_⟩
  rw [Declaration.parse_value_kind parsed]
  exact (Kind.name_of_ofName? named).symm

/-- A table grows by what the lines of its section declare, and by nothing else. -/
theorem Scope.declareAll_entries {scope next : Scope} {declarations : List (Section × Line)}
    (declared : scope.declareAll declarations = (next, none)) (part : Section) :
    ∃ added, (next.table part).entries = (scope.table part).entries ++ added ∧
      List.Forall₂ (fun line entry => ∃ declaration,
          Declaration.parse line.text = .ok declaration ∧
            entry = (declaration.name, declaration.value))
        (declaredLines part declarations) added := by
  induction declarations generalizing scope with
  | nil =>
      cases declared
      exact ⟨[], by simp, .nil⟩
  | cons first rest ih =>
      obtain ⟨declaration, parsed, absent, later⟩ := declareAll_cons_ok declared
      obtain ⟨added, entries, matched⟩ := ih later
      rw [add_entries absent, List.append_assoc] at entries
      refine ⟨_, entries, ?_⟩
      rw [declaredLines_cons]
      by_cases same : first.1 = part
      · rw [if_pos same, if_pos same]
        exact .cons ⟨declaration, parsed, rfl⟩ matched
      · rw [if_neg same, if_neg same]
        exact matched

theorem Layout.body_sublist (layout : Layout) : layout.body.Sublist layout.lines :=
  ((List.sublist_append_left _ _).cons _).trans (List.sublist_append_right _ _)

namespace Program

variable {commands : List Command} {source : Text} {program : Program}

/-- A loaded program is its source, line for line. The lines between `Begin` and `End` are its
statements, with increasing line numbers; the lines of the two sections are the entries of the two
tables, each with the declared type; and all names are different identifiers. -/
theorem load_line_for_line (loaded : loadWith commands source = .ok program) :
    (∃ front begins ending, sourceLines source =
        front ++ begins :: (linesUnder LineRole.beginKeyword (sourceLines source) ++ [ending]) ∧
      begins.IsBegin ∧ ending.IsEnd ∧ ∀ line ∈ front, ¬ line.IsBegin) ∧
    List.Forall₂ (fun line statement => statement.StandsOn line)
      (linesUnder LineRole.beginKeyword (sourceLines source)) program.statements ∧
    (program.statements.map Statement.line).Pairwise (· < ·) ∧
    (∀ part, List.Forall₂ Line.Declares (linesUnder part.keyword (sourceLines source))
      (program.scope.table part).entries) ∧
    (∀ part, ∀ name ∈ (program.scope.table part).names, Text.isIdentifier name = true) ∧
    (program.scope.constants.names ++ program.scope.variables.names).Nodup := by
  obtain ⟨outline, laid, _, declared, bound⟩ := loadWith_ok loaded
  obtain ⟨layout, lines, rfl⟩ := Outline.layout_of_ok laid
  have increasing := numbers_sourceLines source
  rw [← lines] at increasing ⊢
  have stands := Statement.ofLines_standsOn layout.indented bound
  have named := Scope.declareAll_wellNamed Scope.wellNamed_empty declared
  rw [layout.linesUnder_begin]
  refine ⟨⟨layout.toFront.lines, layout.begins, layout.ending, rfl, layout.opens, layout.ends,
    layout.toFront.no_begin⟩, stands, ?_, ?_, named.identifiers, ?_⟩
  · rw [Statement.lines_of_standsOn stands]
    exact increasing.sublist (layout.body_sublist.map _)
  · intro part
    obtain ⟨added, entries, matched⟩ := Scope.declareAll_entries declared part
    rw [Scope.entries_empty, List.nil_append] at entries
    change List.Forall₂ _ (declaredLines part layout.declarations) _ at matched
    rw [layout.declaredLines_eq, List.forall₂_map_left_iff] at matched
    have both := (List.forall₂_and_left _ _).2 ⟨layout.indented_under part, matched⟩
    rw [entries]
    refine both.imp ?_
    rintro line entry ⟨form, declaration, parsed, rfl⟩
    exact Line.declares_of_parse form parsed
  · refine List.nodup_append.2 ⟨program.scope.constants.distinct,
      program.scope.variables.distinct, ?_⟩
    intro name constant other held same
    exact named.disjoint name constant (same ▸ held)

def twiceShown : Text :=
  ["Algorithm Twice;", "", "Variables", "    n = 1 : Integer; // shown", "Constants",
    "    mark = \"//\" : String;", "Begin", "    Write(n, mark);", "    // and again",
    "    Write(n, mark);", "end"].flatMap fun line => line.toList ++ ['\n']

-- The variables come first, and one statement stands there twice.
theorem twiceShown_line_for_line :
    ∃ program, load twiceShown = .ok program ∧
      List.Forall₂ (fun line statement => statement.StandsOn line)
        [⟨8, "    Write(n, mark);".toList⟩, ⟨10, "    Write(n, mark);".toList⟩]
        program.statements ∧
      List.Forall₂ Line.Declares [⟨6, "    mark = \"//\" : String;".toList⟩]
        program.scope.constants.entries ∧
      List.Forall₂ Line.Declares [⟨4, "    n = 1 : Integer;".toList⟩]
        program.scope.variables.entries := by
  have evaluated : (load twiceShown).isOk = true ∧
      linesUnder LineRole.beginKeyword (sourceLines twiceShown) =
        [⟨8, "    Write(n, mark);".toList⟩, ⟨10, "    Write(n, mark);".toList⟩] ∧
      linesUnder Section.constants.keyword (sourceLines twiceShown) =
        [⟨6, "    mark = \"//\" : String;".toList⟩] ∧
      linesUnder Section.variables.keyword (sourceLines twiceShown) =
        [⟨4, "    n = 1 : Integer;".toList⟩] := by decide +kernel
  obtain ⟨loads, body, constants, others⟩ := evaluated
  cases loaded : load twiceShown with
  | error rejection => simp [loaded, Except.isOk, Except.toBool] at loads
  | ok program =>
      obtain ⟨_, stands, _, declares, _⟩ := load_line_for_line loaded
      exact ⟨program, rfl, body ▸ stands, constants ▸ declares .constants,
        others ▸ declares .variables⟩

end Program

end Pseudocode
