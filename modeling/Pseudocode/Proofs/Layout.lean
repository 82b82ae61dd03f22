import Pseudocode.Outline

/-!
The layout of a program as a shape of its lines, and the one pass over them that finds it.

A layout is a heading, at most two blocks of declarations with different keywords, `Begin`,
the indented lines of the body, and `End`. The pass looks at each line once, in a place that
depends on the lines before it. `Scan.Move` says in full what a line can do there. A pass that
has not failed has read the front of a layout, and from that both directions follow: what
comes through is laid out, and what is laid out comes through.
-/

namespace Pseudocode

namespace Line

def IsHeading (line : Line) (name : Text) : Prop :=
  ∃ middle, line.text = "Algorithm ".toList ++ (middle ++ [';']) ∧
    Text.trim middle = name ∧ Text.isIdentifier name = true

def IsIndented (line : Line) : Prop :=
  line.indentation = 4 ∧ line.text.getLast? = some ';'

def IsDeclaration (line : Line) : Prop := line.IsIndented ∧ ':' ∈ line.text

def IsBegin (line : Line) : Prop := line.text = "Begin".toList

/-- In any mixture of small and capital letters. -/
def IsEnd (line : Line) : Prop := Text.sameLetters line.text "End".toList = true

def outdented (line : Line) : Line := { line with text := line.text.drop 4 }

theorem text_of_indentation {line : Line} (four : line.indentation = 4) :
    line.text = [' ', ' ', ' ', ' '] ++ line.text.drop 4 := by
  have split := List.takeWhile_append_dropWhile (p := (· = ' ')) (l := line.text)
  have spaces : line.text.takeWhile (· = ' ') = List.replicate 4 ' ' := by
    rw [List.eq_replicate_iff]
    refine ⟨four, ?_⟩
    intro c member
    simpa using List.all_eq_true.1 List.all_takeWhile c member
  rw [spaces] at split
  rw [← split]
  rfl

theorem getLast?_of_indentation {line : Line} (four : line.indentation = 4) :
    (line.text.drop 4).getLast? = some ';' ↔ line.text.getLast? = some ';' := by
  rw [text_of_indentation four]
  cases line.text.drop 4 with
  | nil => simp
  | cons c rest => simp

theorem colon_of_indentation {line : Line} (four : line.indentation = 4) :
    ':' ∈ line.text.drop 4 ↔ ':' ∈ line.text := by
  rw [text_of_indentation four]
  simp

end Line

namespace LineRole

theorem ofText_heading_iff {text : Text} :
    ofText text = .heading ↔ ∃ rest, text = "Algorithm ".toList ++ rest := by
  have starts : Text.startsWith text (headingKeyword ++ [' ']) = true ↔
      ∃ rest, text = "Algorithm ".toList ++ rest := by
    simp only [Text.startsWith, Option.isSome_iff_exists, Text.after?_eq_some]
    rfl
  rw [← starts]
  grind [ofText]

theorem ofText_opening_iff {text : Text} {part : Section} :
    ofText text = .opening part ↔ text = part.keyword := by
  constructor
  · grind [ofText]
  · rintro rfl
    cases part <;> rfl

theorem ofText_begins_iff {text : Text} : ofText text = .begins ↔ text = "Begin".toList := by
  constructor
  · grind [ofText, beginKeyword]
  · rintro rfl
    rfl

/-- No other keyword has the three letters of `End`, so it does not matter that the others
are looked for first. -/
theorem ofText_ends_iff {text : Text} :
    ofText text = .ends ↔ Text.sameLetters text "End".toList = true := by
  constructor
  · grind [ofText, endKeyword]
  · intro same
    have size : text.length = 3 := by
      simpa using congrArg List.length (of_decide_eq_true same)
    cases role : ofText text with
    | heading =>
        obtain ⟨rest, rfl⟩ := ofText_heading_iff.1 role
        simp at size
    | opening part =>
        rw [ofText_opening_iff.1 role] at size
        cases part <;> contradiction
    | begins =>
        rw [ofText_begins_iff.1 role] at size
        contradiction
    | ends => rfl
    | other => grind [ofText, endKeyword]

theorem ofText_of_indentation {line : Line} (four : line.indentation = 4) :
    ofText line.text = .other := by
  rw [Line.text_of_indentation four]
  rfl

end LineRole

namespace Text

theorem digit_of_letter {c : Char} (letter : isLetter c = true) : c.isDigit = false := by
  simp only [isLetter, Bool.or_eq_true, decide_eq_true_eq] at letter
  rcases letter with alpha | rfl
  · have ranges : c.isAlpha = (decide ('A'.val ≤ c.val ∧ c.val ≤ 'Z'.val) ||
        (decide ('a'.val ≤ c.val) && decide (c.val ≤ 'z'.val))) := rfl
    rw [Bool.eq_false_iff]
    intro digit
    rw [Char.isDigit_iff_toNat] at digit
    simp [ranges, UInt32.le_iff_toNat_le] at alpha digit
    omega
  · rfl

theorem isLetter_iff (c : Char) :
    isLetter c = true ↔ isNameChar c = true ∧ c.isDigit = false := by
  constructor
  · intro letter
    refine ⟨?_, digit_of_letter letter⟩
    grind [isLetter, isNameChar, Char.isAlphanum]
  · grind [isLetter, isNameChar, Char.isAlphanum]

theorem isIdentifier_iff (name : Text) :
    isIdentifier name = true ↔ name.isEmpty = false ∧ name.all isNameChar = true ∧
      name.head?.any Char.isDigit = false := by
  cases name with
  | nil => simp [isIdentifier]
  | cons first rest => simp [isIdentifier, isLetter_iff, and_right_comm]

end Text

namespace Scan

theorem headingName_closed (middle name : Text) :
    headingName ("Algorithm ".toList ++ (middle ++ [';'])) = .ok name ↔
      Text.trim middle = name ∧ Text.isIdentifier name = true := by
  have cut : Text.before? ';' ("Algorithm ".toList ++ (middle ++ [';'])) =
      some ("Algorithm ".toList ++ middle) := Text.before?_eq_some.2 (by simp)
  have dropped : ("Algorithm ".toList ++ middle).drop (LineRole.headingKeyword.length + 1) =
      middle := rfl
  simp only [headingName, cut, dropped]
  grind [Text.isIdentifier_iff]

theorem headingName_ok_iff (line : Line) (name : Text)
    (role : LineRole.ofText line.text = .heading) :
    headingName line.text = .ok name ↔ line.IsHeading name := by
  obtain ⟨rest, starts⟩ := LineRole.ofText_heading_iff.1 role
  constructor
  · intro made
    cases cut : Text.before? ';' line.text with
    | none => simp only [headingName, cut, reduceCtorEq] at made
    | some front =>
        have whole := Text.before?_eq_some.1 cut
        rcases rest.eq_nil_or_concat with rfl | ⟨middle, last, rfl⟩
        · rw [starts] at whole
          have ends := congrArg List.getLast? whole
          simp at ends
        · rw [List.concat_eq_append] at starts
          have ends : last = ';' := by
            have same := congrArg List.getLast? (starts.symm.trans whole)
            simpa only [← List.append_assoc, List.getLast?_concat, Option.some.injEq] using same
          subst last
          rw [starts, headingName_closed] at made
          exact ⟨middle, starts, made⟩
  · rintro ⟨middle, shape, made⟩
    rw [shape, headingName_closed]
    exact made

theorem indented_ok_iff (line result : Line) :
    indented line = .ok result ↔ line.IsIndented ∧ result = line.outdented := by
  by_cases four : line.indentation = 4
  · have last := Line.getLast?_of_indentation four
    grind [indented, indent, Line.IsIndented, Line.outdented]
  · grind [indented, indent, Line.IsIndented]

end Scan

/-- After the heading and before `Begin`. -/
def Place.isOpen : Place → Bool
  | .header | .declaring _ => true
  | _ => false

namespace Scan

/-- All that a line can do to a pass; any other line ends it with an error. -/
inductive Move (scan : Scan) (line : Line) : Scan → Prop where
  | heading (name : Text) (place : scan.place = .start) (form : line.IsHeading name) :
      Move scan line
        { scan with place := .header, outline := { scan.outline with name := name } }
  | opening (part : Section) (place : scan.place.isOpen = true)
      (form : line.text = part.keyword) (fresh : part ∉ scan.opened) :
      Move scan line { scan with place := .declaring part, opened := part :: scan.opened }
  | declaration (part : Section) (place : scan.place = .declaring part)
      (form : line.IsDeclaration) :
      Move scan line (scan.addDeclaration part line.outdented)
  | begins (place : scan.place.isOpen = true) (form : line.IsBegin) :
      Move scan line { scan with place := .body line.number }
  | statement (beginLine : Nat) (place : scan.place = .body beginLine)
      (form : line.IsIndented) :
      Move scan line (scan.addStatement line.outdented)
  | ends (beginLine : Nat) (place : scan.place = .body beginLine) (form : line.IsEnd) :
      Move scan line { scan with place := .finished }

theorem step_of_move {scan next : Scan} {line : Line} (moved : Move scan line next) :
    scan.step line = .ok next := by
  cases moved with
  | heading name place form =>
      obtain ⟨middle, shape, _⟩ := id form
      have role := LineRole.ofText_heading_iff.2 ⟨_, shape⟩
      simp only [step, place, role, (headingName_ok_iff line name role).2 form]
      rfl
  | opening part place form fresh =>
      have role := LineRole.ofText_opening_iff.2 form
      cases at_ : scan.place <;> simp_all [step, Place.isOpen, Place.isPastBegin]
  | declaration part place form =>
      have role := LineRole.ofText_of_indentation form.1.1
      have colon := (Line.colon_of_indentation form.1.1).2 form.2
      simp [step, place, role, (indented_ok_iff line _).2 ⟨form.1, rfl⟩, bind, Except.bind,
        Line.outdented, colon]
  | begins place form =>
      have role := LineRole.ofText_begins_iff.2 form
      cases at_ : scan.place <;> simp_all [step, Place.isOpen, Place.isPastBegin]
  | statement beginLine place form =>
      have role := LineRole.ofText_of_indentation form.1
      simp [step, place, role, (indented_ok_iff line _).2 ⟨form, rfl⟩, Except.map]
  | ends beginLine place form =>
      have role := LineRole.ofText_ends_iff.2 form
      simp [step, place, role]

section Inversion

variable {scan next : Scan} {line : Line} (stepped : scan.step line = .ok next)
include stepped

theorem move_of_heading (role : LineRole.ofText line.text = .heading) : Move scan line next := by
  cases place : scan.place with
  | start =>
      simp only [step, place, role] at stepped
      cases made : headingName line.text with
      | error cause => simp [made, Except.map] at stepped
      | ok name =>
          simp only [made, Except.map, Except.ok.injEq] at stepped
          subst next
          exact .heading name place ((headingName_ok_iff line name role).1 made)
  | header | declaring _ | body _ | finished => simp [step, place, role] at stepped

theorem move_of_opening {part : Section} (role : LineRole.ofText line.text = .opening part) :
    Move scan line next := by
  have form := LineRole.ofText_opening_iff.1 role
  cases place : scan.place with
  | header | declaring _ =>
      by_cases opened : part ∈ scan.opened
      · simp [step, place, role, opened] at stepped
      · simp only [step, place, role, opened, ↓reduceIte] at stepped
        cases stepped
        exact .opening part (by simp [place, Place.isOpen]) form opened
  | start | body _ | finished =>
      simp only [step, place, role] at stepped
      grind [Place.isPastBegin]

theorem move_of_begins (role : LineRole.ofText line.text = .begins) : Move scan line next := by
  have form := LineRole.ofText_begins_iff.1 role
  cases place : scan.place with
  | header | declaring _ =>
      simp only [step, place, role] at stepped
      cases stepped
      exact .begins (by simp [place, Place.isOpen]) form
  | start | body _ | finished =>
      simp only [step, place, role] at stepped
      contradiction

theorem move_of_ends (role : LineRole.ofText line.text = .ends) : Move scan line next := by
  have form := LineRole.ofText_ends_iff.1 role
  cases place : scan.place with
  | body beginLine =>
      simp only [step, place, role] at stepped
      cases stepped
      exact .ends beginLine place form
  | start | header | declaring _ | finished => simp [step, place, role] at stepped

theorem move_of_other (role : LineRole.ofText line.text = .other) : Move scan line next := by
  cases made : indented line with
  | error cause =>
      cases place : scan.place <;>
        simp [step, place, role, made, bind, Except.bind, Except.map] at stepped
  | ok result =>
      obtain ⟨form, rfl⟩ := (indented_ok_iff line result).1 made
      cases place : scan.place with
      | declaring part =>
          simp only [step, place, role, made, bind, Except.bind] at stepped
          by_cases colon : ':' ∈ line.outdented.text
          · rw [if_pos (List.contains_iff_mem.2 colon)] at stepped
            cases stepped
            exact .declaration part place ⟨form, (Line.colon_of_indentation form.1).1 colon⟩
          · simp [colon] at stepped
      | body beginLine =>
          simp only [step, place, role, made, Except.map, Except.ok.injEq] at stepped
          subst next
          exact .statement beginLine place form
      | start | header | finished => simp [step, place, role] at stepped

end Inversion

theorem step_ok_iff (scan next : Scan) (line : Line) :
    scan.step line = .ok next ↔ Move scan line next := by
  refine ⟨fun stepped => ?_, step_of_move⟩
  cases role : LineRole.ofText line.text with
  | heading => exact move_of_heading stepped role
  | opening part => exact move_of_opening stepped role
  | begins => exact move_of_begins stepped role
  | ends => exact move_of_ends stepped role
  | other => exact move_of_other stepped role

end Scan

/-- A keyword that opens declarations, and the lines under it. -/
structure Block where
  part : Section
  opening : Line
  declared : List Line
  opens : opening.text = part.keyword
  declares : ∀ line ∈ declared, line.IsDeclaration

namespace Block

def lines (block : Block) : List Line := block.opening :: block.declared

def declarations (block : Block) : List (Section × Line) :=
  block.declared.map fun line => (block.part, line.outdented)

end Block

/-- All that stands before `Begin`. -/
structure Front where
  name : Text
  heading : Line
  blocks : List Block
  headed : heading.IsHeading name
  distinct : (blocks.map Block.part).Nodup

namespace Front

def lines (front : Front) : List Line := front.heading :: front.blocks.flatMap Block.lines

def declarations (front : Front) : List (Section × Line) :=
  front.blocks.flatMap Block.declarations

end Front

structure Layout extends Front where
  begins : Line
  body : List Line
  ending : Line
  opens : begins.IsBegin
  indented : ∀ line ∈ body, line.IsIndented
  ends : ending.IsEnd

namespace Layout

def lines (layout : Layout) : List Line :=
  layout.toFront.lines ++ layout.begins :: (layout.body ++ [layout.ending])

def outline (layout : Layout) : Outline :=
  ⟨layout.name, layout.declarations, layout.body.map Line.outdented⟩

end Layout

namespace Front

def opened (front : Front) : List Section := (front.blocks.map Block.part).reverse

def place (front : Front) : Place :=
  match front.blocks.getLast? with
  | none => .header
  | some block => .declaring block.part

theorem place_isOpen (front : Front) : front.place.isOpen = true := by
  unfold place
  split <;> rfl

theorem last_block {front : Front} {part : Section} (place : front.place = .declaring part) :
    ∃ earlier block, front.blocks = earlier ++ [block] ∧ block.part = part := by
  unfold Front.place at place
  cases last : front.blocks.getLast? with
  | none => simp [last] at place
  | some block =>
      rw [last] at place
      obtain ⟨earlier, shape⟩ := List.getLast?_eq_some_iff.1 last
      exact ⟨earlier, block, shape, Place.declaring.inj place⟩

end Front

namespace Scan

/-- What a pass that has not failed has read, and what it knows of it. -/
inductive HasRead : Scan → List Line → Prop where
  | nothing : HasRead .start []
  | front (front : Front) :
      HasRead ⟨front.place, front.opened, ⟨front.name, front.declarations, []⟩⟩ front.lines
  | body (front : Front) (begins : Line) (body : List Line) (opens : begins.IsBegin)
      (indented : ∀ line ∈ body, line.IsIndented) :
      HasRead ⟨.body begins.number, front.opened,
        ⟨front.name, front.declarations, body.map Line.outdented⟩⟩
        (front.lines ++ begins :: body)
  | whole (layout : Layout) :
      HasRead ⟨.finished, layout.opened, layout.outline⟩ layout.lines

theorem hasRead_opening (front : Front) (part : Section) (line : Line)
    (form : line.text = part.keyword) (fresh : part ∉ front.opened) :
    HasRead ⟨.declaring part, part :: front.opened, ⟨front.name, front.declarations, []⟩⟩
      (front.lines ++ [line]) := by
  have distinct : ((front.blocks ++
      [Block.mk part line [] form (by simp)]).map Block.part).Nodup := by
    simp only [Front.opened, List.mem_reverse] at fresh
    rw [List.map_append, List.nodup_append]
    refine ⟨front.distinct, by simp, ?_⟩
    intro old member new added same
    simp only [List.map_cons, List.map_nil, List.mem_singleton] at added
    exact fresh (added ▸ same ▸ member)
  have read := HasRead.front { front with blocks := _, distinct := distinct }
  simpa [Front.place, Front.opened, Front.lines, Front.declarations, Block.lines,
    Block.declarations] using read

theorem hasRead_declaration (front : Front) (part : Section) (line : Line)
    (place : front.place = .declaring part) (form : line.IsDeclaration) :
    HasRead ⟨front.place, front.opened,
      ⟨front.name, front.declarations ++ [(part, line.outdented)], []⟩⟩
      (front.lines ++ [line]) := by
  obtain ⟨earlier, block, shape, rfl⟩ := Front.last_block place
  have declares : ∀ other ∈ block.declared ++ [line], other.IsDeclaration :=
    List.forall_mem_append.2 ⟨block.declares, List.forall_mem_singleton.2 form⟩
  have distinct : ((earlier ++ [{ block with
      declared := block.declared ++ [line], declares := declares }]).map Block.part).Nodup := by
    have old := front.distinct
    rw [shape] at old
    simpa using old
  have read := HasRead.front { front with blocks := _, distinct := distinct }
  simpa [Front.place, Front.opened, Front.lines, Front.declarations, Block.lines,
    Block.declarations, shape] using read

theorem move_hasRead {scan next : Scan} {lines : List Line} {line : Line}
    (read : HasRead scan lines) (moved : Move scan line next) :
    HasRead next (lines ++ [line]) := by
  cases read with
  | nothing =>
      cases moved with
      | heading name place form => exact .front ⟨name, line, [], form, List.nodup_nil⟩
      | opening | declaration | begins | statement | ends => contradiction
  | front front =>
      have isOpen := front.place_isOpen
      cases moved with
      | opening part _ form fresh => exact hasRead_opening front part line form fresh
      | declaration part place form => exact hasRead_declaration front part line place form
      | begins _ form => exact .body front line [] form (by simp)
      | heading _ place _ | statement _ place _ | ends _ place _ =>
          change front.place = _ at place
          rw [place] at isOpen
          contradiction
  | body front begins body opens indented =>
      cases moved with
      | statement _ _ form =>
          have longer : ∀ other ∈ body ++ [line], other.IsIndented :=
            List.forall_mem_append.2 ⟨indented, List.forall_mem_singleton.2 form⟩
          simpa [addStatement] using HasRead.body front begins (body ++ [line]) opens longer
      | ends _ _ form =>
          have read := HasRead.whole ⟨front, begins, body, line, opens, indented, form⟩
          simpa [Layout.lines, Layout.outline] using read
      | heading | opening | declaration | begins => contradiction
  | whole layout => cases moved <;> contradiction

theorem run_hasRead {scan last : Scan} {before lines : List Line} (read : HasRead scan before)
    (ran : scan.run lines = .ok last) : HasRead last (before ++ lines) := by
  induction lines generalizing scan before with
  | nil =>
      cases ran
      simpa using read
  | cons line rest ih =>
      cases stepped : scan.step line with
      | error cause => simp [run, stepped] at ran
      | ok next =>
          simp only [run, stepped] at ran
          have later := ih (move_hasRead read ((step_ok_iff scan next line).1 stepped)) ran
          simpa using later

end Scan

namespace Outline

def declaring (outline : Outline) (more : List (Section × Line)) : Outline :=
  { outline with declarations := outline.declarations ++ more }

def stating (outline : Outline) (more : List Line) : Outline :=
  { outline with body := outline.body ++ more }

end Outline

namespace Scan

theorem run_move {scan next : Scan} {line : Line} (moved : Move scan line next)
    (rest : List Line) : scan.run (line :: rest) = next.run rest := by
  simp only [run, (step_ok_iff scan next line).2 moved]

theorem run_declared (scan : Scan) (part : Section) (declared rest : List Line)
    (place : scan.place = .declaring part) (declares : ∀ line ∈ declared, line.IsDeclaration) :
    scan.run (declared ++ rest) = Scan.run ⟨scan.place, scan.opened,
      scan.outline.declaring (declared.map fun line => (part, line.outdented))⟩ rest := by
  induction declared generalizing scan with
  | nil => simp [Outline.declaring]
  | cons line others ih =>
      obtain ⟨form, tail⟩ := List.forall_mem_cons.1 declares
      rw [List.cons_append, run_move (.declaration part place form),
        ih (scan.addDeclaration part line.outdented) place tail]
      simp [addDeclaration, Outline.declaring]

/-- The pass may be inside an earlier block, so only what it has opened before matters. -/
theorem run_blocks (scan : Scan) (blocks : List Block) (rest : List Line)
    (place : scan.place.isOpen = true) (distinct : (blocks.map Block.part).Nodup)
    (fresh : ∀ block ∈ blocks, block.part ∉ scan.opened) :
    ∃ next : Scan, scan.run (blocks.flatMap Block.lines ++ rest) = next.run rest ∧
      next.place.isOpen = true ∧
      next.outline = scan.outline.declaring (blocks.flatMap Block.declarations) := by
  induction blocks generalizing scan with
  | nil => exact ⟨scan, rfl, place, by simp [Outline.declaring]⟩
  | cons block others ih =>
      simp only [List.map_cons, List.nodup_cons, List.mem_map, not_exists, not_and] at distinct
      have unopened := fresh block List.mem_cons_self
      have later : ∀ other ∈ others, other.part ∉ block.part :: scan.opened := by
        intro other member
        rw [List.mem_cons, not_or]
        exact ⟨distinct.1 other member, fresh other (List.mem_cons_of_mem block member)⟩
      simp only [List.flatMap_cons, Block.lines, List.cons_append, List.append_assoc]
      rw [run_move (.opening block.part place block.opens unopened),
        run_declared _ block.part block.declared _ rfl block.declares]
      obtain ⟨next, ran, isOpen, outline⟩ := ih ⟨.declaring block.part,
        block.part :: scan.opened, scan.outline.declaring block.declarations⟩
        rfl distinct.2 later
      refine ⟨next, ran, isOpen, ?_⟩
      rw [outline]
      simp [Outline.declaring]

theorem run_body (scan : Scan) (beginLine : Nat) (body rest : List Line)
    (place : scan.place = .body beginLine) (indented : ∀ line ∈ body, line.IsIndented) :
    scan.run (body ++ rest) = Scan.run ⟨scan.place, scan.opened,
      scan.outline.stating (body.map Line.outdented)⟩ rest := by
  induction body generalizing scan with
  | nil => simp [Outline.stating]
  | cons line others ih =>
      obtain ⟨form, tail⟩ := List.forall_mem_cons.1 indented
      rw [List.cons_append, run_move (.statement beginLine place form),
        ih (scan.addStatement line.outdented) place tail]
      simp [addStatement, Outline.stating]

theorem run_layout (layout : Layout) :
    ∃ last, Scan.start.run layout.lines = .ok last ∧ last.place = .finished ∧
      last.outline = layout.outline := by
  simp only [Layout.lines, Front.lines, List.cons_append]
  rw [run_move (.heading layout.name rfl layout.headed)]
  obtain ⟨next, ran, isOpen, outline⟩ := run_blocks
    ⟨.header, [], ⟨layout.name, [], []⟩⟩ layout.blocks
    (layout.begins :: (layout.body ++ [layout.ending])) rfl layout.distinct (by simp)
  refine ⟨⟨.finished, next.opened, next.outline.stating (layout.body.map Line.outdented)⟩,
    ran.trans ?_, rfl, ?_⟩
  · rw [run_move (.begins isOpen layout.opens),
      run_body _ layout.begins.number layout.body _ rfl layout.indented,
      run_move (.ends layout.begins.number rfl layout.ends)]
    rfl
  · simp [outline, Outline.declaring, Outline.stating, Layout.outline, Front.declarations]

end Scan

namespace Outline

/-- The empty file needs no case of its own: a pass over nothing does not finish. -/
theorem ofLines_ok_iff (lines : List Line) (outline : Outline) :
    ofLines lines = .ok outline ↔
      ∃ last, Scan.start.run lines = .ok last ∧ last.place = .finished ∧
        last.outline = outline := by
  cases lines with
  | nil =>
      constructor
      · intro made
        contradiction
      · rintro ⟨last, ran, finished, _⟩
        cases ran
        contradiction
  | cons line rest =>
      cases ran : Scan.start.run (line :: rest) with
      | error rejection => simp [ofLines, ran, bind, Except.bind]
      | ok last =>
          cases place : last.place <;> simp [ofLines, ran, bind, Except.bind, Scan.finish, place]

end Outline

theorem Front.blocks_le_two (front : Front) : front.blocks.length ≤ 2 := by
  rcases front with ⟨_, _, blocks, _, distinct⟩
  match blocks, distinct with
  | [], _ | [_], _ | [_, _], _ => simp
  | first :: second :: third :: _, distinct =>
      simp only [List.map_cons, List.nodup_cons, List.mem_cons, not_or] at distinct
      cases a : first.part <;> cases b : second.part <;> cases c : third.part <;> simp_all

theorem Outline.layout_of_ok {lines : List Line} {outline : Outline}
    (laid : ofLines lines = .ok outline) :
    ∃ layout : Layout, layout.lines = lines ∧ layout.outline = outline := by
  obtain ⟨last, ran, finished, rfl⟩ := (ofLines_ok_iff lines outline).1 laid
  have read := Scan.run_hasRead .nothing ran
  cases read with
  | whole layout => exact ⟨layout, rfl, rfl⟩
  | nothing | body => contradiction
  | front front =>
      have isOpen := front.place_isOpen
      change front.place = _ at finished
      rw [finished] at isOpen
      contradiction

/-- The lines that have an outline are those of a layout: a heading, at most two blocks,
`Begin`, a body, `End`. The outline has the name of the heading, the declarations of the
blocks under their keywords, and the lines of the body, all in their order. -/
theorem ofLines_ok_iff_layout (lines : List Line) (outline : Outline) :
    Outline.ofLines lines = .ok outline ↔
      ∃ layout : Layout, layout.lines = lines ∧ layout.outline = outline ∧
        layout.blocks.length ≤ 2 := by
  rw [Outline.ofLines_ok_iff]
  constructor
  · rintro ⟨last, ran, finished, rfl⟩
    have read := Scan.run_hasRead .nothing ran
    rw [List.nil_append] at read
    cases read with
    | whole layout => exact ⟨layout, rfl, rfl, layout.blocks_le_two⟩
    | nothing | body => contradiction
    | front front =>
        change front.place = _ at finished
        have isOpen := front.place_isOpen
        rw [finished] at isOpen
        contradiction
  · rintro ⟨layout, rfl, rfl, _⟩
    exact Scan.run_layout layout

end Pseudocode
