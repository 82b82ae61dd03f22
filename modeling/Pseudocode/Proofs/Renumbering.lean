import Pseudocode.Program

/-!
Other line numbers. Loading never looks at the number of a line; it carries the numbers along, into
the statements of the program or into the rejection. So the same lines under other numbers give the
same program or the same rejection, with the other numbers in it. This holds for any change of the
numbers, one stage of loading after the other.
-/

namespace Pseudocode

def Line.renumber (shift : Nat → Nat) (line : Line) : Line :=
  { line with number := shift line.number }

def Outline.renumber (shift : Nat → Nat) (outline : Outline) : Outline where
  name := outline.name
  declarations := outline.declarations.map fun entry => (entry.1, entry.2.renumber shift)
  body := outline.body.map (Line.renumber shift)

/-- Only a body remembers a line, the one of its `Begin`. -/
def Place.renumber (shift : Nat → Nat) : Place → Place
  | .body beginLine => .body (shift beginLine)
  | place => place

def Scan.renumber (shift : Nat → Nat) (scan : Scan) : Scan :=
  ⟨scan.place.renumber shift, scan.opened, scan.outline.renumber shift⟩

def Rejection.renumber (shift : Nat → Nat) : Rejection → Rejection
  | .onLine line cause => .onLine (shift line) cause
  | rejection => rejection

def Statement.renumber (shift : Nat → Nat) (statement : Statement) : Statement :=
  { statement with line := shift statement.line }

def Program.renumber (shift : Nat → Nat) (program : Program) : Program :=
  { program with statements := program.statements.map (Statement.renumber shift) }

/-- The same outcome under other numbers. -/
def renumbered {α : Type} (shift : Nat → Nat) (change : α → α) :
    Except Rejection α → Except Rejection α
  | .ok value => .ok (change value)
  | .error rejection => .error (rejection.renumber shift)

variable (shift : Nat → Nat)

@[simp] theorem Line.renumber_text (line : Line) : (line.renumber shift).text = line.text := rfl

@[simp] theorem Scan.renumber_place (scan : Scan) :
    (scan.renumber shift).place = scan.place.renumber shift := rfl

@[simp] theorem Scan.renumber_opened (scan : Scan) :
    (scan.renumber shift).opened = scan.opened := rfl

namespace Scan

theorem indented_renumber (line : Line) :
    indented (line.renumber shift) = (indented line).map (Line.renumber shift) := by
  have same : (line.renumber shift).indentation = line.indentation := rfl
  unfold indented
  rw [same]
  split
  · rfl
  · dsimp only [Line.renumber]
    split <;> rfl

theorem addDeclaration_renumber (scan : Scan) (part : Section) (line : Line) :
    (scan.renumber shift).addDeclaration part (line.renumber shift) =
      (scan.addDeclaration part line).renumber shift := by
  simp [addDeclaration, renumber, Outline.renumber]

theorem addStatement_renumber (scan : Scan) (line : Line) :
    (scan.renumber shift).addStatement (line.renumber shift) =
      (scan.addStatement line).renumber shift := by
  simp [addStatement, renumber, Outline.renumber]

/-- Lines without a keyword are the ones that are taken in, under their new numbers. -/
theorem step_renumber_other (scan : Scan) {line : Line}
    (role : LineRole.ofText line.text = .other) :
    (scan.renumber shift).step (line.renumber shift) =
      (scan.step line).map (Scan.renumber shift) := by
  cases place : scan.place with
  | declaring part =>
      simp only [step, renumber_place, place, Place.renumber, Line.renumber_text, role,
        indented_renumber]
      cases indented line with
      | error cause => rfl
      | ok declaration =>
          simp only [Except.map, bind, Except.bind, Line.renumber_text, addDeclaration_renumber]
          split <;> rfl
  | body beginLine =>
      simp only [step, renumber_place, place, Place.renumber, Line.renumber_text, role,
        indented_renumber]
      cases indented line with
      | error cause => rfl
      | ok statement => simp only [Except.map, addStatement_renumber]
  | start | header | finished =>
      simp only [step, renumber_place, place, Place.renumber, Line.renumber_text, role]
      rfl

/-- A line is judged by its text and by where it stands, never by its number. -/
theorem step_renumber (scan : Scan) (line : Line) :
    (scan.renumber shift).step (line.renumber shift) =
      (scan.step line).map (Scan.renumber shift) := by
  cases role : LineRole.ofText line.text with
  | heading =>
      cases place : scan.place with
      | start =>
          simp only [step, renumber_place, place, Place.renumber, Line.renumber_text, role]
          cases headingName line.text with
          | error cause => rfl
          | ok name => simp [Except.map, renumber, Outline.renumber, Place.renumber]
      | header | declaring _ | body _ | finished =>
          simp only [step, renumber_place, place, Place.renumber, Line.renumber_text, role]
          rfl
  | opening part =>
      by_cases again : part ∈ scan.opened
      · cases place : scan.place <;>
          simp [step, place, Place.renumber, role, again, Except.map]
      · cases place : scan.place <;>
          simp [step, place, Place.renumber, role, again, Except.map, Place.isPastBegin, renumber]
  | begins =>
      cases place : scan.place <;>
        simp [step, place, Place.renumber, role, Except.map, Place.isPastBegin, renumber,
          Line.renumber]
  | ends =>
      cases place : scan.place <;> simp [step, place, Place.renumber, role, Except.map, renumber]
  | other => exact step_renumber_other shift scan role

theorem run_renumber (scan : Scan) (lines : List Line) :
    (scan.renumber shift).run (lines.map (Line.renumber shift)) =
      renumbered shift (Scan.renumber shift) (scan.run lines) := by
  induction lines generalizing scan with
  | nil => rfl
  | cons line rest ih =>
      simp only [List.map_cons, run, step_renumber]
      cases scan.step line with
      | error cause => rfl
      | ok next => exact ih next

theorem finish_renumber (scan : Scan) :
    (scan.renumber shift).finish = renumbered shift (Outline.renumber shift) scan.finish := by
  cases place : scan.place <;> simp [finish, place, Place.renumber] <;> rfl

end Scan

theorem Outline.ofLines_renumber (lines : List Line) :
    ofLines (lines.map (Line.renumber shift)) =
      renumbered shift (Outline.renumber shift) (ofLines lines) := by
  have ran := Scan.run_renumber shift .start lines
  change Scan.start.run _ = _ at ran
  simp only [ofLines, List.isEmpty_map, ran]
  split
  · rfl
  · cases Scan.start.run lines with
    | error rejection => rfl
    | ok scan => exact Scan.finish_renumber shift scan

theorem Scope.declareAll_renumber (scope : Scope) (declarations : List (Section × Line)) :
    scope.declareAll (declarations.map fun entry => (entry.1, entry.2.renumber shift)) =
      ((scope.declareAll declarations).1,
        (scope.declareAll declarations).2.map (Rejection.renumber shift)) := by
  induction declarations generalizing scope with
  | nil => rfl
  | cons entry rest ih =>
      simp only [List.map_cons, declareAll, Line.renumber_text]
      cases scope.declare entry.1 entry.2.text with
      | error cause => rfl
      | ok next => exact ih next

theorem Statement.ofLines_renumber (commands : List Command) (scope : Scope) (lines : List Line) :
    ofLines commands scope (lines.map (Line.renumber shift)) =
      renumbered shift (List.map (Statement.renumber shift)) (ofLines commands scope lines) := by
  induction lines with
  | nil => rfl
  | cons line rest ih =>
      simp only [List.map_cons, ofLines, ofLine, Line.renumber_text, ih]
      cases Command.classify? commands scope line.text with
      | none => rfl
      | some command => cases ofLines commands scope rest <;> rfl

namespace Program

/-- The stages of loading after the source has been cut into lines. -/
def ofLines (commands : List Command) (lines : List Line) : Except Rejection Program := do
  let outline ← Outline.ofLines lines
  match Scope.empty.declareAll outline.declarations with
  | (_, some rejection) => .error rejection
  | (scope, none) =>
      let statements ← Statement.ofLines commands scope outline.body
      .ok ⟨outline.name, scope, statements⟩

theorem loadWith_eq_ofLines (commands : List Command) (source : Text) :
    loadWith commands source = ofLines commands (sourceLines source) := rfl

theorem ofLines_renumber (commands : List Command) (lines : List Line) :
    ofLines commands (lines.map (Line.renumber shift)) =
      renumbered shift (Program.renumber shift) (ofLines commands lines) := by
  simp only [ofLines, Outline.ofLines_renumber]
  cases Outline.ofLines lines with
  | error rejection => rfl
  | ok outline =>
      simp only [renumbered, bind, Except.bind, Outline.renumber, Scope.declareAll_renumber]
      rcases Scope.empty.declareAll outline.declarations with ⟨scope, _ | rejection⟩
      · simp only [Option.map_none, Statement.ofLines_renumber]
        cases Statement.ofLines commands scope outline.body <;> rfl
      · rfl

end Program

end Pseudocode
