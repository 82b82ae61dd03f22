import Pseudocode.Rejection
import Pseudocode.Source

/-!
The layout of a program: a heading, up to two declaration sections in either order,
and a body between `Begin` and `End`. One pass over the lines finds the first line
that cannot stand where it stands.
-/

namespace Pseudocode

/-- A program cut into its parts; the lines have lost their indentation. -/
structure Outline where
  name : Text
  declarations : List (Section × Line)
  body : List Line
  deriving DecidableEq

inductive LineRole where
  | heading
  | opening (part : Section)
  | begins
  | ends
  | other
  deriving DecidableEq

namespace LineRole

def headingKeyword : Text := "Algorithm".toList

def beginKeyword : Text := "Begin".toList

def endKeyword : Text := "End".toList

/-- `End` may be written in any case, the other keywords may not. -/
def ofText (text : Text) : LineRole :=
  if Text.startsWith text (headingKeyword ++ [' ']) then .heading
  else if text = Section.constants.keyword then .opening .constants
  else if text = Section.variables.keyword then .opening .variables
  else if text = beginKeyword then .begins
  else if Text.sameLetters text endKeyword then .ends
  else .other

end LineRole

inductive Place where
  | start
  | header
  | declaring (part : Section)
  | body (beginLine : Nat)
  | finished
  deriving DecidableEq

def Place.isPastBegin : Place → Bool
  | .body _ | .finished => true
  | _ => false

structure Scan where
  place : Place
  opened : List Section
  outline : Outline
  deriving DecidableEq

namespace Scan

def start : Scan := ⟨.start, [], ⟨[], [], []⟩⟩

def headingName (text : Text) : Except LineCause Text :=
  match Text.before? ';' text with
  | none => .error (.missingSemicolon text)
  | some heading =>
      let name := Text.trim (heading.drop (LineRole.headingKeyword.length + 1))
      if name.isEmpty || !name.all Text.isNameChar then .error (.invalidAlgorithmName name)
      else if name.head?.any Char.isDigit then
        .error (.algorithmNameStartsWithDigit name)
      else .ok name

def indent : Nat := 4

def indented (line : Line) : Except LineCause Line :=
  if line.indentation ≠ indent then
    .error (.badIndentation line.indentation (Text.trimStart line.text))
  else
    let text := line.text.drop indent
    if text.getLast? = some ';' then .ok { line with text := text }
    else .error (.missingSemicolon text)

def addDeclaration (scan : Scan) (part : Section) (line : Line) : Scan :=
  { scan with outline :=
      { scan.outline with declarations := scan.outline.declarations ++ [(part, line)] } }

def addStatement (scan : Scan) (line : Line) : Scan :=
  { scan with outline := { scan.outline with body := scan.outline.body ++ [line] } }

def step (scan : Scan) (line : Line) : Except LineCause Scan :=
  -- A keyword is judged by where it stands; only a line without one is looked into.
  match scan.place, LineRole.ofText line.text with
  | .start, .heading =>
      (headingName line.text).map fun name =>
        { scan with place := .header, outline := { scan.outline with name := name } }
  | .start, _ => .error .missingAlgorithm
  | .header, .heading => .error (.duplicateSection LineRole.headingKeyword)
  | _, .heading => .error .algorithmNotFirst
  | place, .opening part =>
      -- A section that was opened before counts as repeated, wherever it stands now.
      if part ∈ scan.opened then .error (.duplicateSection part.keyword)
      else if place.isPastBegin then .error (.misplacedSection part.keyword)
      else .ok { scan with place := .declaring part, opened := part :: scan.opened }
  | place, .begins =>
      if place.isPastBegin then .error (.duplicateSection LineRole.beginKeyword)
      else .ok { scan with place := .body line.number }
  | .body _, .ends => .ok { scan with place := .finished }
  | .declaring part, .other => do
      let declaration ← indented line
      if declaration.text.contains ':' then .ok (scan.addDeclaration part declaration)
      else .error (.invalidDeclaration declaration.text)
  | .body _, .other => (indented line).map scan.addStatement
  | _, _ => .error (.unexpectedLine line.text)

def run (scan : Scan) : List Line → Except Rejection Scan
  | [] => .ok scan
  | line :: rest =>
      match scan.step line with
      | .error cause => .error (.onLine line.number cause)
      | .ok next => next.run rest

def finish (scan : Scan) : Except Rejection Outline :=
  match scan.place with
  | .finished => .ok scan.outline
  | .body beginLine => .error (.onLine beginLine .missingEnd)
  | _ => .error .missingBegin

end Scan

/-- The outline of a program, or the first violation of its layout. -/
def Outline.ofLines (lines : List Line) : Except Rejection Outline :=
  if lines.isEmpty then .error .emptyFile
  else do
    let scan ← Scan.start.run lines
    scan.finish

end Pseudocode
