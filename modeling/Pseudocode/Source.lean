import Pseudocode.Text.Quotes

/-!
The lines of a source text that mean something, with their numbers. A comment runs
from an open `//` to the end of its line; trailing blanks are dropped, and so are
lines with nothing left. Leading blanks stay, since indentation matters. A carriage
return before a line feed is a trailing blank.
-/

namespace Pseudocode

structure Line where
  number : Nat
  text : Text
  deriving DecidableEq

namespace Line

def indentation (line : Line) : Nat := (line.text.takeWhile (· = ' ')).length

def stripped (line : Line) : Line :=
  { line with text := Text.trimEnd (Text.withoutComment line.text) }

end Line

def numberedLines (source : Text) : List Line :=
  ((Text.parts '\n' source).zipIdx 1).map fun (text, number) => ⟨number, text⟩

/-- The lines that mean something. -/
def sourceLines (source : Text) : List Line :=
  ((numberedLines source).map Line.stripped).filter fun line => !line.text.isEmpty

end Pseudocode
