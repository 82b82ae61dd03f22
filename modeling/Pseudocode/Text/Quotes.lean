import Pseudocode.Text.Basic

/-!
Quoted stretches of a line. A double quote opens a stretch and the next one
closes it, except that inside a stretch a quote right after a backslash belongs
to it. A character is open when it stands outside every stretch and is no quote
itself. Comments, the colon of a declaration and the commas of an argument list
are all looked for among the open characters, by the one scan of this module.
-/

namespace Pseudocode.Text

/-- Splits in front of the first open character at which `stop` accepts the rest of
the text. The flag says whether the scan starts inside a quoted stretch. -/
def scanOpen (stop : Text → Bool) : (quoted : Bool) → Text → Option (Text × Text)
  | _, [] => none
  | true, '\\' :: '"' :: rest =>
      (scanOpen stop true rest).map fun found => ('\\' :: '"' :: found.1, found.2)
  | quoted, c :: rest =>
      if c = '"' then
        (scanOpen stop (!quoted) rest).map fun found => (c :: found.1, found.2)
      else if !quoted && stop (c :: rest) then some ([], c :: rest)
      else (scanOpen stop quoted rest).map fun found => (c :: found.1, found.2)

def cutOpen? (target : Char) (text : Text) : Option (Text × Text) :=
  (scanOpen (fun rest => rest.head? = some target) false text).map fun found =>
    (found.1, found.2.drop 1)

def withoutComment (text : Text) : Text :=
  match scanOpen (fun rest => startsWith rest ['/', '/']) false text with
  | some found => found.1
  | none => text

def extendFirst (lead : Text) : List Text → List Text
  | [] => [lead]
  | first :: others => (lead ++ first) :: others

/-- The parts between the open occurrences of `separator`, in one pass. -/
def splitOpen (separator : Char) : (quoted : Bool) → Text → List Text
  | _, [] => [[]]
  | true, '\\' :: '"' :: rest => extendFirst ['\\', '"'] (splitOpen separator true rest)
  | quoted, c :: rest =>
      if c = '"' then extendFirst [c] (splitOpen separator (!quoted) rest)
      else if !quoted && c = separator then [] :: splitOpen separator false rest
      else extendFirst [c] (splitOpen separator quoted rest)

def openParts (separator : Char) (text : Text) : List Text := splitOpen separator false text

end Pseudocode.Text
