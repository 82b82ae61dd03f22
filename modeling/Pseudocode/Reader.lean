import Pseudocode.Fault
import Pseudocode.Text.Utf8

/-!
The input of a running program. Bytes are taken in one line at a time; a line that is
not UTF-8 is dropped as a whole. What is left of the current line serves both ways of
reading: word by word, or up to the end of the line.
-/

namespace Pseudocode

structure Reader where
  pending : Text
  unread : Bytes
  deriving DecidableEq

/-- What an attempt to read gives; `none` at the end of the input. -/
abbrev Reading := Except Disruption (Option Text)

namespace Reader

def ofBytes (input : Bytes) : Reader := ⟨[], input⟩

def lineFeed : UInt8 := 10

/-- The bytes up to and including the first line feed, and the bytes after it. -/
def takeLine : Bytes → Bytes × Bytes
  | [] => ([], [])
  | byte :: rest =>
      if byte = lineFeed then ([byte], rest)
      else match takeLine rest with
        | (line, after) => (byte :: line, after)

theorem takeLine_append (bytes : Bytes) : (takeLine bytes).1 ++ (takeLine bytes).2 = bytes := by
  induction bytes with
  | nil => rfl
  | cons byte rest ih =>
      simp only [takeLine]
      split
      · simp
      · simp [ih]

theorem takeLine_shorter (byte : UInt8) (rest : Bytes) :
    (takeLine (byte :: rest)).2.length < (byte :: rest).length := by
  have whole := congrArg List.length (takeLine_append rest)
  simp only [List.length_append] at whole
  simp only [takeLine]
  split
  · simp
  · simp only [List.length_cons]; omega

def nextWord (reader : Reader) : Reading × Reader :=
  match Text.trimStart reader.pending with
  | c :: rest =>
      (.ok (some ((c :: rest).takeWhile (!Text.isBlank ·))),
        { reader with pending := (c :: rest).dropWhile (!Text.isBlank ·) })
  | [] =>
      match _unread : reader.unread with
      | [] => (.ok none, ⟨[], []⟩)
      | byte :: rest =>
          -- A line that is not UTF-8 is gone; the reader goes on after it.
          match Text.ofUtf8? (takeLine (byte :: rest)).1 with
          | none => (.error .notUtf8, ⟨[], (takeLine (byte :: rest)).2⟩)
          | some text => nextWord ⟨text, (takeLine (byte :: rest)).2⟩
termination_by reader.unread.length
decreasing_by rw [_unread]; exact takeLine_shorter byte rest

def isLineEnd (c : Char) : Bool := c = '\n' || c = '\r'

/-- The rest of the current line from its first word on, or else the next line. -/
def nextLine (reader : Reader) : Reading × Reader :=
  match Text.trimStart reader.pending with
  | c :: rest =>
      (.ok (some (Text.trimTail isLineEnd (c :: rest))), { reader with pending := [] })
  | [] =>
      match reader.unread with
      | [] => (.ok none, ⟨[], []⟩)
      | byte :: rest =>
          match Text.ofUtf8? (takeLine (byte :: rest)).1 with
          | none => (.error .notUtf8, ⟨[], (takeLine (byte :: rest)).2⟩)
          | some text =>
              (.ok (some (Text.trimTail isLineEnd text)), ⟨[], (takeLine (byte :: rest)).2⟩)

end Reader

end Pseudocode
