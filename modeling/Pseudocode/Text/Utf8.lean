import Pseudocode.Text.Quotes

/-!
UTF-8: texts as the bytes that a program reads and writes.
-/

namespace Pseudocode

abbrev Bytes := List UInt8

namespace Text

def toUtf8 (text : Text) : Bytes := text.flatMap String.utf8EncodeChar

/-- The text that the bytes encode; `none` for malformed bytes, overlong forms and
surrogates. -/
def ofUtf8? (bytes : Bytes) : Option Text := bytes.toByteArray.utf8Decode?.map Array.toList

/-- How many bytes stand in front of the first open `target`. -/
def openOffset? (target : Char) (text : Text) : Option Nat :=
  (cutOpen? target text).map fun sides => (toUtf8 sides.1).length

theorem toUtf8_cons (c : Char) (rest : Text) :
    toUtf8 (c :: rest) = String.utf8EncodeChar c ++ toUtf8 rest := rfl

theorem toUtf8_append (front back : Text) : toUtf8 (front ++ back) = toUtf8 front ++ toUtf8 back :=
  List.flatMap_append

theorem ofUtf8?_toUtf8 (text : Text) : ofUtf8? (toUtf8 text) = some text := by
  have decoded := @List.utf8Decode?_utf8Encode text
  simp only [List.utf8Encode] at decoded
  simp [ofUtf8?, toUtf8, decoded]

end Text

end Pseudocode
