import Pseudocode.Text.Basic

/-!
String literals: a text between double quotes in which every inner quote has a
backslash right before it. A backslash that precedes no quote stands for itself.
-/

namespace Pseudocode.Text

def unescape? : Text → Option Text
  | [] => some []
  | '\\' :: '"' :: rest => (unescape? rest).map ('"' :: ·)
  | c :: rest => if c = '"' then none else (unescape? rest).map (c :: ·)

def escape : Text → Text
  | [] => []
  | c :: rest => if c = '"' then '\\' :: '"' :: escape rest else c :: escape rest

/-- The text that a literal denotes. -/
def unquote? : Text → Option Text
  | '"' :: rest => (before? '"' rest).bind unescape?
  | _ => none

/-- The literal that denotes a text. -/
def quote (text : Text) : Text := '"' :: escape text ++ ['"']

end Pseudocode.Text
