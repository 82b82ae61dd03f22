import Pseudocode.Number.Numeral
import Pseudocode.Text.Literal

/-!
Values and their types. A declared name without an initial value holds `unset`
together with its type, so every entry of a table has a type at all times.
-/

namespace Pseudocode

inductive Kind where
  | integer
  | real
  | string
  deriving DecidableEq

namespace Kind

def name : Kind → Text
  | .integer => "Integer".toList
  | .real => "Real".toList
  | .string => "String".toList

def all : List Kind := [.integer, .real, .string]

def ofName? (name : Text) : Option Kind := all.find? fun kind => kind.name = name

def isNumeric : Kind → Bool
  | .integer | .real => true
  | .string => false

theorem ofName?_name (kind : Kind) : ofName? kind.name = some kind := by
  cases kind <;> decide

end Kind

namespace Number

def kind : Number → Kind
  | .integer _ => .integer
  | .real _ => .real

def text : Number → Text
  | .integer n => n.text
  | .real x => x.text

def quotedText : Number → Text
  | .integer n => n.text
  | .real x => x.quotedText

end Number

inductive Value where
  | number (value : Number)
  | string (value : Text)
  | unset (kind : Kind)
  deriving DecidableEq

namespace Value

def integer (n : Integer) : Value := .number (.integer n)

def real (x : Binary64) : Value := .number (.real x)

def kind : Value → Kind
  | .number n => n.kind
  | .string _ => .string
  | .unset kind => kind

def isUnset : Value → Bool
  | .unset _ => true
  | _ => false

/-- The text that a program prints; a placeholder names its type. -/
def text : Value → Text
  | .number n => n.text
  | .string text => text
  | .unset kind => "<unset ".toList ++ kind.name ++ ">".toList

end Value

def Kind.literal? : Kind → Text → Option Value
  | .integer, literal => (Integer.read? literal).map Value.integer
  | .real, literal => (Binary64.read? literal).map Value.real
  | .string, literal => (Text.unquote? literal).map Value.string

end Pseudocode
