import Pseudocode.Value

/-!
Arithmetic expressions as trees over an arbitrary kind of leaf, and the tokens they
are written with. Programs evaluate trees with numbers at the leaves; a tree with
names at the leaves is the same shape before the names are looked up.
-/

namespace Pseudocode

inductive Sign where
  | plus
  | minus
  deriving DecidableEq

inductive Operator where
  | add
  | sub
  | mul
  | div
  deriving DecidableEq

namespace Operator

def symbol : Operator → Char
  | .add => '+'
  | .sub => '-'
  | .mul => '*'
  | .div => '/'

def isAdditive : Operator → Bool
  | .add | .sub => true
  | .mul | .div => false

def sign? : Operator → Option Sign
  | .add => some .plus
  | .sub => some .minus
  | _ => none

end Operator

inductive Expr (α : Type) where
  | leaf (value : α)
  | signed (sign : Sign) (operand : Expr α)
  | binary (left : Expr α) (op : Operator) (right : Expr α)
  deriving DecidableEq

/-- What can stand as an operand: a number, or a name to be looked up. -/
inductive Atom where
  | number (value : Number)
  | name (name : Text)
  deriving DecidableEq

namespace Atom

def number? : Atom → Option Number
  | .number n => some n
  | .name _ => none

def text : Atom → Text
  | .number n => n.quotedText
  | .name spelling => spelling

end Atom

inductive Token where
  | atom (value : Atom)
  | operator (op : Operator)
  | opening
  | closing
  deriving DecidableEq

def Token.text : Token → Text
  | .atom a => a.text
  | .operator op => [op.symbol]
  | .opening => ['(']
  | .closing => [')']

end Pseudocode
