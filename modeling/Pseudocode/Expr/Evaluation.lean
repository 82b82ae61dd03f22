import Pseudocode.Arithmetic
import Pseudocode.Expr.Lexer
import Pseudocode.Expr.Parser
import Pseudocode.Symbols

/-!
The value of an expression. The text is split into tokens, every name among them is
replaced by the number it holds, and only then are the tokens parsed and the tree
evaluated; so a name without a number is reported before a slip in the grammar.
-/

namespace Pseudocode

namespace Expr

/-- Operands first, the left before the right. -/
def eval : Expr Number → Except Fault Number
  | .leaf number => .ok number
  | .signed sign operand => do
      let value ← operand.eval
      value.applySign sign
  | .binary left op right => do
      let a ← left.eval
      let b ← right.eval
      Number.apply op a b

end Expr

namespace Scope

def number (scope : Scope) (name : Text) : Except Fault Number :=
  match scope.operand? name with
  | none => .error (.undefined name)
  | some (.number n) => .ok n
  | some (.string _) => .error (.mismatch (.stringOperand name))
  | some (.unset _) => .error (.unset name)

def resolve (scope : Scope) : Token → Except Fault Token
  | .atom (.name name) => (scope.number name).map fun n => .atom (.number n)
  | token => .ok token

def resolveAll (scope : Scope) : List Token → Except Fault (List Token)
  | [] => .ok []
  | token :: rest => do
      let first ← scope.resolve token
      let others ← scope.resolveAll rest
      .ok (first :: others)

def evaluate (scope : Scope) (source : Text) : Except Fault Number := do
  let tokens ← (lex source).mapError .badExpression
  let resolved ← scope.resolveAll tokens
  let expr ← (Expr.parse Atom.number? resolved).mapError .badExpression
  expr.eval

end Scope

end Pseudocode
