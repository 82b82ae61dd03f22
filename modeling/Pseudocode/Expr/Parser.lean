import Pseudocode.Fault

/-!
From tokens to trees, one token at a time. Between two tokens the parser either
expects an operand or has just seen the end of one. What is still unfinished is kept
per level of parentheses: the sum so far, the product so far and the signs in front
of the next operand. Operators of one rank group to the left, and a sign binds
tighter than every binary operator.
-/

namespace Pseudocode.Expr

/-- The unfinished part of one level of parentheses, before an operand. -/
structure Level (α : Type) where
  sum : Option (Expr α × Operator)
  product : Option (Expr α × Operator)
  signs : List Sign

inductive Parsing (α : Type) where
  | operand (level : Level α) (outer : List (Level α))
  | operator (sum : Option (Expr α × Operator)) (term : Expr α) (outer : List (Level α))

variable {α : Type}

def Level.start : Level α := ⟨none, none, []⟩

def join : Option (Expr α × Operator) → Expr α → Expr α
  | none, right => right
  | some (left, op), right => .binary left op right

/-- Puts signs in front of an operand, the innermost first. -/
def withSigns (signs : List Sign) (operand : Expr α) : Expr α :=
  signs.foldl (fun expr sign => .signed sign expr) operand

def Level.supply (level : Level α) (outer : List (Level α)) (operand : Expr α) : Parsing α :=
  .operator level.sum (join level.product (withSigns level.signs operand)) outer

namespace Parsing

def step (leaf : Atom → Option α) :
    Parsing α → Token → Except BadExpression (Parsing α)
  | .operand level outer, token =>
      match token with
      | .atom atom =>
          match leaf atom with
          | some value => .ok (level.supply outer (.leaf value))
          | none => .error (.unexpected token)
      | .operator op =>
          match op.sign? with
          | some sign => .ok (.operand { level with signs := sign :: level.signs } outer)
          | none => .error (.unexpected token)
      | .opening => .ok (.operand .start (level :: outer))
      | .closing => .error (.unexpected token)
  | .operator sum term outer, token =>
      match token, outer with
      | .operator op, _ =>
          -- A product keeps the sum before it pending; a sum closes it.
          if op.isAdditive then .ok (.operand ⟨some (join sum term, op), none, []⟩ outer)
          else .ok (.operand ⟨sum, some (term, op), []⟩ outer)
      | .closing, level :: outer => .ok (level.supply outer (join sum term))
      | _, [] => .error (.trailing token)
      | _, _ :: _ => .error (.notClosed token)

def finish : Parsing α → Except BadExpression (Expr α)
  | .operand .. => .error .ends
  | .operator sum term [] => .ok (join sum term)
  | .operator _ _ (_ :: _) => .error .neverClosed

def run (leaf : Atom → Option α) :
    Parsing α → List Token → Except BadExpression (Expr α)
  | state, [] => state.finish
  | state, token :: rest =>
      match state.step leaf token with
      | .error cause => .error cause
      | .ok next => next.run leaf rest

end Parsing

/-- The tree that the tokens spell, where `leaf` says which atoms are operands. -/
def parse (leaf : Atom → Option α) (tokens : List Token) : Except BadExpression (Expr α) :=
  if tokens.isEmpty then .error .empty else (Parsing.operand .start []).run leaf tokens

end Pseudocode.Expr
