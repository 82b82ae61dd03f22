import Pseudocode.Expr.Basic

/-!
What can go wrong while a program runs, as causes. A fault says nothing about where
it happened: the statement that was running adds its line number. The wording of
every cause is in `Fault.message`.
-/

namespace Pseudocode

inductive BadExpression where
  | badToken (text : Text)
  | empty
  | unexpected (token : Token)
  | ends
  | notClosed (token : Token)
  | neverClosed
  | trailing (token : Token)
  deriving DecidableEq

inductive Mismatch where
  | notNumber (found : Kind)
  | stringOperand (name : Text)
  | operands (left : Value) (op : Operator) (right : Value)
  | notFinite (value : Binary64)
  | fractional (value : Binary64)
  | unreadable (expected : Kind) (found : Text)
  deriving DecidableEq

inductive Malformed where
  | call (keyword statement : Text)
  | assignment (statement : Text)
  | blankArgument
  | blankName
  deriving DecidableEq

inductive Disruption where
  | notUtf8
  | outputFull
  | failed (message : String)
  deriving DecidableEq

inductive Fault where
  | undefined (name : Text)
  | assignsConstant (name : Text)
  | readsConstant (name : Text)
  | mismatch (cause : Mismatch)
  | notNumericTarget (name : Text) (kind : Kind)
  | unset (name : Text)
  | badLiteral (literal : Text)
  | malformed (cause : Malformed)
  | badExpression (cause : BadExpression)
  | divisionByZero
  | overflow
  | endOfInput
  | disrupted (cause : Disruption)
  deriving DecidableEq

def inQuotes (text : Text) : String := "'" ++ String.ofList text ++ "'"

def BadExpression.message : BadExpression → String
  | .badToken text => "unexpected token " ++ inQuotes text
  | .empty => "expression is empty"
  | .unexpected token => "unexpected " ++ inQuotes token.text
  | .ends => "unexpected end of expression"
  | .notClosed token => "expected ')' but found " ++ inQuotes token.text
  | .neverClosed => "expected closing parenthesis ')' but none found"
  | .trailing token => "unexpected " ++ inQuotes token.text ++ " after expression"

def Mismatch.message : Mismatch → String
  | .notNumber found => "expected a number, found " ++ String.ofList found.name
  | .stringOperand name => inQuotes name ++ " is a String and cannot be used in arithmetic"
  | .operands left op right =>
      "invalid operands: " ++
        String.ofList (left.text ++ [' ', op.symbol, ' '] ++ right.text)
  | .notFinite value =>
      "cannot store non-finite value " ++ String.ofList value.text ++ " in an Integer"
  | .fractional value =>
      "cannot store fractional value " ++ String.ofList value.quotedText ++ " in an Integer"
  | .unreadable expected found =>
      "expected " ++ String.ofList expected.name ++ " but read " ++ inQuotes found

def Malformed.message : Malformed → String
  | .call keyword statement =>
      "expected '" ++ String.ofList keyword ++ "(...);' but found " ++ inQuotes statement
  | .assignment statement => "expected 'name = expression;' but found " ++ inQuotes statement
  | .blankArgument => "empty argument in Write"
  | .blankName => "expected a variable name in Read"

def Disruption.message : Disruption → String
  | .notUtf8 => "stream did not contain valid UTF-8"
  | .outputFull => "failed to write whole buffer"
  | .failed message => message

def Fault.message : Fault → String
  | .undefined name => "Undefined variable " ++ inQuotes name ++ "."
  | .assignsConstant name => "Modifying constant " ++ inQuotes name ++ "."
  | .readsConstant name => "Cannot read a constant value " ++ inQuotes name ++ "."
  | .mismatch cause => "Type mismatch: " ++ cause.message ++ "."
  | .notNumericTarget name kind =>
      "Wrong data type, numeric operation for " ++ inQuotes name ++ " of type " ++
        String.ofList kind.name ++ "."
  | .unset name => "Variable " ++ inQuotes name ++ " has no value assigned."
  | .badLiteral literal => "Invalid string: " ++ String.ofList literal
  | .malformed cause => "Malformed statement: " ++ cause.message ++ "."
  | .badExpression cause => "Invalid expression: " ++ cause.message ++ "."
  | .divisionByZero => "Division by zero."
  | .overflow => "Numeric overflow while trying to compute result."
  | .endOfInput => "Input ended before all values were read."
  | .disrupted cause => "I/O failure: " ++ cause.message ++ "."

def onLine (line : Nat) (message : String) : String :=
  "Error on line " ++ toString line ++ ": " ++ message

structure RunError where
  line : Nat
  fault : Fault
  deriving DecidableEq

def RunError.message (error : RunError) : String := onLine error.line error.fault.message

end Pseudocode
