import Pseudocode.Outline
import Pseudocode.Symbols

/-!
Declarations `name = literal : Type;`, the literal being optional. The first open
colon divides name and literal from the type, and the first equals sign divides the
name from the literal.
-/

namespace Pseudocode

def Kind.read (kind : Kind) (literal : Text) : Except BadLiteral Value :=
  match kind.literal? literal with
  | some value => .ok value
  | none => .error ⟨kind, literal⟩

/-- The value a name starts with; without a literal it is unset. -/
def Kind.initial (kind : Kind) : Option Text → Except BadLiteral Value
  | none => .ok (.unset kind)
  | some literal => kind.read literal

structure Declaration where
  name : Text
  kind : Kind
  value : Value
  deriving DecidableEq

namespace Declaration

def splitName (declared : Text) : Except LineCause (Text × Option Text) :=
  match Text.cut? '=' declared with
  | none => .ok (Text.trim declared, none)
  | some (name, literal) =>
      if (Text.trim literal).isEmpty then .error (.missingValue (Text.trim name))
      else .ok (Text.trim name, some (Text.trim literal))

def kindName (typePart : Text) : Text :=
  let trimmed := Text.trim typePart
  Text.trimEnd ((Text.before? ';' trimmed).getD trimmed)

def parse (text : Text) : Except LineCause Declaration :=
  match Text.cutOpen? ':' text with
  | none => .error (.invalidDeclaration text)
  | some (declared, typePart) => do
      let (name, literal) ← splitName declared
      if !Text.isIdentifier name then .error (.invalidIdentifier name)
      else match Kind.ofName? (kindName typePart) with
        | none => .error (.invalidKind (kindName typePart))
        | some kind =>
            match kind.initial literal with
            | .error cause => .error (.badLiteral cause)
            | .ok value => .ok ⟨name, kind, value⟩

end Declaration

namespace Scope

def add (scope : Scope) (part : Section) (name : Text) (value : Value) : Scope :=
  match part with
  | .constants =>
      ⟨(scope.constants.declare? name value).getD scope.constants, scope.variables⟩
  | .variables =>
      ⟨scope.constants, (scope.variables.declare? name value).getD scope.variables⟩

def declare (scope : Scope) (part : Section) (text : Text) : Except LineCause Scope := do
  let declaration ← Declaration.parse text
  if scope.contains declaration.name then .error (.duplicateIdentifier declaration.name)
  else .ok (scope.add part declaration.name declaration.value)

/-- Carries out declarations up to the first that is rejected. -/
def declareAll (scope : Scope) : List (Section × Line) → Scope × Option Rejection
  | [] => (scope, none)
  | (part, line) :: rest =>
      match scope.declare part line.text with
      | .error cause => (scope, some (.onLine line.number cause))
      | .ok next => next.declareAll rest

end Scope

end Pseudocode
