import Pseudocode.Fault

/-!
Why a source text is no program. Each cause belongs to one stage of loading: the
layout of the file, its declarations, or its statements. All but two causes are about
a line; the wording is in `Rejection.message`.
-/

namespace Pseudocode

inductive Section where
  | constants
  | variables
  deriving DecidableEq

def Section.keyword : Section → Text
  | .constants => "Constants".toList
  | .variables => "Variables".toList

structure BadLiteral where
  kind : Kind
  literal : Text
  deriving DecidableEq

def BadLiteral.message (bad : BadLiteral) : String :=
  let what := match bad.kind with
    | .integer => "integer"
    | .real => "real number"
    | .string => "string"
  "Illegal " ++ what ++ " " ++ inQuotes bad.literal

inductive LineCause where
  | missingAlgorithm
  | missingSemicolon (text : Text)
  | invalidAlgorithmName (name : Text)
  | algorithmNameStartsWithDigit (name : Text)
  | algorithmNotFirst
  | duplicateSection (keyword : Text)
  | misplacedSection (keyword : Text)
  | unexpectedLine (text : Text)
  | badIndentation (found : Nat) (text : Text)
  | missingEnd
  | invalidDeclaration (text : Text)
  | missingValue (name : Text)
  | invalidIdentifier (name : Text)
  | duplicateIdentifier (name : Text)
  | invalidKind (name : Text)
  | badLiteral (cause : BadLiteral)
  | invalidStatement (text : Text)
  deriving DecidableEq

inductive Rejection where
  | emptyFile
  | missingBegin
  | onLine (line : Nat) (cause : LineCause)
  deriving DecidableEq

/-- The stages of loading, in their order. -/
inductive Stage where
  | layout
  | declarations
  | statements
  deriving DecidableEq

namespace LineCause

def stage : LineCause → Stage
  | .missingValue _ | .invalidIdentifier _ | .duplicateIdentifier _ | .invalidKind _
  | .badLiteral _ => .declarations
  | .invalidStatement _ => .statements
  | _ => .layout

def message : LineCause → String
  | .missingAlgorithm =>
      "Algorithm name is missing. The file should start with 'Algorithm <algorithm name>;'."
  | .missingSemicolon text =>
      "Semicolon ';' is missing at the end of the line: " ++ String.ofList text
  | .invalidAlgorithmName name => "Invalid algorithm name " ++ inQuotes name ++ "."
  | .algorithmNameStartsWithDigit name =>
      "Algorithm name " ++ inQuotes name ++ " should not start with a number."
  | .algorithmNotFirst => "Algorithm name should be first."
  | .duplicateSection keyword => String.ofList keyword ++ " keyword duplication."
  | .misplacedSection keyword => String.ofList keyword ++ " must come before Begin."
  | .unexpectedLine text => "Line is outside of any section: " ++ String.ofList text
  | .badIndentation found text =>
      "Expected 4 white spaces, but found " ++ toString found ++ ": " ++ String.ofList text
  | .missingEnd =>
      "Algorithm has Begin body without End close. Add `End` to the end of your algorithm."
  | .invalidDeclaration text => "Invalid declaration format: " ++ String.ofList text
  | .missingValue name => "Variable " ++ inQuotes name ++ " is not identified."
  | .invalidIdentifier name => "Invalid identifier " ++ inQuotes name ++ "."
  | .duplicateIdentifier name => "Variable name duplication " ++ inQuotes name ++ "."
  | .invalidKind name => "Invalid data type " ++ inQuotes name ++ "."
  | .badLiteral cause => "Failed to tokenize: " ++ cause.message ++ "."
  | .invalidStatement text => "Invalid statement: " ++ String.ofList text

end LineCause

namespace Rejection

def line? : Rejection → Option Nat
  | .onLine line _ => some line
  | _ => none

def stage : Rejection → Stage
  | .onLine _ cause => cause.stage
  | _ => .layout

def message : Rejection → String
  | .emptyFile => "File is empty."
  | .missingBegin => "Algorithm begin body is missing."
  | .onLine line cause => Pseudocode.onLine line cause.message

end Rejection

end Pseudocode
