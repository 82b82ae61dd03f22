import Pseudocode.Declaration
import Pseudocode.Session

/-!
Programs: loading one from its source, running it, and listing what it holds. A run
keeps the values of the variables for the next run of the same program.
-/

namespace Pseudocode

structure Program where
  name : Text
  scope : Scope
  statements : List Statement
  deriving DecidableEq

namespace Program

def loadWith (commands : List Command) (source : Text) : Except Rejection Program := do
  let outline ← Outline.ofLines (sourceLines source)
  match Scope.empty.declareAll outline.declarations with
  | (_, some rejection) => .error rejection
  | (scope, none) =>
      let statements ← Statement.ofLines commands scope outline.body
      .ok ⟨outline.name, scope, statements⟩

def load (source : Text) : Except Rejection Program := loadWith Command.standard source

def session (program : Program) (input : Bytes) (output : Output) : Session :=
  ⟨program.scope, .ofBytes input, output⟩

/-- What a run leaves: the error that stopped it, the program with its new values, and
the bytes it wrote. -/
structure Outcome where
  error : Option RunError
  program : Program
  output : Bytes
  deriving DecidableEq

def run (program : Program) (input : Bytes) (output : Output) : Outcome :=
  let (error, after) := (program.session input output).run program.statements
  ⟨error, { program with scope := after.scope }, after.output.written⟩

/-- Runs the program once per input, each time with a fresh output. -/
def runAll (program : Program) (output : Output) : List Bytes → List Outcome
  | [] => []
  | input :: rest =>
      let outcome := program.run input output
      outcome :: outcome.program.runAll output rest

def listingLine (kind : String) (entry : Text × Value) : Text :=
  let value := if entry.2.isUnset then "<unset>".toList else entry.2.text
  "[DUMP] ".toList ++ kind.toList ++ [' '] ++ entry.1 ++ " : ".toList ++ entry.2.kind.name ++
    " = ".toList ++ value ++ ['\n']

/-- The program's name and all it holds, constants first. -/
def listing (program : Program) : Text :=
  "[DUMP] Algorithm ".toList ++ program.name ++ ['\n'] ++
    program.scope.constants.entries.flatMap (listingLine "constant") ++
    program.scope.variables.entries.flatMap (listingLine "variable")

end Program

inductive Interpretation where
  | rejected (rejection : Rejection)
  | ran (outcome : Program.Outcome)

def interpret (source : Text) (input : Bytes) : Interpretation :=
  match Program.load source with
  | .error rejection => .rejected rejection
  | .ok program => .ran (program.run input .unlimited)

end Pseudocode
