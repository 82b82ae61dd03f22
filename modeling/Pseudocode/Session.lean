import Pseudocode.Expr.Evaluation
import Pseudocode.Reader
import Pseudocode.Statement
import Pseudocode.Text.Quotes

/-!
Running statements. A session holds the tables, the unread input and the output; a
statement turns a session into the next one and may report a fault. What a failing
statement leaves behind is part of its meaning: an assignment leaves everything as it
was, an output statement has written nothing unless the output failed, and an input
statement keeps the names it had already read.
-/

namespace Pseudocode

/-- An output with the bytes it has taken so far. What it does with more may depend on all
that came before: `refuse` gets the number of earlier attempts, the bytes taken and the bytes
offered, and says how many of these are taken before which disruption; `none` takes all. -/
structure Output where
  written : Bytes
  attempts : Nat
  refuse : Nat → Bytes → Bytes → Option (Nat × Disruption)

namespace Output

def unlimited : Output := ⟨[], 0, fun _ _ _ => none⟩

/-- Has room for `capacity` bytes; a text that does not fit is taken as far as it fits. -/
def limited (capacity : Nat) : Output :=
  ⟨[], 0, fun _ written bytes =>
    if bytes.length ≤ capacity - written.length then none
    else some (capacity - written.length, .outputFull)⟩

def write (output : Output) (bytes : Bytes) : Option Disruption × Output :=
  match output.refuse output.attempts output.written bytes with
  | none =>
      (none, { output with
        written := output.written ++ bytes, attempts := output.attempts + 1 })
  | some (count, cause) =>
      (some cause, { output with
        written := output.written ++ bytes.take count, attempts := output.attempts + 1 })

end Output

structure Session where
  scope : Scope
  input : Reader
  output : Output

/-- The arguments between the parentheses of `keyword(...);`. -/
def callArguments? (keyword statement : Text) : Option Text := do
  let rest ← Text.after? keyword statement
  let opened ← Text.after? ['('] (Text.trimStart rest)
  let ended ← Text.before? ';' opened
  Text.before? ')' (Text.trimEnd ended)

def callArguments (keyword statement : Text) : Except Fault Text :=
  match callArguments? keyword statement with
  | some arguments => .ok arguments
  | none => .error (.malformed (.call keyword statement))

namespace Scope

def argumentText (scope : Scope) (argument : Text) : Except Fault Text :=
  if argument.isEmpty then .error (.malformed .blankArgument)
  -- One quote at either end makes it a literal, which then has to be a whole one.
  else if argument.head? = some '"' || argument.getLast? = some '"' then
    match Text.unquote? argument with
    | some text => .ok text
    | none => .error (.badLiteral argument)
  else match scope.shown? argument with
    | none => .error (.undefined argument)
    | some value => if value.isUnset then .error (.unset argument) else .ok value.text

def argumentTexts (scope : Scope) : List Text → Except Fault Text
  | [] => .ok []
  | argument :: rest => do
      let first ← scope.argumentText (Text.trim argument)
      let others ← scope.argumentTexts rest
      .ok (first ++ others)

def outputText (scope : Scope) (statement : Text) : Except Fault Text := do
  let arguments ← callArguments Command.write.keyword statement
  if (Text.trim arguments).isEmpty then .ok []
  else scope.argumentTexts (Text.openParts ',' arguments)

def assigned (scope : Scope) (statement : Text) : Except Fault Symbols :=
  match Text.cut? '=' statement with
  | none => .error (.malformed (.assignment statement))
  | some (left, right) =>
      let name := Text.trim left
      if scope.constants.contains name then .error (.assignsConstant name)
      else match scope.variables.get? name with
        | none => .error (.undefined name)
        | some old => do
            -- Any number of semicolons ends an assignment.
            let source := Text.trimEnd (Text.trimTail (· = ';') (Text.trim right))
            let number ← scope.evaluate source
            let value ← (Value.number number).coerce old.kind name
            .ok (scope.variables.store name value)

end Scope

def Reader.nextText (reader : Reader) : Kind → Reading × Reader
  | .string => reader.nextLine
  | .integer | .real => reader.nextWord

/-- A string is taken as it stands; a number is read like its literal. -/
def Kind.ofInput? : Kind → Text → Option Value
  | .string, text => some (.string text)
  | kind, text => kind.literal? text

def Kind.ofInput (kind : Kind) (text : Text) : Except Fault Value :=
  match kind.ofInput? text with
  | some value => .ok value
  | none => .error (.mismatch (.unreadable kind text))

def Reader.nextValue (reader : Reader) (kind : Kind) : Except Fault Value × Reader :=
  match reader.nextText kind with
  | (.error cause, after) => (.error (.disrupted cause), after)
  | (.ok none, after) => (.error .endOfInput, after)
  | (.ok (some text), after) => (kind.ofInput text, after)

namespace Session

abbrev Step := Option Fault × Session

def setVariables (session : Session) (table : Symbols) : Session :=
  { session with scope := ⟨session.scope.constants, table⟩ }

def readName (session : Session) (name : Text) : Step :=
  if name.isEmpty then (some (.malformed .blankName), session)
  else if session.scope.constants.contains name then (some (.readsConstant name), session)
  else match session.scope.variables.get? name with
    | none => (some (.undefined name), session)
    | some old =>
        match session.input.nextValue old.kind with
        | (.error fault, after) => (some fault, { session with input := after })
        | (.ok value, after) =>
            (none, { session with input := after }.setVariables
              (session.scope.variables.store name value))

/-- Reads variables in turn, up to the first fault. -/
def readNames (session : Session) : List Text → Step
  | [] => (none, session)
  | name :: rest =>
      match session.readName (Text.trim name) with
      | (some fault, after) => (some fault, after)
      | (none, after) => after.readNames rest

def read (session : Session) (statement : Text) : Step :=
  match callArguments Command.read.keyword statement with
  | .error fault => (some fault, session)
  | .ok arguments => session.readNames (Text.parts ',' arguments)

def write (session : Session) (statement : Text) : Step :=
  match session.scope.outputText statement with
  | .error fault => (some fault, session)
  | .ok text =>
      let (disruption, output) := session.output.write (Text.toUtf8 text)
      (disruption.map .disrupted, { session with output := output })

def assign (session : Session) (statement : Text) : Step :=
  match session.scope.assigned statement with
  | .error fault => (some fault, session)
  | .ok table => (none, session.setVariables table)

def perform (session : Session) : Command → Text → Step
  | .write, statement => session.write statement
  | .read, statement => session.read statement
  | .assign, statement => session.assign statement

def step (session : Session) (statement : Statement) : Option RunError × Session :=
  let (fault, after) := session.perform statement.command statement.text
  (fault.map fun fault => ⟨statement.line, fault⟩, after)

/-- Runs statements in turn, up to the first that fails. -/
def run (session : Session) : List Statement → Option RunError × Session
  | [] => (none, session)
  | statement :: rest =>
      match session.step statement with
      | (some error, after) => (some error, after)
      | (none, after) => after.run rest

/-- Runs all statements, going on after failures; each entry is what one statement
reported and the session it left. -/
def trace (session : Session) : List Statement → List (Option RunError × Session)
  | [] => []
  | statement :: rest =>
      let (error, after) := session.step statement
      (error, after) :: after.trace rest

end Session

end Pseudocode
