import Pseudocode.Proofs.Descent

/-!
Where the line of an error comes from. A statement is run with its line number, and the line goes
along into everything that can fail on its behalf: the reading of arguments, the look-up of names,
the tokens, the grammar, the arithmetic, the conversion of the result, the input and the output.
Each of these raises its own error, complete with the line it was handed. That is how the
functions of this module work. Running a statement for its fault alone, and putting the line to it
once at the end, comes to the same: `execute_eq` says so for every session, command, text and line.
-/

namespace Pseudocode.Reported

variable {α β : Type} (line : Nat)

def raise (fault : Fault) : Except RunError α := .error ⟨line, fault⟩

def checked : Option Integer → Except RunError Number
  | some n => .ok (.integer n)
  | none => raise line .overflow

def applySign : Sign → Number → Except RunError Number
  | .plus, number => .ok number
  | .minus, .integer n => checked line n.neg?
  | .minus, .real x => .ok (.real x.neg)

def applyIntegers (op : Operator) (a b : Integer) : Except RunError Number :=
  match op with
  | .add => checked line (a.add? b)
  | .sub => checked line (a.sub? b)
  | .mul => checked line (a.mul? b)
  | .div =>
      if b.val = 0 then raise line .divisionByZero
      else if a.val.tmod b.val = 0 then checked line (a.div? b)
      else .ok (.real ((Binary64.ofInt a.val).div (Binary64.ofInt b.val)))

def checkedReal (x : Binary64) : Except RunError Number :=
  if x.isFinite then .ok (.real x) else raise line .overflow

def applyReals (op : Operator) (x y : Binary64) : Except RunError Number :=
  match op with
  | .add => checkedReal line (x.add y)
  | .sub => checkedReal line (x.sub y)
  | .mul => checkedReal line (x.mul y)
  | .div => if y.isZero then raise line .divisionByZero else checkedReal line (x.div y)

def apply (op : Operator) : Number → Number → Except RunError Number
  | .integer a, .integer b => applyIntegers line op a b
  | a, b => applyReals line op a.toReal b.toReal

def eval : Expr Number → Except RunError Number
  | .leaf number => .ok number
  | .signed sign operand => do
      let value ← eval operand
      applySign line sign value
  | .binary left op right => do
      let a ← eval left
      let b ← eval right
      apply line op a b

def lex : Text → Except RunError (List Token)
  | [] => .ok []
  | c :: rest =>
      if isSpace c then lex rest
      else match _found : Lexeme.scan c rest with
        | none => raise line (.badExpression (.badToken [c]))
        | some (lexeme, after) =>
            match lexeme.token? with
            | none => raise line (.badExpression (.badToken lexeme.spelling))
            | some token => (lex after).map (token :: ·)
termination_by text => text.length
decreasing_by
  · simp
  · exact Lexeme.scan_shorter _found

def number (scope : Scope) (name : Text) : Except RunError Number :=
  match scope.operand? name with
  | none => raise line (.undefined name)
  | some (.number n) => .ok n
  | some (.string _) => raise line (.mismatch (.stringOperand name))
  | some (.unset _) => raise line (.unset name)

def resolve (scope : Scope) : Token → Except RunError Token
  | .atom (.name name) => (number line scope name).map fun n => .atom (.number n)
  | token => .ok token

def resolveAll (scope : Scope) : List Token → Except RunError (List Token)
  | [] => .ok []
  | token :: rest => do
      let first ← resolve line scope token
      let others ← resolveAll scope rest
      .ok (first :: others)

def evaluate (scope : Scope) (source : Text) : Except RunError Number := do
  let tokens ← lex line source
  let resolved ← resolveAll line scope tokens
  let expr ← Expr.descend Atom.number? line resolved
  eval line expr

def toInteger (x : Binary64) : Except RunError Integer :=
  if !x.isFinite then raise line (.mismatch (.notFinite x))
  else if x.lt (.ofInt Integer.lowest.val) || (Binary64.ofInt Integer.highest.val).le x then
    raise line .overflow
  else if !x.isWhole then raise line (.mismatch (.fractional x))
  else .ok x.wholePart

def convert : Kind → Number → Except RunError Number
  | .integer, .real x => (toInteger line x).map .integer
  | .real, number => .ok (.real number.toReal)
  | _, number => .ok number

def toNumber : Value → Except RunError Number
  | .number n => .ok n
  | value => raise line (.mismatch (.notNumber value.kind))

def coerce (value : Value) (target : Kind) (name : Text) : Except RunError Value :=
  if !target.isNumeric then raise line (.notNumericTarget name target)
  else (toNumber line value).bind fun n => (convert line target n).map Value.number

def assigned (scope : Scope) (statement : Text) : Except RunError Symbols :=
  match Text.cut? '=' statement with
  | none => raise line (.malformed (.assignment statement))
  | some (left, right) =>
      let name := Text.trim left
      if scope.constants.contains name then raise line (.assignsConstant name)
      else match scope.variables.get? name with
        | none => raise line (.undefined name)
        | some old => do
            let source := Text.trimEnd (Text.trimTail (· = ';') (Text.trim right))
            let number ← evaluate line scope source
            let value ← coerce line (.number number) old.kind name
            .ok (scope.variables.store name value)

def callArguments (keyword statement : Text) : Except RunError Text :=
  match callArguments? keyword statement with
  | some arguments => .ok arguments
  | none => raise line (.malformed (.call keyword statement))

def argumentText (scope : Scope) (argument : Text) : Except RunError Text :=
  if argument.isEmpty then raise line (.malformed .blankArgument)
  else if argument.head? = some '"' || argument.getLast? = some '"' then
    match Text.unquote? argument with
    | some text => .ok text
    | none => raise line (.badLiteral argument)
  else match scope.shown? argument with
    | none => raise line (.undefined argument)
    | some value => if value.isUnset then raise line (.unset argument) else .ok value.text

def argumentTexts (scope : Scope) : List Text → Except RunError Text
  | [] => .ok []
  | argument :: rest => do
      let first ← argumentText line scope (Text.trim argument)
      let others ← argumentTexts scope rest
      .ok (first ++ others)

def outputText (scope : Scope) (statement : Text) : Except RunError Text := do
  let arguments ← callArguments line Command.write.keyword statement
  if (Text.trim arguments).isEmpty then .ok []
  else argumentTexts line scope (Text.openParts ',' arguments)

def ofInput (kind : Kind) (text : Text) : Except RunError Value :=
  match kind.ofInput? text with
  | some value => .ok value
  | none => raise line (.mismatch (.unreadable kind text))

def nextValue (reader : Reader) (kind : Kind) : Except RunError Value × Reader :=
  match reader.nextText kind with
  | (.error cause, after) => (raise line (.disrupted cause), after)
  | (.ok none, after) => (raise line .endOfInput, after)
  | (.ok (some text), after) => (ofInput line kind text, after)

/-- What running a statement gives: an error, and the session it leaves. -/
abbrev Report := Option RunError × Session

def readName (session : Session) (name : Text) : Report :=
  if name.isEmpty then (some ⟨line, .malformed .blankName⟩, session)
  else if session.scope.constants.contains name then (some ⟨line, .readsConstant name⟩, session)
  else match session.scope.variables.get? name with
    | none => (some ⟨line, .undefined name⟩, session)
    | some old =>
        match nextValue line session.input old.kind with
        | (.error error, after) => (some error, { session with input := after })
        | (.ok value, after) =>
            (none, { session with input := after }.setVariables
              (session.scope.variables.store name value))

def readNames (session : Session) : List Text → Report
  | [] => (none, session)
  | name :: rest =>
      match readName line session (Text.trim name) with
      | (some error, after) => (some error, after)
      | (none, after) => readNames after rest

def read (session : Session) (statement : Text) : Report :=
  match callArguments line Command.read.keyword statement with
  | .error error => (some error, session)
  | .ok arguments => readNames line session (Text.parts ',' arguments)

def write (session : Session) (statement : Text) : Report :=
  match outputText line session.scope statement with
  | .error error => (some error, session)
  | .ok text =>
      let (disruption, output) := session.output.write (Text.toUtf8 text)
      (disruption.map fun cause => ⟨line, .disrupted cause⟩, { session with output := output })

def assign (session : Session) (statement : Text) : Report :=
  match assigned line session.scope statement with
  | .error error => (some error, session)
  | .ok table => (none, session.setVariables table)

def execute (session : Session) : Command → Text → Report
  | .write, statement => write line session statement
  | .read, statement => read line session statement
  | .assign, statement => assign line session statement

section Results

/-- A result for its fault alone, with the line put to the fault. -/
def onLine (result : Except Fault α) : Except RunError α := result.mapError (RunError.mk line)

@[simp]
theorem onLine_ok (value : α) : onLine line (.ok value) = .ok value := rfl

@[simp]
theorem onLine_error (fault : Fault) :
    onLine line (.error fault : Except Fault α) = raise line fault := rfl

theorem onLine_bind (first : Except Fault α) (next : α → Except Fault β) :
    onLine line (first >>= next) = onLine line first >>= fun value => onLine line (next value) := by
  cases first with
  | error fault => rfl
  | ok value => rfl

theorem onLine_map (first : Except Fault α) (change : α → β) :
    onLine line (first.map change) = (onLine line first).map change := by
  cases first with
  | error fault => rfl
  | ok value => rfl

end Results

theorem checked_eq (n : Option Integer) : checked line n = onLine line (Number.checked n) := by
  cases n with
  | none => rfl
  | some n => rfl

theorem applySign_eq (sign : Sign) (n : Number) :
    applySign line sign n = onLine line (n.applySign sign) := by
  match sign, n with
  | .plus, _ => rfl
  | .minus, .integer n => exact checked_eq line n.neg?
  | .minus, .real x => rfl

theorem applyIntegers_eq (op : Operator) (a b : Integer) :
    applyIntegers line op a b = onLine line (Number.applyIntegers op a b) := by
  cases op with
  | add | sub | mul => exact checked_eq line _
  | div =>
      simp only [applyIntegers, Number.applyIntegers, apply_ite (onLine line), checked_eq,
        onLine_error, onLine_ok]

theorem checkedReal_eq (x : Binary64) :
    checkedReal line x = onLine line (Number.checkedReal x) := by
  simp only [checkedReal, Number.checkedReal, apply_ite (onLine line), onLine_error, onLine_ok]

theorem applyReals_eq (op : Operator) (x y : Binary64) :
    applyReals line op x y = onLine line (Number.applyReals op x y) := by
  cases op with
  | add | sub | mul => exact checkedReal_eq line _
  | div =>
      simp only [applyReals, Number.applyReals, apply_ite (onLine line), checkedReal_eq,
        onLine_error]

theorem apply_eq (op : Operator) (a b : Number) :
    apply line op a b = onLine line (Number.apply op a b) := by
  match a, b with
  | .integer a, .integer b => exact applyIntegers_eq line op a b
  | .integer a, .real y => exact applyReals_eq line op _ _
  | .real x, b => exact applyReals_eq line op _ _

theorem eval_eq (expr : Expr Number) : eval line expr = onLine line expr.eval := by
  induction expr with
  | leaf number => rfl
  | signed sign operand ih => simp only [eval, Expr.eval, ih, onLine_bind, applySign_eq]
  | binary left op right first second =>
      simp only [eval, Expr.eval, first, second, onLine_bind, apply_eq]

theorem lex_visible {c : Char} (visible : ¬ isSpace c = true) (rest : Text) :
    lex line (c :: rest) = match Lexeme.scan c rest with
      | none => raise line (.badExpression (.badToken [c]))
      | some (lexeme, after) =>
          match lexeme.token? with
          | none => raise line (.badExpression (.badToken lexeme.spelling))
          | some token => (lex line after).map (token :: ·) := by
  rw [lex, if_neg visible]
  grind

theorem lex_eq (source : Text) :
    lex line source = onLine line ((Pseudocode.lex source).mapError .badExpression) := by
  fun_induction Pseudocode.lex source with
  | case1 => rw [lex]; rfl
  | case2 c rest space ih => rw [lex, if_pos space, ih]
  | case3 c rest visible unknown => rw [lex_visible line visible, unknown]; rfl
  | case4 c rest visible lexeme after found spoiled =>
      simp only [lex_visible line visible, found, spoiled]
      rfl
  | case5 c rest visible lexeme after found token known ih =>
      simp only [lex_visible line visible, found, known, ih]
      cases Pseudocode.lex after with
      | error cause => rfl
      | ok tokens => rfl

theorem number_eq (scope : Scope) (name : Text) :
    number line scope name = onLine line (scope.number name) := by
  unfold number Scope.number
  match scope.operand? name with
  | none | some (.number _) | some (.string _) | some (.unset _) => rfl

theorem resolve_eq (scope : Scope) (token : Token) :
    resolve line scope token = onLine line (scope.resolve token) := by
  match token with
  | .atom (.name name) => rw [resolve, Scope.resolve, number_eq, onLine_map]
  | .atom (.number _) | .operator _ | .opening | .closing => rfl

theorem resolveAll_eq (scope : Scope) (tokens : List Token) :
    resolveAll line scope tokens = onLine line (scope.resolveAll tokens) := by
  induction tokens with
  | nil => rfl
  | cons token rest ih =>
      simp only [resolveAll, Scope.resolveAll, ih, resolve_eq, onLine_bind, onLine_ok]

theorem descend_onLine (tokens : List Token) :
    Expr.descend Atom.number? line tokens =
      onLine line ((Expr.parse Atom.number? tokens).mapError .badExpression) := by
  rw [Expr.descend_eq]
  cases Expr.parse Atom.number? tokens with
  | error cause => rfl
  | ok expr => rfl

theorem evaluate_eq (scope : Scope) (source : Text) :
    evaluate line scope source = onLine line (scope.evaluate source) := by
  simp only [evaluate, Scope.evaluate, onLine_bind, lex_eq, resolveAll_eq, descend_onLine, eval_eq]

theorem toInteger_eq (x : Binary64) : toInteger line x = onLine line x.toInteger := by
  simp only [toInteger, Binary64.toInteger, apply_ite (onLine line), onLine_error, onLine_ok]

theorem convert_eq (kind : Kind) (n : Number) :
    convert line kind n = onLine line (n.convert kind) := by
  match kind, n with
  | .integer, .real x => rw [convert, Number.convert, toInteger_eq, onLine_map]
  | .integer, .integer _ | .real, _ | .string, _ => rfl

theorem toNumber_eq (value : Value) : toNumber line value = onLine line value.toNumber := by
  cases value with
  | number n => rfl
  | string text => rfl
  | unset kind => rfl

theorem coerce_eq (value : Value) (target : Kind) (name : Text) :
    coerce line value target name = onLine line (value.coerce target name) := by
  simp only [coerce, Value.coerce, apply_ite (onLine line), toNumber_eq, onLine_error]
  congr 1
  cases value.toNumber with
  | error fault => rfl
  | ok n =>
      change (convert line target n).map Value.number = onLine line ((n.convert target).map _)
      rw [convert_eq, onLine_map]

theorem assigned_eq (scope : Scope) (statement : Text) :
    assigned line scope statement = onLine line (scope.assigned statement) := by
  unfold assigned Scope.assigned
  cases Text.cut? '=' statement with
  | none => rfl
  | some sides =>
      obtain ⟨left, right⟩ := sides
      by_cases constant : scope.constants.contains (Text.trim left) = true
      · simp only [constant, ↓reduceIte, onLine_error]
      · simp only [constant, Bool.false_eq_true, ↓reduceIte]
        cases scope.variables.get? (Text.trim left) with
        | none => rfl
        | some old => simp only [evaluate_eq, coerce_eq, onLine_bind, onLine_ok]

theorem callArguments_eq (keyword statement : Text) :
    callArguments line keyword statement =
      onLine line (Pseudocode.callArguments keyword statement) := by
  unfold callArguments Pseudocode.callArguments
  cases callArguments? keyword statement with
  | none => rfl
  | some arguments => rfl

theorem argumentText_eq (scope : Scope) (argument : Text) :
    argumentText line scope argument = onLine line (scope.argumentText argument) := by
  simp only [argumentText, Scope.argumentText, apply_ite (onLine line), onLine_error]
  congr 2
  · cases Text.unquote? argument with
    | none => rfl
    | some text => rfl
  · cases scope.shown? argument with
    | none => rfl
    | some value => simp only [apply_ite (onLine line), onLine_error, onLine_ok]

theorem argumentTexts_eq (scope : Scope) (arguments : List Text) :
    argumentTexts line scope arguments = onLine line (scope.argumentTexts arguments) := by
  induction arguments with
  | nil => rfl
  | cons argument rest ih =>
      simp only [argumentTexts, Scope.argumentTexts, ih, argumentText_eq, onLine_bind, onLine_ok]

theorem outputText_eq (scope : Scope) (statement : Text) :
    outputText line scope statement = onLine line (scope.outputText statement) := by
  simp only [outputText, Scope.outputText, callArguments_eq, argumentTexts_eq, onLine_bind,
    apply_ite (onLine line), onLine_ok]

theorem ofInput_eq (kind : Kind) (text : Text) :
    ofInput line kind text = onLine line (kind.ofInput text) := by
  unfold ofInput Kind.ofInput
  cases kind.ofInput? text with
  | none => rfl
  | some value => rfl

theorem nextValue_eq (reader : Reader) (kind : Kind) :
    nextValue line reader kind =
      (onLine line (reader.nextValue kind).1, (reader.nextValue kind).2) := by
  unfold nextValue Reader.nextValue
  rcases reader.nextText kind with ⟨cause | _ | text, after⟩
  · rfl
  · rfl
  · simp only [ofInput_eq]

/-- What a statement gives for its fault alone, with the line put to the fault. -/
def stamped (step : Session.Step) : Report := (step.1.map (RunError.mk line), step.2)

theorem readName_eq (session : Session) (name : Text) :
    readName line session name = stamped line (session.readName name) := by
  simp only [readName, Session.readName, apply_ite (stamped line), nextValue_eq]
  congr 2
  cases session.scope.variables.get? name with
  | none => rfl
  | some old =>
      dsimp only
      rcases session.input.nextValue old.kind with ⟨fault | value, after⟩
      · rfl
      · rfl

theorem readNames_eq (session : Session) (names : List Text) :
    readNames line session names = stamped line (session.readNames names) := by
  induction names generalizing session with
  | nil => rfl
  | cons name rest ih =>
      simp only [readNames, Session.readNames, readName_eq]
      rcases session.readName (Text.trim name) with ⟨_ | fault, after⟩
      · exact ih after
      · rfl

theorem read_eq (session : Session) (statement : Text) :
    read line session statement = stamped line (session.read statement) := by
  simp only [read, Session.read, callArguments_eq]
  cases Pseudocode.callArguments Command.read.keyword statement with
  | error fault => rfl
  | ok arguments => exact readNames_eq line session (Text.parts ',' arguments)

theorem write_eq (session : Session) (statement : Text) :
    write line session statement = stamped line (session.write statement) := by
  simp only [write, Session.write, outputText_eq]
  cases session.scope.outputText statement with
  | error fault => rfl
  | ok text =>
      simp only [onLine_ok]
      rcases session.output.write (Text.toUtf8 text) with ⟨_ | cause, output⟩ <;> rfl

theorem assign_eq (session : Session) (statement : Text) :
    assign line session statement = stamped line (session.assign statement) := by
  simp only [assign, Session.assign, assigned_eq]
  cases session.scope.assigned statement with
  | error fault => rfl
  | ok table => rfl

/-- Handing the line down to every error and putting it to the fault at the end are the same. -/
theorem execute_eq (session : Session) (statement : Statement) :
    execute statement.line session statement.command statement.text = session.step statement := by
  change _ = stamped statement.line (session.perform statement.command statement.text)
  cases statement.command with
  | write => exact write_eq _ session statement.text
  | read => exact read_eq _ session statement.text
  | assign => exact assign_eq _ session statement.text

end Pseudocode.Reported
