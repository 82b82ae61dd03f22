import Pseudocode.Proofs.Moves

/-!
Runs in step. A session can be changed without its statements noticing: they report what they would
have reported, and leave what they would have left, with the change. It is enough to look at the
reading of a single name, at an output statement and at an assignment. And where a change goes
unnoticed only up to some event, it is enough to look at those that come before it.
-/

namespace Pseudocode

section Actions

variable {State Action Result Error : Type}

/-- A change of the state does not disturb an action: the same is reported and the same is left,
with the change. What is left is valid as well. -/
structure Commutes (act : State → Action → Result × State) (change : State → State)
    (valid : State → Prop) (state : State) (action : Action) : Prop where
  kept : valid (act state action).2
  same : act (change state) action = ((act state action).1, change (act state action).2)

theorem Commutes.of_results {act : State → Action → Result × State} {change : State → State}
    {valid : State → Prop} {state after : State} {action : Action} {result : Result}
    (plain : act state action = (result, after))
    (changed : act (change state) action = (result, change after)) (kept : valid after) :
    Commutes act change valid state action :=
  ⟨by rwa [plain], by rw [plain, changed]⟩

/-- A change that disturbs no single action does not disturb a list of them. Only actions that end
well have to be considered, where a list that ends well has been well all along. -/
theorem untilFault_commutes {act : State → Action → Option Error × State}
    {change : State → State} {valid : State → Prop} (well : Option Error × State → Prop)
    (single : ∀ {state action}, valid state → well (act state action) →
      Commutes act change valid state action)
    (earlier : ∀ {state actions}, well (untilFault act state actions) → well (none, state))
    {state : State} {actions : List Action} (start : valid state)
    (ended : well (untilFault act state actions)) :
    Commutes (untilFault act) change valid state actions := by
  induction actions generalizing state with
  | nil => exact ⟨start, rfl⟩
  | cons action rest ih =>
      rcases done : act state action with ⟨_ | error, after⟩
      · have later : untilFault act state (action :: rest) = untilFault act after rest := by
          simp only [untilFault, done]
        rw [later] at ended
        have first := single start (by rw [done]; exact earlier ended)
        have others := ih (by simpa only [done] using first.kept) ended
        refine ⟨by rw [later]; exact others.kept, ?_⟩
        rw [later, ← others.same]
        simp only [untilFault, first.same, done]
      · have stopped : untilFault act state (action :: rest) = act state action := by
          simp only [untilFault, done]
        rw [stopped] at ended
        have first := single start ended
        refine ⟨by rw [stopped]; exact first.kept, ?_⟩
        rw [stopped]
        simp only [untilFault, first.same, done]

end Actions

namespace Session

/-- A change that readings, output statements and assignments do not notice if they end well. What
leads to a good end has been good before. -/
structure Unnoticed (change : Session → Session) (valid : Session → Prop)
    (well : Step → Prop) : Prop where
  earlier {before after : Session} {fault : Option Fault} :
    before.Leads after → well (fault, after) → well (none, before)
  reads {session : Session} {name : Text} : valid session → well (session.readName name) →
    Commutes readName change valid session name
  writes {session : Session} {statement : Text} : valid session → well (session.write statement) →
    Commutes write change valid session statement
  assigns {session : Session} {statement : Text} : valid session →
    Commutes assign change valid session statement

namespace Unnoticed

variable {change : Session → Session} {valid : Session → Prop} {well : Step → Prop}
  (unnoticed : Unnoticed change valid well) {session : Session} (start : valid session)
include unnoticed start

theorem readNames {names : List Text} (ended : well (session.readNames names)) :
    Commutes Session.readNames change valid session names := by
  have known : Session.readNames = untilFault readTrimmed := by
    funext session names
    exact readNames_eq session names
  rw [known] at ended ⊢
  refine untilFault_commutes well ?_ ?_ start ended
  · intro session name start ended
    obtain ⟨kept, same⟩ := unnoticed.reads start ended
    exact ⟨kept, same⟩
  · intro session names ended
    rw [← readNames_eq] at ended
    exact unnoticed.earlier (readNames_leads session names) ended

theorem perform {command : Command} {statement : Text}
    (ended : well (session.perform command statement)) :
    Commutes (fun session => session.perform command) change valid session statement := by
  cases command with
  | write => exact unnoticed.writes start ended
  | assign => exact unnoticed.assigns start
  | read =>
      change well (session.read statement) at ended
      change Commutes Session.read change valid session statement
      rcases call : callArguments Command.read.keyword statement with fault | arguments
      · have refused (session : Session) : session.read statement = (some fault, session) := by
          simp only [Session.read, call]
        exact .of_results (refused _) (refused _) start
      · have names (session : Session) :
            session.read statement = session.readNames (Text.parts ',' arguments) := by
          simp only [Session.read, call]
        rw [names] at ended
        obtain ⟨kept, same⟩ := unnoticed.readNames start ended
        exact ⟨by rwa [names], by rwa [names, names]⟩

theorem step {statement : Statement}
    (ended : well (session.perform statement.command statement.text)) :
    Commutes Session.step change valid session statement := by
  obtain ⟨kept, same⟩ := unnoticed.perform start ended
  refine ⟨kept, ?_⟩
  simp only [Session.step, same]

/-- A run that ends well does not notice the change either. -/
theorem run {statements : List Statement}
    (ended : well ((session.run statements).1.map RunError.fault, (session.run statements).2)) :
    Commutes Session.run change valid session statements := by
  have known : Session.run = untilFault Session.step := by
    funext session statements
    exact run_eq session statements
  rw [known] at ended ⊢
  refine untilFault_commutes (fun result => well (result.1.map RunError.fault, result.2))
    ?_ ?_ start ended
  · intro session statement start ended
    have reported : (session.step statement).1.map RunError.fault =
        (session.perform statement.command statement.text).1 := by
      simp [Session.step, Function.comp_def]
    rw [reported] at ended
    exact unnoticed.step start ended
  · intro session statements ended
    rw [← run_eq] at ended
    exact unnoticed.earlier (run_leads session statements) ended

end Unnoticed

/-- The same tables with another input and another output. -/
def rewired (onInput : Reader → Reader) (onOutput : Output → Output) (session : Session) :
    Session :=
  ⟨session.scope, onInput session.input, onOutput session.output⟩

theorem write_of_text (session : Session) {statement text : Text}
    (offered : session.scope.outputText statement = .ok text) :
    session.write statement =
      ((session.output.write (Text.toUtf8 text)).1.map .disrupted,
        { session with output := (session.output.write (Text.toUtf8 text)).2 }) := by
  simp only [write, offered]

section Rewired

variable {onInput : Reader → Reader} {onOutput : Output → Output} {valid : Session → Prop}
  {session : Session} {statement : Text}

/-- An assignment depends on the tables only. -/
theorem assign_rewired (start : valid session)
    (stored : ∀ table, valid (session.setVariables table)) :
    Commutes assign (rewired onInput onOutput) valid session statement := by
  rcases assigned : session.scope.assigned statement with fault | table
  · have refused (other : Session) (same : other.scope = session.scope) :
        other.assign statement = (some fault, other) := by
      simp only [assign, same, assigned]
    exact .of_results (refused _ rfl) (refused _ rfl) start
  · have taken (other : Session) (same : other.scope = session.scope) :
        other.assign statement = (none, other.setVariables table) := by
      simp only [assign, same, assigned]
    exact .of_results (taken _ rfl) (taken _ rfl) (stored table)

/-- An output statement makes its text from the tables, and offers it to the output as a whole. -/
theorem write_rewired (start : valid session)
    (offers : ∀ text, session.scope.outputText statement = .ok text →
      valid { session with output := (session.output.write (Text.toUtf8 text)).2 } ∧
      (onOutput session.output).write (Text.toUtf8 text) =
        ((session.output.write (Text.toUtf8 text)).1,
          onOutput (session.output.write (Text.toUtf8 text)).2)) :
    Commutes write (rewired onInput onOutput) valid session statement := by
  rcases offered : session.scope.outputText statement with fault | text
  · have refused (other : Session) (same : other.scope = session.scope) :
        other.write statement = (some fault, other) := by
      simp only [write, same, offered]
    exact .of_results (refused _ rfl) (refused _ rfl) start
  · obtain ⟨kept, same⟩ := offers text offered
    refine .of_results (write_of_text session offered) ?_ kept
    have changed := write_of_text (session.rewired onInput onOutput) offered
    simp only [rewired, same] at changed
    exact changed

end Rewired

end Session

end Pseudocode
