import Mathlib.Logic.Relation
import Pseudocode.Proofs.Loading

/-!
What a running program can do, one move at a time. It stores a value that it has read, it asks the
input in vain, it stores the value of an expression made to fit its variable, or it offers bytes to
the output. Statements and whole runs are sequences of such moves, and those that fail are
sequences that end early. So whatever a single move keeps is kept by every run.

Names of an input statement and statements of a program are both lists of actions that are carried
out up to the first that fails. What can become of a single name is said once, in `NameRead`.
-/

namespace Pseudocode

section UntilFault

variable {State Action Error : Type} (act : State → Action → Option Error × State)

def untilFault (state : State) : List Action → Option Error × State
  | [] => (none, state)
  | action :: rest =>
      match act state action with
      | (some error, after) => (some error, after)
      | (none, after) => untilFault after rest

/-- What every action keeps is kept by all of them together, wherever they end. -/
theorem untilFault_keeps (keeps : State → State → Prop) (refl : ∀ state, keeps state state)
    (trans : ∀ {first second third}, keeps first second → keeps second third → keeps first third)
    {actions : List Action} (each : ∀ action ∈ actions, ∀ state, keeps state (act state action).2)
    (state : State) : keeps state (untilFault act state actions).2 := by
  induction actions generalizing state with
  | nil => exact refl state
  | cons action rest ih =>
      rw [List.forall_mem_cons] at each
      have first := each.1 state
      rcases done : act state action with ⟨_ | error, after⟩
      · rw [done] at first
        simp only [untilFault, done]
        exact trans first (ih each.2 after)
      · simpa only [untilFault, done] using first

/-- The failing action is the first one that fails after all earlier ones were carried out. -/
theorem untilFault_failed_iff {state after : State} {actions : List Action} {error : Error} :
    untilFault act state actions = (some error, after) ↔
      ∃ front action back middle, actions = front ++ action :: back ∧
        untilFault act state front = (none, middle) ∧ act middle action = (some error, after) := by
  induction actions generalizing state with
  | nil => simp [untilFault]
  | cons first rest ih =>
      rcases done : act state first with ⟨_ | fault, next⟩
      -- After a success the failing action is among the others, and `first` joins its front.
      · simp only [untilFault, done, ih]
        constructor
        · rintro ⟨front, action, back, middle, shape, earlier, failed⟩
          exact ⟨first :: front, action, back, middle, by rw [shape, List.cons_append],
            by simpa only [untilFault, done] using earlier, failed⟩
        · rintro ⟨front, action, back, middle, shape, earlier, failed⟩
          cases front with
          | nil =>
              cases shape
              cases earlier
              rw [done] at failed
              cases failed
          | cons head tail =>
              cases shape
              simp only [untilFault, done] at earlier
              exact ⟨tail, action, back, middle, rfl, earlier, failed⟩
      -- After a failure the front can only be empty.
      · simp only [untilFault, done]
        constructor
        · intro stopped
          exact ⟨[], first, rest, state, rfl, rfl, by rw [done, stopped]⟩
        · rintro ⟨front, action, back, middle, shape, earlier, failed⟩
          cases front with
          | nil =>
              cases shape
              cases earlier
              rw [← done, failed]
          | cons head tail =>
              cases shape
              simp only [untilFault, done] at earlier
              cases earlier

end UntilFault

/-- The faults that show only when input has been asked for. -/
def Fault.needsInput : Fault → Bool
  | .endOfInput | .mismatch _ | .disrupted _ => true
  | _ => false

theorem Kind.ofInput_error {kind : Kind} {text : Text} {fault : Fault}
    (failed : kind.ofInput text = .error fault) : fault.needsInput = true := by
  unfold ofInput at failed
  cases made : kind.ofInput? text with
  | some value =>
      rw [made] at failed
      contradiction
  | none =>
      rw [made] at failed
      cases failed
      rfl

theorem Kind.ofInput_eq_ok {kind : Kind} {text : Text} {value : Value} :
    kind.ofInput text = .ok value ↔ kind.ofInput? text = some value := by
  unfold ofInput
  cases kind.ofInput? text with
  | none => simp
  | some made => simp

theorem Reader.nextValue_error {reader after : Reader} {kind : Kind} {fault : Fault}
    (failed : reader.nextValue kind = (.error fault, after)) : fault.needsInput = true := by
  unfold nextValue at failed
  rcases taken : reader.nextText kind with ⟨cause | _ | text, rest⟩
  · rw [taken] at failed
    cases failed
    rfl
  · rw [taken] at failed
    cases failed
    rfl
  · rw [taken, Prod.mk.injEq] at failed
    exact Kind.ofInput_error failed.1

namespace Session

/-- A name is refused whatever there is to read, or the input is asked for a value. -/
theorem readName_cases (scope : Scope) (name : Text) :
    (∃ fault, fault.needsInput = false ∧ ∀ input output,
      readName ⟨scope, input, output⟩ name = (some fault, ⟨scope, input, output⟩)) ∨
    ∃ old, scope.variables.get? name = some old ∧ ∀ input output,
      readName ⟨scope, input, output⟩ name =
        match input.nextValue old.kind with
        | (.error fault, after) => (some fault, ⟨scope, after, output⟩)
        | (.ok value, after) =>
            (none, ⟨⟨scope.constants, scope.variables.store name value⟩, after, output⟩) := by
  by_cases blank : name.isEmpty = true
  · exact .inl ⟨.malformed .blankName, rfl, fun _ _ => by simp only [readName, if_pos blank]⟩
  · by_cases constant : scope.constants.contains name = true
    · refine .inl ⟨.readsConstant name, rfl, fun _ _ => ?_⟩
      simp only [readName, if_neg blank, if_pos constant]
    · cases found : scope.variables.get? name with
      | none =>
          refine .inl ⟨.undefined name, rfl, fun _ _ => ?_⟩
          simp only [readName, if_neg blank, if_neg constant, found]
      | some old =>
          refine .inr ⟨old, rfl, fun _ _ => ?_⟩
          simp only [readName, if_neg blank, if_neg constant, found]
          rfl

/-- What reading a name can come to. -/
inductive NameRead (session : Session) (name : Text) : Step → Prop where
  | refused {fault : Fault} (early : fault.needsInput = false) :
      NameRead session name (some fault, session)
  | failed {old : Value} {fault : Fault} {after : Reader}
      (taken : session.input.nextValue old.kind = (.error fault, after)) :
      NameRead session name (some fault, { session with input := after })
  | stored {old value : Value} {after : Reader}
      (found : session.scope.variables.get? name = some old)
      (taken : session.input.nextValue old.kind = (.ok value, after)) :
      NameRead session name (none, { session with input := after }.setVariables
        (session.scope.variables.store name value))

theorem nameRead (session : Session) (name : Text) :
    session.NameRead name (session.readName name) := by
  rcases readName_cases session.scope name with ⟨fault, early, refused⟩ | ⟨old, found, asked⟩
  · exact refused session.input session.output ▸ .refused early
  · have result := asked session.input session.output
    rcases taken : session.input.nextValue old.kind with ⟨fault | value, after⟩
    · rw [taken] at result
      exact result ▸ .failed taken
    · rw [taken] at result
      exact result ▸ .stored found taken

def readTrimmed (session : Session) (name : Text) : Step := session.readName (Text.trim name)

theorem readNames_eq (session : Session) (names : List Text) :
    session.readNames names = untilFault readTrimmed session names := by
  induction names generalizing session with
  | nil => rfl
  | cons name rest ih =>
      rcases done : session.readName (Text.trim name) with ⟨_ | fault, after⟩
      · simp only [readNames, untilFault, readTrimmed, done, ih]
      · simp only [readNames, untilFault, readTrimmed, done]

theorem run_eq (session : Session) (statements : List Statement) :
    session.run statements = untilFault step session statements := by
  induction statements generalizing session with
  | nil => rfl
  | cons statement rest ih =>
      rcases done : session.step statement with ⟨_ | error, after⟩
      · simp only [run, untilFault, done, ih]
      · simp only [run, untilFault, done]

/-- A run ends with the first entry of the trace that reports an error, or else with the last. -/
theorem run_eq_trace (session : Session) (statements : List Statement) :
    session.run statements =
      ((session.trace statements).find? (·.1.isSome)).getD
        ((session.trace statements).getLast?.getD (none, session)) := by
  induction statements generalizing session with
  | nil => rfl
  | cons statement rest ih =>
      rcases done : session.step statement with ⟨_ | error, after⟩
      · simp only [run, trace, done, ih, List.find?_cons, Option.isSome_none, List.getLast?_cons,
          Option.getD_some]
      · simp only [run, trace, done, List.find?_cons, Option.isSome_some, Option.getD_some]

/-- What a statement stores in a variable is the value of an expression, made to fit its type. -/
theorem assigned_ok {scope : Scope} {statement : Text} {table : Symbols}
    (assigned : scope.assigned statement = .ok table) :
    ∃ name source old number value, scope.variables.get? name = some old ∧
      scope.evaluate source = .ok number ∧
      (Value.number number).coerce old.kind name = .ok value ∧
      table = scope.variables.store name value := by
  unfold Scope.assigned at assigned
  cases cut : Text.cut? '=' statement with
  | none =>
      rw [cut] at assigned
      contradiction
  | some sides =>
      obtain ⟨left, right⟩ := sides
      simp only [cut] at assigned
      by_cases constant : scope.constants.contains (Text.trim left) = true
      · rw [if_pos constant] at assigned
        contradiction
      · rw [if_neg constant] at assigned
        cases found : scope.variables.get? (Text.trim left) with
        | none =>
            rw [found] at assigned
            contradiction
        | some old =>
            rw [found] at assigned
            obtain ⟨number, evaluated, fitting⟩ := bind_eq_ok.1 assigned
            obtain ⟨value, fitted, stored⟩ := bind_eq_ok.1 fitting
            cases stored
            exact ⟨_, _, old, number, value, found, evaluated, fitted, rfl⟩

inductive Moves (session : Session) : Session → Prop where
  | reads {name : Text} {old value : Value} {after : Reader}
      (found : session.scope.variables.get? name = some old)
      (taken : session.input.nextValue old.kind = (.ok value, after)) :
      session.Moves ({ session with input := after }.setVariables
        (session.scope.variables.store name value))
  | misreads {kind : Kind} {fault : Fault} {after : Reader}
      (taken : session.input.nextValue kind = (.error fault, after)) :
      session.Moves { session with input := after }
  | assigns {name source : Text} {old value : Value} {number : Number}
      (found : session.scope.variables.get? name = some old)
      (evaluated : session.scope.evaluate source = .ok number)
      (fitted : (Value.number number).coerce old.kind name = .ok value) :
      session.Moves (session.setVariables (session.scope.variables.store name value))
  | writes (bytes : Bytes) :
      session.Moves { session with output := (session.output.write bytes).2 }

/-- Any number of moves. -/
def Leads : Session → Session → Prop := Relation.ReflTransGen Moves

theorem readName_leads (session : Session) (name : Text) :
    session.Leads (session.readName name).2 := by
  have read := session.nameRead name
  rcases done : session.readName name with ⟨fault, after⟩
  rw [done] at read
  cases read with
  | refused early => exact .refl
  | failed taken => exact .single (.misreads taken)
  | stored found taken => exact .single (.reads found taken)

/-- The names before the one that fails have been read, so the argument goes over every
beginning of the list. -/
theorem readNames_leads (session : Session) (names : List Text) :
    session.Leads (session.readNames names).2 := by
  rw [readNames_eq]
  exact untilFault_keeps readTrimmed Leads (fun _ => .refl) .trans
    (fun name _ session => readName_leads session (Text.trim name)) session

theorem assign_leads (session : Session) (statement : Text) :
    session.Leads (session.assign statement).2 := by
  cases done : session.scope.assigned statement with
  | error fault =>
      simp only [assign, done]
      exact .refl
  | ok table =>
      obtain ⟨name, source, old, number, value, found, evaluated, fitted, rfl⟩ := assigned_ok done
      simp only [assign, done]
      exact .single (.assigns found evaluated fitted)

theorem write_leads (session : Session) (statement : Text) :
    session.Leads (session.write statement).2 := by
  cases offered : session.scope.outputText statement with
  | error fault =>
      simp only [write, offered]
      exact .refl
  | ok text =>
      simp only [write, offered]
      exact .single (.writes _)

theorem read_leads (session : Session) (statement : Text) :
    session.Leads (session.read statement).2 := by
  cases call : callArguments Command.read.keyword statement with
  | error fault =>
      simp only [read, call]
      exact .refl
  | ok arguments =>
      simp only [read, call]
      exact readNames_leads session (Text.parts ',' arguments)

theorem perform_leads (session : Session) (command : Command) (statement : Text) :
    session.Leads (session.perform command statement).2 := by
  cases command with
  | write => exact write_leads session statement
  | read => exact read_leads session statement
  | assign => exact assign_leads session statement

theorem run_leads (session : Session) (statements : List Statement) :
    session.Leads (session.run statements).2 := by
  rw [run_eq]
  exact untilFault_keeps step Leads (fun _ => .refl) .trans
    (fun statement _ session => perform_leads session statement.command statement.text) session

theorem Leads.maintains {property : Session → Prop}
    (kept : ∀ {before after : Session}, before.Moves after → property before → property after)
    {session last : Session} (leads : session.Leads last) (initial : property session) :
    property last := by
  induction leads with
  | refl => exact initial
  | tail _ move ih => exact kept move ih

section Invariants

variable {property : Scope → Prop}
  (kept : ∀ {before after : Session}, before.Moves after → property before.scope →
    property after.scope)
include kept

theorem Leads.holds {session last : Session} (leads : session.Leads last)
    (initial : property session.scope) : property last.scope :=
  @Leads.maintains (fun session => property session.scope) kept session last leads initial

/-- What every move keeps of the tables is kept by a run. -/
theorem run_holds (session : Session) (statements : List Statement)
    (initial : property session.scope) : property (session.run statements).2.scope :=
  (run_leads session statements).holds kept initial

end Invariants

end Session

end Pseudocode
