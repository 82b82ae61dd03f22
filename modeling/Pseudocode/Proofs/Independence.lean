import Mathlib
import Pseudocode.Proofs.Dispatch

/-!
Statements that do not get in each other's way. A statement has a footprint that can be read off its
text: the names whose values it uses, and the names whose values it replaces. Besides, an input
statement uses up input and an output statement adds to the output.

Two facts make the footprint good for something. A statement changes nothing outside of what it may
change. And what it reports and makes of its own part of a session depends on that part only: two
sessions that agree there agree there afterwards. So two statements can change places when neither
changes what the other needs.
-/

namespace Pseudocode

def Token.name? : Token → Option Text
  | .atom (.name name) => some name
  | _ => none

/-- The names among the tokens of an expression. -/
def namesIn (source : Text) : List Text :=
  match lex source with
  | .ok tokens => tokens.filterMap Token.name?
  | .error _ => []

/-- Neither blank nor with a quote at one of its ends: what is left has to be a name. -/
def isShown (argument : Text) : Bool :=
  !(argument.isEmpty || (argument.head? = some '"' || argument.getLast? = some '"'))

namespace Statement

/-- The names whose values a statement uses. -/
def reads (statement : Statement) : List Text :=
  match statement.command with
  | .assign => namesIn (expressionOf statement.text)
  | .write =>
      match callArguments Command.write.keyword statement.text with
      | .ok arguments => ((Text.openParts ',' arguments).map Text.trim).filter isShown
      | .error _ => []
  | .read => []

/-- The names whose values a statement replaces. -/
def writes (statement : Statement) : List Text :=
  match statement.command with
  | .assign =>
      match Text.cut? '=' statement.text with
      | some (left, _) => [Text.trim left]
      | none => []
  | .write => []
  | .read =>
      match callArguments Command.read.keyword statement.text with
      | .ok arguments => (Text.parts ',' arguments).map Text.trim
      | .error _ => []

/-- Neither statement replaces a value that the other uses or replaces, and they share neither the
input nor the output. -/
@[mk_iff]
structure Independent (first second : Statement) : Prop where
  notBothWrite : ¬ (first.command = .write ∧ second.command = .write)
  notBothRead : ¬ (first.command = .read ∧ second.command = .read)
  firstApart : ∀ name ∈ first.writes, name ∉ second.reads ∧ name ∉ second.writes
  secondApart : ∀ name ∈ second.writes, name ∉ first.reads ∧ name ∉ first.writes

end Statement

namespace Symbols

theorem names_store (symbols : Symbols) (name : Text) (value : Value) :
    (symbols.store name value).names = symbols.names := map_fst_storeAt name value _

/-- A table is its names, in their order, with their values. -/
theorem ext_get? {one other : Symbols} (names : one.names = other.names)
    (values : ∀ name, one.get? name = other.get? name) : one = other := by
  have known (symbols : Symbols) :
      symbols.entries.map (fun entry => (entry.1, some entry.2)) =
        symbols.names.map fun name => (name, symbols.get? name) := by
    rw [Symbols.names, List.map_map]
    refine List.map_congr_left fun entry member => ?_
    rw [Function.comp_apply, get?_of_mem member]
  have injective : Function.Injective fun entry : Text × Value => (entry.1, some entry.2) := by
    rintro ⟨name, value⟩ ⟨name', value'⟩ same
    simpa using same
  refine Symbols.ext (injective.list_map ?_)
  rw [known, known, names]
  exact List.map_congr_left fun name _ => by rw [values name]

end Symbols

namespace Scope

/-- The value that an assignment stores for its target. -/
def valueFor (scope : Scope) (name source : Text) : Except Fault Value :=
  if scope.constants.contains name then .error (.assignsConstant name)
  else match scope.variables.get? name with
    | none => .error (.undefined name)
    | some old => do
        let number ← scope.evaluate source
        (Value.number number).coerce old.kind name

theorem assigned_eq (scope : Scope) {text left right : Text}
    (cut : Text.cut? '=' text = some (left, right)) :
    scope.assigned text =
      (scope.valueFor (Text.trim left) (expressionOf text)).map
        (scope.variables.store (Text.trim left)) := by
  simp only [assigned, cut, valueFor, expressionOf]
  by_cases constant : scope.constants.contains (Text.trim left) = true
  · simp only [if_pos constant]
    rfl
  · simp only [if_neg constant]
    cases scope.variables.get? (Text.trim left) with
    | none => rfl
    | some old =>
        cases scope.evaluate (Text.trimEnd (Text.trimTail (· = ';') (Text.trim right))) with
        | error fault => rfl
        | ok number =>
            simp only [ok_bind]
            cases (Value.number number).coerce old.kind (Text.trim left) <;> rfl

/-- The same constants and the same variables, with the same values for some of them. -/
structure Agree (on : Text → Prop) (one other : Scope) : Prop where
  constants : one.constants = other.constants
  names : one.variables.names = other.variables.names
  values : ∀ name, on name → one.variables.get? name = other.variables.get? name

namespace Agree

variable {on : Text → Prop} {one other : Scope}

theorem refl (on : Text → Prop) (scope : Scope) : Agree on scope scope :=
  ⟨rfl, rfl, fun _ _ => rfl⟩

theorem symm (agree : Agree on one other) : Agree on other one :=
  ⟨agree.constants.symm, agree.names.symm, fun name known => (agree.values name known).symm⟩

theorem trans {third : Scope} (front : Agree on one other) (back : Agree on other third) :
    Agree on one third :=
  ⟨front.constants.trans back.constants, front.names.trans back.names,
    fun name known => (front.values name known).trans (back.values name known)⟩

theorem store (agree : Agree on one other) (name : Text) (value : Value) :
    Agree on ⟨one.constants, one.variables.store name value⟩
      ⟨other.constants, other.variables.store name value⟩ := by
  refine ⟨agree.constants, ?_, fun name' known => ?_⟩
  · rw [Symbols.names_store, Symbols.names_store, agree.names]
  · rw [Symbols.get?_store, Symbols.get?_store, agree.values name' known]

theorem of_store {name : Text} (apart : ¬ on name) (scope : Scope) (value : Value) :
    Agree on scope ⟨scope.constants, scope.variables.store name value⟩ := by
  refine ⟨rfl, (Symbols.names_store _ name value).symm, fun name' known => ?_⟩
  have different : name' ≠ name := by
    rintro rfl
    exact apart known
  rw [Symbols.get?_store]
  simp [different]

theorem operand? (agree : Agree on one other) {name : Text} (known : on name) :
    one.operand? name = other.operand? name := by
  rw [Scope.operand?, Scope.operand?, agree.constants, agree.values name known]

theorem shown? (agree : Agree on one other) {name : Text} (known : on name) :
    one.shown? name = other.shown? name := by
  rw [Scope.shown?, Scope.shown?, agree.constants, agree.values name known]

section Computed

theorem resolveAll (agree : Agree on one other) {tokens : List Token}
    (known : ∀ name ∈ tokens.filterMap Token.name?, on name) :
    one.resolveAll tokens = other.resolveAll tokens := by
  induction tokens with
  | nil => rfl
  | cons token rest ih =>
      have first : one.resolve token = other.resolve token := by
        cases token with
        | atom atom =>
            cases atom with
            | number n => rfl
            | name name =>
                have same := agree.operand? (known name (by simp [Token.name?]))
                simp only [resolve, number, same]
        | operator op | opening | closing => rfl
      have others := ih fun name member => known name (by
        obtain ⟨token', inside, named⟩ := List.mem_filterMap.1 member
        exact List.mem_filterMap.2 ⟨token', List.mem_cons_of_mem _ inside, named⟩)
      simp only [Scope.resolveAll, first, others]

theorem evaluate (agree : Agree on one other) {source : Text}
    (known : ∀ name ∈ namesIn source, on name) : one.evaluate source = other.evaluate source := by
  cases lexed : lex source with
  | error cause => simp only [Scope.evaluate, lexed, Except.mapError, bind, Except.bind]
  | ok tokens =>
      have same : one.resolveAll tokens = other.resolveAll tokens :=
        agree.resolveAll fun name member => known name (by simpa only [namesIn, lexed] using member)
      simp only [Scope.evaluate, lexed, same, Except.mapError, bind, Except.bind]

theorem valueFor (agree : Agree on one other) {name source : Text} (target : on name)
    (known : ∀ name ∈ namesIn source, on name) :
    one.valueFor name source = other.valueFor name source := by
  rw [Scope.valueFor, Scope.valueFor, agree.constants, agree.values name target,
    agree.evaluate known]

theorem argumentText (agree : Agree on one other) {argument : Text}
    (known : isShown argument = true → on argument) :
    one.argumentText argument = other.argumentText argument := by
  unfold Scope.argumentText
  by_cases blank : argument.isEmpty = true
  · rw [if_pos blank, if_pos blank]
  · rw [if_neg blank, if_neg blank]
    by_cases quoted : (argument.head? = some '"' || argument.getLast? = some '"') = true
    · rw [if_pos quoted, if_pos quoted]
    · rw [if_neg quoted, if_neg quoted]
      have shown : isShown argument = true := by simp [isShown, blank, quoted]
      rw [agree.shown? (known shown)]

theorem argumentTexts (agree : Agree on one other) {arguments : List Text}
    (known : ∀ name ∈ (arguments.map Text.trim).filter isShown, on name) :
    one.argumentTexts arguments = other.argumentTexts arguments := by
  induction arguments with
  | nil => rfl
  | cons argument rest ih =>
      have first := agree.argumentText fun shown =>
        known (Text.trim argument) (List.mem_filter.2 ⟨by simp, shown⟩)
      have others := ih fun name member => known name (by
        obtain ⟨inside, shown⟩ := List.mem_filter.1 member
        exact List.mem_filter.2 ⟨List.mem_cons_of_mem _ inside, shown⟩)
      simp only [Scope.argumentTexts, first, others]

theorem outputText (agree : Agree on one other) (line : Nat) (text : Text)
    (known : ∀ name ∈ (Statement.mk line .write text).reads, on name) :
    one.outputText text = other.outputText text := by
  cases call : callArguments Command.write.keyword text with
  | error fault => simp only [Scope.outputText, call, bind, Except.bind]
  | ok arguments =>
      have same := agree.argumentTexts fun name member => known name (by
        simpa only [Statement.reads, call] using member)
      simp only [Scope.outputText, call, ok_bind, same]

end Computed

end Agree

end Scope

/-- What statements can contend for. -/
inductive Resource where
  | named (name : Text)
  | input
  | output

namespace Statement

def Changes (statement : Statement) : Resource → Prop
  | .named name => name ∈ statement.writes
  | .input => statement.command = .read
  | .output => statement.command = .write

def Needs (statement : Statement) : Resource → Prop
  | .named name => name ∈ statement.reads ∨ name ∈ statement.writes
  | .input => statement.command = .read
  | .output => statement.command = .write

theorem Changes.needs {statement : Statement} {resource : Resource}
    (changes : statement.Changes resource) : statement.Needs resource := by
  cases resource with
  | named name => exact .inr changes
  | input | output => exact changes

theorem Independent.symm {first second : Statement} (independent : first.Independent second) :
    second.Independent first :=
  ⟨fun both => independent.notBothWrite both.symm, fun both => independent.notBothRead both.symm,
    independent.secondApart, independent.firstApart⟩

theorem Independent.not_needs {first second : Statement} (independent : first.Independent second)
    {resource : Resource} (changes : first.Changes resource) : ¬ second.Needs resource := by
  intro needs
  cases resource with
  | named name =>
      have free := independent.firstApart name changes
      exact needs.elim free.1 free.2
  | input => exact independent.notBothRead ⟨changes, needs⟩
  | output => exact independent.notBothWrite ⟨changes, needs⟩

end Statement

namespace Session

structure Agree (on : Resource → Prop) (one other : Session) : Prop where
  scope : Scope.Agree (fun name => on (.named name)) one.scope other.scope
  input : on .input → one.input = other.input
  output : on .output → one.output = other.output

/-- The same report, and sessions that agree. -/
structure SameStep (on : Resource → Prop) (one other : Step) : Prop where
  fault : one.1 = other.1
  agree : Agree on one.2 other.2

variable {on : Resource → Prop} {one other : Session}

theorem Agree.refl (on : Resource → Prop) (session : Session) : Agree on session session :=
  ⟨.refl _ _, fun _ => rfl, fun _ => rfl⟩

theorem Agree.trans {third : Session} (front : Agree on one other) (back : Agree on other third) :
    Agree on one third :=
  ⟨front.scope.trans back.scope, fun known => (front.input known).trans (back.input known),
    fun known => (front.output known).trans (back.output known)⟩

theorem Agree.symm (agree : Agree on one other) : Agree on other one :=
  ⟨agree.scope.symm, fun known => (agree.input known).symm, fun known => (agree.output known).symm⟩

/-- Agreement on some resources is agreement on each of them. -/
theorem Agree.single (agree : Agree on one other) {resource : Resource} (known : on resource) :
    Agree (· = resource) one other := by
  refine ⟨⟨agree.scope.constants, agree.scope.names, fun name same => ?_⟩, fun same => ?_,
    fun same => ?_⟩
  · exact agree.scope.values name (same ▸ known)
  · exact agree.input (same ▸ known)
  · exact agree.output (same ▸ known)

theorem Agree.setVariables (agree : Agree on one other) (name : Text) (value : Value) :
    Agree on (one.setVariables (one.scope.variables.store name value))
      (other.setVariables (other.scope.variables.store name value)) :=
  ⟨agree.scope.store name value, agree.input, agree.output⟩

theorem agree_setVariables {name : Text} (apart : ¬ on (.named name)) (session : Session)
    (value : Value) :
    Agree on session (session.setVariables (session.scope.variables.store name value)) :=
  ⟨.of_store apart session.scope value, fun _ => rfl, fun _ => rfl⟩

/-- Sessions that agree on everything are one session. -/
theorem eq_of_agree (agree : ∀ resource, Agree (· = resource) one other) : one = other := by
  obtain ⟨⟨constants, _⟩, input, output⟩ := one
  obtain ⟨⟨constants', _⟩, input', output'⟩ := other
  obtain ⟨sameConstants, names, _⟩ := (agree .input).scope
  have tables := Symbols.ext_get? names fun name => (agree (.named name)).scope.values name rfl
  have inputs := (agree .input).input rfl
  have outputs := (agree .output).output rfl
  simp only at sameConstants tables inputs outputs
  rw [sameConstants, tables, inputs, outputs]

section LeftAlone

theorem agree_readName {name : Text} (apart : ¬ on (.named name)) (noInput : ¬ on .input)
    (session : Session) : Agree on session (session.readName name).2 := by
  have taken (after : Reader) : Agree on session { session with input := after } :=
    ⟨.refl _ _, fun known => absurd known noInput, fun _ => rfl⟩
  have read := session.nameRead name
  rcases done : session.readName name with ⟨fault, last⟩
  rw [done] at read
  cases read with
  | refused early => exact .refl _ _
  | failed failing => exact taken _
  | stored found given => exact (taken _).trans (agree_setVariables apart _ _)

theorem agree_readNames {names : List Text}
    (apart : ∀ name ∈ names.map Text.trim, ¬ on (.named name)) (noInput : ¬ on .input)
    (session : Session) : Agree on session (session.readNames names).2 := by
  rw [readNames_eq]
  exact untilFault_keeps readTrimmed (Agree on) (.refl on) .trans
    (fun name member => agree_readName (apart _ (List.mem_map_of_mem member)) noInput) session

section Assignment

variable {session : Session} {text left right : Text} {fault : Fault} {value : Value}

theorem assign_uncut (uncut : Text.cut? '=' text = none) :
    session.assign text = (some (.malformed (.assignment text)), session) := by
  simp only [assign, Scope.assigned, uncut]

variable (cut : Text.cut? '=' text = some (left, right))
include cut

theorem assign_refused
    (refused : session.scope.valueFor (Text.trim left) (expressionOf text) = .error fault) :
    session.assign text = (some fault, session) := by
  have unassigned : session.scope.assigned text = .error fault := by
    rw [Scope.assigned_eq _ cut, map_eq_error, refused]
  simp only [assign, unassigned]

theorem assign_stored
    (found : session.scope.valueFor (Text.trim left) (expressionOf text) = .ok value) :
    session.assign text =
      (none, session.setVariables (session.scope.variables.store (Text.trim left) value)) := by
  have assigned : session.scope.assigned text =
      .ok (session.scope.variables.store (Text.trim left) value) := by
    rw [Scope.assigned_eq _ cut, map_eq_ok]
    exact ⟨value, found, rfl⟩
  simp only [assign, assigned]

end Assignment

/-- A statement changes nothing but what it may change, also when it fails. -/
theorem agree_perform (session : Session) (statement : Statement) :
    Agree (fun resource => ¬ statement.Changes resource) session
      (session.perform statement.command statement.text).2 := by
  obtain ⟨line, command, text⟩ := statement
  cases command with
  | write =>
      simp only [perform, write]
      cases session.scope.outputText text with
      | error fault => exact .refl _ _
      | ok shown => exact ⟨.refl _ _, fun _ => rfl, fun silent => absurd rfl silent⟩
  | read =>
      simp only [perform, read]
      cases call : callArguments Command.read.keyword text with
      | error fault => exact .refl _ _
      | ok arguments =>
          refine agree_readNames (fun name member known => known ?_) (fun known => known rfl) _
          simpa only [Statement.Changes, Statement.writes, call] using member
  | assign =>
      simp only [perform]
      cases cut : Text.cut? '=' text with
      | none =>
          rw [assign_uncut cut]
          exact .refl _ _
      | some sides =>
          obtain ⟨left, right⟩ := sides
          cases found : session.scope.valueFor (Text.trim left) (expressionOf text) with
          | error fault =>
              rw [assign_refused cut found]
              exact .refl _ _
          | ok value =>
              rw [assign_stored cut found]
              refine agree_setVariables (fun known => known ?_) session value
              simp [Statement.Changes, Statement.writes, cut]

end LeftAlone

section DependedOn

theorem Agree.readName (agree : Agree on one other) {name : Text} (known : on (.named name))
    (asks : on .input) : SameStep on (one.readName name) (other.readName name) := by
  have constants := agree.scope.constants
  have values := agree.scope.values name known
  have inputs := agree.input asks
  by_cases blank : name.isEmpty = true
  · simp only [Session.readName, if_pos blank]
    exact ⟨rfl, agree⟩
  · by_cases constant : other.scope.constants.contains name = true
    · simp only [Session.readName, if_neg blank, constants, if_pos constant]
      exact ⟨rfl, agree⟩
    · simp only [Session.readName, if_neg blank, constants, if_neg constant, values, inputs]
      cases found : other.scope.variables.get? name with
      | none => exact ⟨rfl, agree⟩
      | some old =>
          have taken (after : Reader) :
              Agree on { one with input := after } { other with input := after } :=
            ⟨agree.scope, fun _ => rfl, agree.output⟩
          dsimp only
          rcases other.input.nextValue old.kind with ⟨fault | value, after⟩
          · exact ⟨rfl, taken after⟩
          · exact ⟨rfl, (taken after).setVariables name value⟩

theorem Agree.readNames (agree : Agree on one other) {names : List Text}
    (known : ∀ name ∈ names.map Text.trim, on (.named name)) (asks : on .input) :
    SameStep on (one.readNames names) (other.readNames names) := by
  induction names generalizing one other with
  | nil => exact ⟨rfl, agree⟩
  | cons name rest ih =>
      rw [List.map_cons, List.forall_mem_cons] at known
      obtain ⟨faults, after⟩ := agree.readName known.1 asks
      simp only [Session.readNames]
      rcases first : one.readName (Text.trim name) with ⟨report, next⟩
      rcases second : other.readName (Text.trim name) with ⟨report', next'⟩
      rw [first, second] at faults after
      cases faults
      cases report with
      | some fault => exact ⟨rfl, after⟩
      | none => exact ih after known.2

/-- What a statement reports, and what it makes of the resources in question, is settled by these
resources if all that it needs is among them. -/
theorem Agree.perform (agree : Agree on one other) {statement : Statement}
    (known : ∀ resource, statement.Needs resource → on resource) :
    SameStep on (one.perform statement.command statement.text)
      (other.perform statement.command statement.text) := by
  obtain ⟨line, command, text⟩ := statement
  cases command with
  | write =>
      have outputs := agree.output (known .output rfl)
      have texts := agree.scope.outputText line text
        fun name member => known (.named name) (.inl member)
      simp only [Session.perform, write, texts, outputs]
      cases other.scope.outputText text with
      | error fault => exact ⟨rfl, agree⟩
      | ok made => exact ⟨rfl, agree.scope, agree.input, fun _ => rfl⟩
  | read =>
      have asks := known .input rfl
      simp only [Session.perform, read]
      cases call : callArguments Command.read.keyword text with
      | error fault => exact ⟨rfl, agree⟩
      | ok arguments =>
          refine agree.readNames (fun name member => known (.named name) (.inr ?_)) asks
          simpa only [Statement.writes, call] using member
  | assign =>
      simp only [Session.perform]
      cases cut : Text.cut? '=' text with
      | none =>
          rw [assign_uncut cut, assign_uncut cut]
          exact ⟨rfl, agree⟩
      | some sides =>
          obtain ⟨left, right⟩ := sides
          have same : one.scope.valueFor (Text.trim left) (expressionOf text) =
              other.scope.valueFor (Text.trim left) (expressionOf text) :=
            agree.scope.valueFor
              (known (.named _) (.inr (by simp [Statement.writes, cut])))
              fun name member => known (.named name) (.inl member)
          cases found : other.scope.valueFor (Text.trim left) (expressionOf text) with
          | error fault =>
              rw [assign_refused cut (same.trans found), assign_refused cut found]
              exact ⟨rfl, agree⟩
          | ok value =>
              rw [assign_stored cut (same.trans found), assign_stored cut found]
              exact ⟨rfl, agree.setVariables _ value⟩

end DependedOn

section ChangingPlaces

variable {session middle last : Session} {first second : Statement}

theorem step_succeeds_iff {statement : Statement} :
    session.step statement = (none, last) ↔
      session.perform statement.command statement.text = (none, last) := by
  rcases done : session.perform statement.command statement.text with ⟨_ | fault, after⟩ <;>
    simp [step, done]

theorem run_pair_iff :
    session.run [first, second] = (none, last) ↔
      ∃ middle, session.perform first.command first.text = (none, middle) ∧
        middle.perform second.command second.text = (none, last) := by
  simp only [← step_succeeds_iff]
  rcases done : session.step first with ⟨_ | error, middle⟩
  · rcases also : middle.step second with ⟨_ | error, after⟩ <;> simp [run, done, also]
  · simp [run, done]

/-- The second statement finds all that it needs before the first, and the first finds all that it
needs after the second. Each resource is changed by at most one of them, and that one has found the
same in both orders. -/
theorem perform_swapped (independent : first.Independent second)
    (before : session.perform first.command first.text = (none, middle))
    (after : middle.perform second.command second.text = (none, last)) :
    ∃ other, session.perform second.command second.text = (none, other) ∧
      other.perform first.command first.text = (none, last) := by
  have firstSpares := agree_perform session first
  rw [before] at firstSpares
  have early := firstSpares.perform fun _ needs changes => independent.not_needs changes needs
  rcases done : session.perform second.command second.text with ⟨report, other⟩
  rw [done, after] at early
  obtain ⟨reported : report = none, sameSecond⟩ := early
  have secondSpares := agree_perform session second
  rw [done] at secondSpares
  have late := secondSpares.perform fun _ needs changes => independent.symm.not_needs changes needs
  rcases done' : other.perform first.command first.text with ⟨report', final⟩
  rw [done', before] at late
  obtain ⟨reported' : none = report', sameFirst⟩ := late
  refine ⟨other, by rw [reported], ?_⟩
  have same : final = last := by
    refine eq_of_agree fun resource => ?_
    by_cases changes : second.Changes resource
    · have spared : ¬ first.Changes resource :=
        fun both => independent.not_needs both changes.needs
      have kept := agree_perform other first
      rw [done'] at kept
      exact (kept.symm.trans sameSecond).single spared
    · have kept := agree_perform middle second
      rw [after] at kept
      exact (sameFirst.symm.trans kept).single changes
  rw [done', same, reported']

/-- A statement leaves the variables in their places, and those outside its footprint with their
values. Two statements of which neither replaces a value that the other uses or replaces, and which
do not both read or both write, can change places: if they succeed in one order, they succeed in the
other, and leave the same variables, the same unread input and the same output. -/
theorem independent_statements_commute :
    (∀ (session : Session) (statement : Statement),
      (session.step statement).2.scope.variables.names = session.scope.variables.names ∧
      ∀ name, name ∉ statement.writes →
        (session.step statement).2.scope.variables.get? name =
          session.scope.variables.get? name) ∧
    ∀ (session last : Session) (first second : Statement), first.Independent second →
      session.run [first, second] = (none, last) → session.run [second, first] = (none, last) := by
  refine ⟨fun session statement => ?_, ?_⟩
  · have kept := (agree_perform session statement).scope
    exact ⟨kept.names.symm, fun name outside => (kept.values name outside).symm⟩
  · intro session last first second independent ran
    obtain ⟨middle, before, after⟩ := run_pair_iff.1 ran
    exact run_pair_iff.2 (perform_swapped independent before after)

/-- A constant `k`, a counter `n`, and two variables to be read from the lines `7` and `ab`. -/
def counting : Session where
  scope :=
    { constants := ⟨[(['k'], .number Expr.two)], by decide⟩
      «variables» :=
        ⟨[(['a'], .unset .integer), (['n'], .number Expr.two), (['s'], .unset .string)],
          by decide⟩ }
  input := .ofBytes [55, 32, 10, 97, 98, 10]
  output := .unlimited

def readsBoth : Statement := ⟨8, .read, "Read(a, s);".toList⟩

def counts : Statement := ⟨9, .assign, "n = n * k + n;".toList⟩

def showsName : Statement := ⟨10, .write, "Write(\"n = \", a);".toList⟩

-- A name inside a quoted text does not count, and the counter stands between what is read.
theorem reading_commutes_with_counting :
    readsBoth.Independent counts ∧ counts.Independent showsName ∧
      ¬ readsBoth.Independent showsName ∧
    (counting.run [readsBoth, counts]).1 = none ∧
    (counting.run [readsBoth, counts]).2.scope.variables.entries =
      [(['a'], .integer ⟨7, by decide⟩), (['n'], .integer ⟨6, by decide⟩),
        (['s'], .string ['a', 'b'])] ∧
    counting.run [counts, readsBoth] = (none, (counting.run [readsBoth, counts]).2) := by
  have independent : readsBoth.Independent counts ∧ counts.Independent showsName ∧
      ¬ readsBoth.Independent showsName := by
    simp only [Statement.independent_iff]
    exact ⟨by decide +kernel, by decide +kernel, by decide +kernel⟩
  have succeeds : (counting.run [readsBoth, counts]).1 = none := by decide +kernel
  refine ⟨independent.1, independent.2.1, independent.2.2, succeeds, by decide +kernel, ?_⟩
  exact independent_statements_commute.2 counting _ readsBoth counts independent.1
    (Prod.ext succeeds rfl)

end ChangingPlaces

end Session

end Pseudocode
