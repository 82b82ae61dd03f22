import Pseudocode.Proofs.Conversions
import Pseudocode.Proofs.Failures
import Pseudocode.Proofs.Resolution
import Pseudocode.Proofs.Substitution

/-!
Statements stay with their commands. A line is bound to a command when the program is loaded, by
the names that are declared then; the same names are there in every later state, so binding the
line again would give the same command. What a command takes for granted about its lines therefore
holds whenever they are run: an assignment has an equals sign and a declared name before it. And a
line that an output or input statement can take apart is never bound to an assignment, whatever
the tables hold, since its first equals sign stands behind a parenthesis.
-/

namespace Pseudocode

section Binding

theorem Scope.Keeps.contains {before after : Scope} (kept : before.Keeps after) (name : Text) :
    after.contains name = before.contains name := by
  have same (part : Section) :
      (after.table part).contains name = (before.table part).contains name := by
    rw [Bool.eq_iff_iff, Symbols.contains_iff, Symbols.contains_iff, kept.names part]
  have constants := same .constants
  have others := same .variables
  simp only [Scope.table] at constants others
  simp only [Scope.contains, constants, others]

namespace Command

theorem classify?_congr {before after : Scope}
    (same : ∀ name, after.contains name = before.contains name) (commands : List Command)
    (text : Text) : classify? commands after text = classify? commands before text := by
  have assigned : assigns after text = assigns before text := by
    cases cut : Text.cut? '=' text with
    | none => simp only [assigns, cut]
    | some sides => simp only [assigns, cut, same]
  rw [classify?, classify?, assigned]

theorem assigns_of_classify? {scope : Scope} {text : Text}
    (bound : classify? standard scope text = some .assign) : assigns scope text = true := by
  by_cases assigned : assigns scope text = true
  · exact assigned
  · rw [classify?, if_neg assigned] at bound
    have member := List.mem_of_find?_eq_some bound
    simp [standard] at member

/-- What makes a line an assignment. -/
theorem assigns_iff {scope : Scope} {text : Text} :
    assigns scope text = true ↔
      ∃ left right, Text.cut? '=' text = some (left, right) ∧
        Text.isIdentifier (Text.trim left) = true ∧ scope.contains (Text.trim left) = true := by
  unfold assigns
  cases cut : Text.cut? '=' text with
  | none => simp
  | some sides =>
      obtain ⟨left, right⟩ := sides
      simp

end Command

theorem Statement.ofLines_bound {commands : List Command} {scope : Scope} {lines : List Line}
    {statements : List Statement} (bound : ofLines commands scope lines = .ok statements) :
    ∀ statement ∈ statements,
      Command.classify? commands scope statement.text = some statement.command := by
  induction lines generalizing statements with
  | nil =>
      cases bound
      simp
  | cons line rest ih =>
      obtain ⟨first, binds, following⟩ := bind_eq_ok.1 bound
      obtain ⟨others, later, same⟩ := bind_eq_ok.1 following
      cases same
      unfold ofLine at binds
      cases found : Command.classify? commands scope line.text with
      | none =>
          rw [found] at binds
          contradiction
      | some command =>
          rw [found] at binds
          cases binds
          exact List.forall_mem_cons.2 ⟨found, ih later⟩

end Binding

section Calls

theorem Text.mem_before_cut {mark other : Char} {front rest left right : Text}
    (absent : mark ∉ front) (different : other ≠ mark)
    (cut : cut? mark (front ++ other :: rest) = some (left, right)) : other ∈ left := by
  induction front generalizing left with
  | nil =>
      rw [List.nil_append, cut?, if_neg different] at cut
      obtain ⟨_, _, same⟩ := Option.map_eq_some_iff.1 cut
      cases same
      exact List.mem_cons_self
  | cons c front ih =>
      rw [List.mem_cons, not_or] at absent
      rw [List.cons_append, cut?, if_neg (Ne.symm absent.1)] at cut
      obtain ⟨_, earlier, same⟩ := Option.map_eq_some_iff.1 cut
      cases same
      exact List.mem_cons_of_mem _ (ih absent.2 earlier)

/-- A call starts with its keyword, and only blanks stand between that and the parenthesis. -/
theorem callArguments_ok {keyword text arguments : Text}
    (called : callArguments keyword text = .ok arguments) :
    ∃ blanks rest, text = keyword ++ (blanks ++ '(' :: rest) ∧
      ∀ c ∈ blanks, Text.isBlank c = true := by
  unfold callArguments at called
  cases inside : callArguments? keyword text with
  | none =>
      rw [inside] at called
      contradiction
  | some between =>
      obtain ⟨tail, starts, opening⟩ := Option.bind_eq_some_iff.1 inside
      obtain ⟨opened, opens, _⟩ := Option.bind_eq_some_iff.1 opening
      have spaced := Text.trimStart_append tail
      rw [Text.after?_eq_some.1 opens] at spaced
      refine ⟨tail.takeWhile Text.isBlank, opened, ?_, ?_⟩
      · rw [Text.after?_eq_some.1 starts]
        exact congrArg (keyword ++ ·) spaced.symm
      · intro c member
        exact List.all_eq_true.1 List.all_takeWhile c member

theorem Command.keyword_no_equals (command : Command) : '=' ∉ command.keyword := by
  cases command <;> decide

/-- A call is no assignment, even to a name of one of the tables. -/
theorem Command.not_assigns_of_call {command : Command} {text arguments : Text}
    (called : callArguments command.keyword text = .ok arguments) (scope : Scope) :
    assigns scope text = false := by
  obtain ⟨blanks, rest, shape, blank⟩ := callArguments_ok called
  rw [← Bool.not_eq_true, assigns_iff]
  rintro ⟨left, right, cut, identifier, _⟩
  have absent : '=' ∉ command.keyword ++ blanks := by
    rw [List.mem_append, not_or]
    refine ⟨command.keyword_no_equals, fun member => ?_⟩
    exact absurd (blank '=' member) (by decide)
  rw [shape, ← List.append_assoc] at cut
  -- Whatever stands before the first equals sign holds the parenthesis, so it is no name.
  have parenthesis : '(' ∈ left := Text.mem_before_cut absent (by decide) cut
  have kept := Text.mem_trim parenthesis (by decide)
  exact Text.not_mem_of_plain (Text.plain_of_identifier identifier) rfl kept

theorem Command.classify?_of_call {command : Command} (known : command ∈ standard)
    {text arguments : Text} (called : callArguments command.keyword text = .ok arguments)
    (scope : Scope) : classify? standard scope text = some command := by
  have other := not_assigns_of_call called scope
  obtain ⟨blanks, rest, rfl, _⟩ := callArguments_ok called
  simp only [classify?, other, Bool.false_eq_true, ↓reduceIte]
  have starts : Text.startsWith (command.keyword ++ (blanks ++ '(' :: rest)) command.keyword := by
    rw [Text.startsWith, Text.after?_eq_some.2 rfl]
    rfl
  simp only [standard, List.mem_cons, List.not_mem_nil, or_false] at known
  rcases known with rfl | rfl
  · exact List.find?_cons_of_pos starts
  · have differs :
        Text.startsWith (read.keyword ++ (blanks ++ '(' :: rest)) write.keyword = false := rfl
    rw [standard, List.find?_cons_of_neg (by simp [differs])]
    exact List.find?_cons_of_pos starts

end Calls

section AssignmentFaults

/-- A name that occurs in an expression. -/
def Mentions (source name : Text) : Prop :=
  ∃ tokens, lex source = .ok tokens ∧ .atom (.name name) ∈ tokens

/-- The expression of an assignment, without the semicolons at its end. -/
def expressionOf (statement : Text) : Text :=
  match Text.cut? '=' statement with
  | none => []
  | some (_, right) => Text.trimEnd (Text.trimTail (· = ';') (Text.trim right))

/-- The faults of an assignment to a declared name: none is about the form of the statement, and
one about an unknown name is about a name that the expression mentions. -/
inductive Fault.OfAssignment (scope : Scope) (source : Text) : Fault → Prop where
  | assignsConstant (name : Text) : Fault.OfAssignment scope source (.assignsConstant name)
  | badExpression (cause : BadExpression) : Fault.OfAssignment scope source (.badExpression cause)
  | undefined {name : Text} (mentioned : Mentions source name)
      (unknown : scope.contains name = false) :
      Fault.OfAssignment scope source (.undefined name)
  | unset (name : Text) : Fault.OfAssignment scope source (.unset name)
  | mismatch (cause : Mismatch) : Fault.OfAssignment scope source (.mismatch cause)
  | notNumericTarget (name : Text) (kind : Kind) :
      Fault.OfAssignment scope source (.notNumericTarget name kind)
  | arithmetic {fault : Fault} (arithmetic : fault.IsArithmetic) :
      Fault.OfAssignment scope source fault

namespace Scope

variable {scope : Scope} {fault : Fault}

theorem contains_eq_false_of_operand? {name : Text} (unknown : scope.operand? name = none) :
    scope.contains name = false := by
  obtain ⟨constants, others⟩ := Option.or_eq_none_iff.1 unknown
  simp [contains, Symbols.contains, constants, others]

theorem resolveAll_error {tokens : List Token} (failed : scope.resolveAll tokens = .error fault) :
    ∃ name, .atom (.name name) ∈ tokens ∧ scope.number name = .error fault := by
  induction tokens with
  | nil => contradiction
  | cons token rest ih =>
      rcases bind_eq_error.1 failed with first | ⟨_, _, following⟩
      · match token with
        | .atom (.name name) => exact ⟨name, List.mem_cons_self, map_eq_error.1 first⟩
        | .atom (.number _) | .operator _ | .opening | .closing => contradiction
      · rcases bind_eq_error.1 following with later | ⟨_, _, ended⟩
        · obtain ⟨name, member, looked⟩ := ih later
          exact ⟨name, List.mem_cons_of_mem _ member, looked⟩
        · contradiction

theorem number_error {source name : Text} (mentioned : Mentions source name)
    (failed : scope.number name = .error fault) : fault.OfAssignment scope source := by
  unfold number at failed
  match held : scope.operand? name with
  | none =>
      rw [held] at failed
      cases failed
      exact .undefined mentioned (contains_eq_false_of_operand? held)
  | some (.number _) =>
      rw [held] at failed
      contradiction
  | some (.string _) =>
      rw [held] at failed
      cases failed
      exact .mismatch _
  | some (.unset _) =>
      rw [held] at failed
      cases failed
      exact .unset name

theorem evaluate_error {source : Text} (failed : scope.evaluate source = .error fault) :
    fault.OfAssignment scope source := by
  rcases bind_eq_error.1 failed with unlexed | ⟨tokens, lexed, resolving⟩
  · obtain ⟨cause, _, rfl⟩ := mapError_eq_error.1 unlexed
    exact .badExpression cause
  · rw [mapError_eq_ok] at lexed
    rcases bind_eq_error.1 resolving with unresolved | ⟨resolved, _, parsing⟩
    · obtain ⟨name, member, looked⟩ := resolveAll_error unresolved
      exact number_error ⟨tokens, lexed, member⟩ looked
    · rcases bind_eq_error.1 parsing with unparsed | ⟨expr, _, evaluated⟩
      · obtain ⟨cause, _, rfl⟩ := mapError_eq_error.1 unparsed
        exact .badExpression cause
      · exact .arithmetic (Expr.eval_error evaluated)

end Scope

section Fitting

variable {scope : Scope} {source name : Text} {fault : Fault}

theorem Binary64.toInteger_error {x : Binary64} (failed : x.toInteger = .error fault) :
    fault.OfAssignment scope source := by
  have converts := converts_toInteger x
  rw [failed] at converts
  cases converts with
  | beyond => exact .arithmetic (.inl rfl)
  | fraction => exact .mismatch _
  | notFinite => exact .mismatch _

theorem Value.coerce_error {number : Number} {kind : Kind}
    (failed : (Value.number number).coerce kind name = .error fault) :
    fault.OfAssignment scope source := by
  by_cases textual : (!kind.isNumeric) = true
  · rw [coerce, if_pos textual] at failed
    cases failed
    exact .notNumericTarget name kind
  · rw [coerce, if_neg textual] at failed
    have unfit : Number.convert kind number = .error fault := map_eq_error.1 failed
    cases kind with
    | real | string => contradiction
    | integer =>
        cases number with
        | integer n => contradiction
        | real x => exact Binary64.toInteger_error (map_eq_error.1 unfit)

end Fitting

theorem Session.assign_error {session after : Session} {text : Text} {fault : Fault}
    (failed : session.assign text = (some fault, after)) :
    session.scope.assigned text = .error fault := by
  unfold assign at failed
  cases assigned : session.scope.assigned text with
  | error raised =>
      rw [assigned] at failed
      cases failed
      rfl
  | ok table =>
      rw [assigned] at failed
      cases failed

theorem Scope.assigned_error {scope : Scope} {text : Text} {fault : Fault}
    (assigns : Command.assigns scope text = true) (failed : scope.assigned text = .error fault) :
    fault.OfAssignment scope (expressionOf text) := by
  obtain ⟨left, right, cut, _, declared⟩ := Command.assigns_iff.1 assigns
  simp only [assigned, cut] at failed
  by_cases constant : scope.constants.contains (Text.trim left) = true
  · rw [if_pos constant] at failed
    cases failed
    exact .assignsConstant _
  · rw [if_neg constant] at failed
    cases held : scope.variables.get? (Text.trim left) with
    | none =>
        -- A declared name that is in neither table: there is none.
        simp [contains, Symbols.contains, held] at declared constant
        simp [constant] at declared
    | some old =>
        rw [held] at failed
        simp only [expressionOf, cut]
        rcases bind_eq_error.1 failed with unevaluated | ⟨number, _, fitting⟩
        · exact evaluate_error unevaluated
        · rcases bind_eq_error.1 fitting with unfit | ⟨_, _, stored⟩
          · exact Value.coerce_error unfit
          · contradiction

namespace Fault.OfAssignment

variable {scope : Scope} {source : Text} {fault : Fault}

theorem not_malformed (raised : fault.OfAssignment scope source) (cause : Malformed) :
    fault ≠ .malformed cause := by
  rintro rfl
  cases raised with
  | arithmetic arithmetic => rcases arithmetic with same | same <;> contradiction

theorem not_undefined (raised : fault.OfAssignment scope source)
    (declared : ∀ name, Mentions source name → scope.contains name = true) (name : Text) :
    fault ≠ .undefined name := by
  rintro rfl
  cases raised with
  | undefined mentioned unknown =>
      rw [declared name mentioned] at unknown
      contradiction
  | arithmetic arithmetic => rcases arithmetic with same | same <;> contradiction

end Fault.OfAssignment

end AssignmentFaults

namespace Program

variable {source : Text} {program : Program}

/-- In all tables that a loaded program reaches, each of its statements belongs to the command
that it was bound to. One that was bound to an assignment never fails for its form, nor for an
unknown name as long as the names in its expression are declared. And whatever tables there are, a
line that can be taken apart as a call belongs to the command of its keyword. -/
theorem commands_stay_bound {scope : Scope} (loaded : load source = .ok program)
    (reached : program.Reaches scope) :
    (∀ statement ∈ program.statements,
      Command.classify? Command.standard scope statement.text = some statement.command ∧
      (statement.command = .assign → ∀ input output error after,
        Session.step ⟨scope, input, output⟩ statement = (some error, after) →
          (∀ cause, error.fault ≠ .malformed cause) ∧
          ((∀ name, Mentions (expressionOf statement.text) name → scope.contains name = true) →
            ∀ name, error.fault ≠ .undefined name))) ∧
    ∀ command ∈ Command.standard, ∀ tables text arguments,
      callArguments command.keyword text = .ok arguments →
      Command.classify? Command.standard tables text = some command := by
  obtain ⟨outline, _, _, _, bound⟩ := loadWith_ok loaded
  refine ⟨?_, fun command known tables text arguments called =>
    Command.classify?_of_call known called tables⟩
  intro statement member
  have again : Command.classify? Command.standard scope statement.text = some statement.command :=
    (Command.classify?_congr reached.scope_keeps.contains _ _).trans
      (Statement.ofLines_bound bound statement member)
  refine ⟨again, ?_⟩
  intro assigning input output error after failed
  rw [assigning] at again
  obtain ⟨_, performed⟩ := Session.step_failed_iff.1 failed
  rw [assigning] at performed
  have raised : error.fault.OfAssignment scope (expressionOf statement.text) :=
    Scope.assigned_error (Command.assigns_of_classify? again) (Session.assign_error performed)
  exact ⟨raised.not_malformed, raised.not_undefined⟩

def shadowing : Text :=
  ("Algorithm Shadows;\nVariables\n    Write = 1 : Integer;\n    n : Integer;\nBegin\n" ++
    "    Read(n);\n    Write = Write + n;\n    Write(\"n = \", n);\nEnd").toList

-- A variable is named like a command. The run finds no input, so `n` has no value afterwards.
theorem shadowing_stays_bound :
    ∃ program, load shadowing = .ok program ∧
      let scope := (program.after [⟨[], .unlimited⟩]).scope
      scope.contains Command.write.keyword = true ∧
      Command.classify? Command.standard scope "Write = Write + n;".toList = some .assign ∧
      Command.classify? Command.standard scope "Write(\"n = \", n);".toList = some .write ∧
      ∃ error after, Session.step ⟨scope, .ofBytes [], .unlimited⟩
          ⟨7, .assign, "Write = Write + n;".toList⟩ = (some error, after) ∧
        ∀ name, error.fault ≠ .undefined name := by
  have held : (load shadowing).toOption.map (fun program =>
      let scope := (program.after [⟨[], .unlimited⟩]).scope
      (program.statements.drop 1, scope.contains Command.write.keyword, scope.contains ['n'],
        (Session.step ⟨scope, .ofBytes [], .unlimited⟩
          ⟨7, .assign, "Write = Write + n;".toList⟩).1)) =
      some ([⟨7, .assign, "Write = Write + n;".toList⟩,
        ⟨8, .write, "Write(\"n = \", n);".toList⟩], true, true,
        some ⟨7, .unset ['n']⟩) := by decide +kernel
  have lexed : lex (expressionOf "Write = Write + n;".toList) =
      .ok [.atom (.name Command.write.keyword), .operator .add, .atom (.name ['n'])] := by
    decide +kernel
  cases loaded : load shadowing with
  | error rejection =>
      rw [loaded] at held
      contradiction
  | ok program =>
      rw [loaded] at held
      obtain ⟨statements, rest⟩ := Prod.mk.inj (Option.some.inj held)
      obtain ⟨command, rest⟩ := Prod.mk.inj rest
      obtain ⟨n, failed⟩ := Prod.mk.inj rest
      have listed {statement : Statement} (member : statement ∈ program.statements.drop 1) :
          statement ∈ program.statements := List.mem_of_mem_drop member
      obtain ⟨kept, calls⟩ := commands_stay_bound loaded (.after [⟨[], .unlimited⟩])
      obtain ⟨again, faults⟩ := kept ⟨7, .assign, "Write = Write + n;".toList⟩
        (listed (statements ▸ List.mem_cons_self))
      refine ⟨program, rfl, command, again, calls .write (by decide) _ _ "\"n = \", n".toList
        (by decide +kernel), ⟨7, .unset ['n']⟩, _, Prod.ext failed rfl, ?_⟩
      apply (faults rfl _ _ _ _ (Prod.ext failed rfl)).2
      rintro name ⟨tokens, same, member⟩
      rw [lexed] at same
      cases same
      simp only [List.mem_cons, Token.atom.injEq, Atom.name.injEq, reduceCtorEq, false_or,
        List.not_mem_nil, or_false] at member
      rcases member with rfl | rfl
      · exact command
      · exact n

end Program

end Pseudocode
