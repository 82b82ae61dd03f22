import Mathlib
import Pseudocode.Proofs.Loading
import Pseudocode.Proofs.Substitution

/-!
Which fault an expression reports when several are in it. The text has to split into tokens, then
every name has to hold a number, then the tokens have to be in the grammar, and only then is
anything computed. A fault of an earlier phase hides those of the later ones, and within a phase the
leftmost name or the operation that is computed first decides.

Once the names hold numbers, every value that comes up is a number. The operations on values check
for that all the same, but none of these checks ever fails.
-/

namespace Pseudocode

namespace Expr

/-- An expression with all expressions inside it, in the order in which they get their values:
operands before their operation, the left operand before the right. -/
def parts {α : Type} : Expr α → List (Expr α)
  | .leaf value => [.leaf value]
  | .signed sign operand => operand.parts ++ [.signed sign operand]
  | .binary left op right => left.parts ++ right.parts ++ [.binary left op right]

/-- The value of an expression by the operations on values, which refuse what is not a number. -/
def evalValue : Expr Number → Except Fault Value
  | .leaf number => .ok (.number number)
  | .signed sign operand => do
      let value ← operand.evalValue
      value.applySign sign
  | .binary left op right => do
      let a ← left.evalValue
      let b ← right.evalValue
      Value.apply op a b

theorem evalValue_eq (expr : Expr Number) : expr.evalValue = expr.eval.map Value.number := by
  induction expr with
  | leaf number => rfl
  | signed sign operand ih =>
      simp only [evalValue, eval, ih]
      cases operand.eval <;> rfl
  | binary left op right before after =>
      simp only [evalValue, eval, before, after]
      cases left.eval with
      | error fault => rfl
      | ok a => cases right.eval <;> rfl

theorem evalValue_number {expr : Expr Number} {value : Value}
    (valued : expr.evalValue = .ok value) : ∃ number, value = .number number := by
  rw [evalValue_eq, map_eq_ok] at valued
  obtain ⟨number, _, rfl⟩ := valued
  exact ⟨number, rfl⟩

theorem evalValue_error {expr : Expr Number} {fault : Fault}
    (failed : expr.evalValue = .error fault) : fault.IsArithmetic := by
  rw [evalValue_eq, map_eq_error] at failed
  exact eval_error failed

/-- An operation with the values it gets. -/
inductive Call where
  | signed (sign : Sign) (operand : Value)
  | binary (op : Operator) (left right : Value)

def Call.operands : Call → List Value
  | .signed _ operand => [operand]
  | .binary _ left right => [left, right]

def Call.result : Call → Except Fault Value
  | .signed sign operand => operand.applySign sign
  | .binary op left right => Value.apply op left right

/-- The operation at the top, once its operands have values. -/
inductive Makes : Expr Number → Call → Prop where
  | signed {sign : Sign} {operand : Expr Number} {value : Value}
      (valued : operand.evalValue = .ok value) : Makes (.signed sign operand) (.signed sign value)
  | binary {left right : Expr Number} {op : Operator} {a b : Value}
      (first : left.evalValue = .ok a) (second : right.evalValue = .ok b) :
      Makes (.binary left op right) (.binary op a b)

theorem Makes.evalValue_eq {expr : Expr Number} {call : Call} (makes : expr.Makes call) :
    expr.evalValue = call.result := by
  cases makes with
  | signed valued => simp only [evalValue, valued, ok_bind, Call.result]
  | binary first second => simp only [evalValue, first, second, ok_bind, Call.result]

theorem Makes.result_ne_mismatch {expr : Expr Number} {call : Call} (makes : expr.Makes call)
    (cause : Mismatch) : call.result ≠ .error (.mismatch cause) := by
  intro refused
  rw [← makes.evalValue_eq] at refused
  rcases evalValue_error refused with same | same <;> cases same

theorem Makes.operands_real {expr : Expr Number} {call : Call} (makes : expr.Makes call) :
    ∀ value ∈ call.operands, ∃ x, value.toReal = .ok x := by
  have real : ∀ {inner : Expr Number} {value : Value}, inner.evalValue = .ok value →
      ∃ x, value.toReal = .ok x := by
    intro inner value valued
    obtain ⟨number, rfl⟩ := evalValue_number valued
    exact ⟨number.toReal, rfl⟩
  intro value member
  cases makes with
  | signed valued =>
      cases List.mem_singleton.1 member
      exact real valued
  | binary first second =>
      rcases List.mem_pair.1 member with rfl | rfl
      · exact real first
      · exact real second

section FirstFailure

/-- The operation at the top fails, on operands that have values. -/
def Fails (expr : Expr Number) (fault : Fault) : Prop :=
  ∃ call, expr.Makes call ∧ call.result = .error fault

theorem Fails.evalValue_eq {expr : Expr Number} {fault : Fault} (fails : expr.Fails fault) :
    expr.evalValue = .error fault := by
  obtain ⟨call, makes, failed⟩ := fails
  rw [makes.evalValue_eq, failed]

def HasValue (expr : Expr Number) : Prop := ∃ value, expr.evalValue = .ok value

/-- The operation that fails where all computed before it have values. -/
def FirstFailure (expr : Expr Number) (fault : Fault) : Prop :=
  ∃ front node back, expr.parts = front ++ node :: back ∧ (∀ part ∈ front, part.HasValue) ∧
    node.Fails fault

theorem parts_hasValue {expr : Expr Number} (valued : expr.HasValue) :
    ∀ part ∈ expr.parts, part.HasValue := by
  induction expr with
  | leaf number => simpa [parts] using valued
  | signed sign operand ih =>
      obtain ⟨value, computed⟩ := valued
      obtain ⟨inner, inside, _⟩ := bind_eq_ok.1 computed
      intro part member
      simp only [parts, List.mem_append, List.mem_singleton] at member
      rcases member with member | rfl
      · exact ih ⟨inner, inside⟩ part member
      · exact ⟨value, computed⟩
  | binary left op right before after =>
      obtain ⟨value, computed⟩ := valued
      obtain ⟨a, first, rest⟩ := bind_eq_ok.1 computed
      obtain ⟨b, second, _⟩ := bind_eq_ok.1 rest
      intro part member
      simp only [parts, List.mem_append, List.mem_singleton] at member
      rcases member with (member | member) | rfl
      · exact before ⟨a, first⟩ part member
      · exact after ⟨b, second⟩ part member
      · exact ⟨value, computed⟩

theorem firstFailure_of_error {expr : Expr Number} {fault : Fault}
    (failed : expr.evalValue = .error fault) : expr.FirstFailure fault := by
  induction expr generalizing fault with
  | leaf number => cases failed
  | signed sign operand ih =>
      rcases bind_eq_error.1 failed with inside | ⟨value, valued, refused⟩
      · obtain ⟨front, node, back, split, earlier, fails⟩ := ih inside
        exact ⟨front, node, back ++ [.signed sign operand], by simp [parts, split], earlier, fails⟩
      · exact ⟨operand.parts, _, [], rfl, parts_hasValue ⟨value, valued⟩,
          _, .signed valued, refused⟩
  | binary left op right before after =>
      rcases bind_eq_error.1 failed with inLeft | ⟨a, first, rest⟩
      · obtain ⟨front, node, back, split, earlier, fails⟩ := before inLeft
        exact ⟨front, node, back ++ right.parts ++ [.binary left op right],
          by simp [parts, split], earlier, fails⟩
      · have leftValued := parts_hasValue ⟨a, first⟩
        rcases bind_eq_error.1 rest with inRight | ⟨b, second, refused⟩
        · obtain ⟨front, node, back, split, earlier, fails⟩ := after inRight
          refine ⟨left.parts ++ front, node, back ++ [.binary left op right],
            by simp [parts, split], ?_, fails⟩
          intro part member
          exact (List.mem_append.1 member).elim (leftValued part) (earlier part)
        · refine ⟨left.parts ++ right.parts, _, [], rfl, ?_, _, .binary first second, refused⟩
          intro part member
          exact (List.mem_append.1 member).elim (leftValued part)
            (parts_hasValue ⟨b, second⟩ part)

theorem Fails.not_hasValue {expr : Expr Number} {fault : Fault} (fails : expr.Fails fault) :
    ¬ expr.HasValue := by
  rintro ⟨value, valued⟩
  rw [fails.evalValue_eq] at valued
  cases valued

theorem FirstFailure.unique {expr : Expr Number} {one other : Fault}
    (first : expr.FirstFailure one) (second : expr.FirstFailure other) : one = other := by
  classical
  have found : ∀ {fault}, expr.FirstFailure fault →
      ∃ node, expr.parts.find? (fun part => ¬ part.HasValue) = some node ∧ node.Fails fault := by
    rintro fault ⟨front, node, back, split, earlier, fails⟩
    refine ⟨node, List.find?_eq_some_iff_append.2 ⟨by simpa using fails.not_hasValue, ?_⟩, fails⟩
    exact ⟨front, back, split, fun part member => by simpa using earlier part member⟩
  obtain ⟨node, position, fails⟩ := found first
  obtain ⟨same, again, also⟩ := found second
  cases position.symm.trans again
  have told := fails.evalValue_eq.symm.trans also.evalValue_eq
  exact Except.error.inj told

theorem evalValue_error_iff {expr : Expr Number} {fault : Fault} :
    expr.evalValue = .error fault ↔ expr.FirstFailure fault := by
  refine ⟨firstFailure_of_error, fun failure => ?_⟩
  cases result : expr.evalValue with
  | error told => rw [(firstFailure_of_error result).unique failure]
  | ok value =>
      obtain ⟨front, node, back, split, _, fails⟩ := failure
      have valued := parts_hasValue ⟨value, result⟩ node (by simp [split])
      exact absurd valued fails.not_hasValue

end FirstFailure

end Expr

namespace Scope

variable {scope : Scope} {tokens : List Token}

/-- What a name stands for in an expression. A constant comes before a variable of its name. -/
inductive Finds (scope : Scope) (name : Text) : Option Value → Prop where
  | constant {value : Value} (known : scope.constants.get? name = some value) :
      Finds scope name (some value)
  | «variable» {result : Option Value} (free : scope.constants.get? name = none)
      (found : scope.variables.get? name = result) : Finds scope name result

theorem finds_iff {name : Text} {result : Option Value} :
    scope.Finds name result ↔ scope.operand? name = result := by
  constructor
  · rintro (known | ⟨free, rfl⟩)
    · simp [operand?, known]
    · simp [operand?, free]
  · rintro rfl
    cases held : scope.constants.get? name with
    | none => exact .variable held (by simp [operand?, held])
    | some value => simpa [operand?, held] using Finds.constant held

/-- Why a name cannot be used in an expression. -/
inductive Lacks (scope : Scope) (name : Text) : Fault → Prop where
  | unknown (missing : scope.Finds name none) : Lacks scope name (.undefined name)
  | string {text : Text} (found : scope.Finds name (some (.string text))) :
      Lacks scope name (.mismatch (.stringOperand name))
  | unset {kind : Kind} (found : scope.Finds name (some (.unset kind))) :
      Lacks scope name (.unset name)

theorem Lacks.number_eq {name : Text} {fault : Fault} (lacks : scope.Lacks name fault) :
    scope.number name = .error fault := by
  cases lacks with
  | unknown found | string found | unset found => simp [number, finds_iff.1 found]

theorem number_or_lacks (scope : Scope) (name : Text) :
    (∃ n, scope.operand? name = some (.number n)) ∨ ∃ fault, scope.Lacks name fault := by
  cases found : scope.operand? name with
  | none => exact .inr ⟨_, .unknown (finds_iff.2 found)⟩
  | some value =>
      cases value with
      | number n => exact .inl ⟨n, rfl⟩
      | string text => exact .inr ⟨_, .string (finds_iff.2 found)⟩
      | unset kind => exact .inr ⟨_, .unset (finds_iff.2 found)⟩

/-- The leftmost name without a number. -/
def FirstLack (scope : Scope) (tokens : List Token) (fault : Fault) : Prop :=
  ∃ front name back, tokens = front ++ .atom (.name name) :: back ∧ scope.Numeric front ∧
    scope.Lacks name fault

theorem numeric_cons {token : Token} :
    scope.Numeric (token :: tokens) ↔
      (∀ name, token = .atom (.name name) → ∃ n, scope.operand? name = some (.number n)) ∧
        scope.Numeric tokens := by
  simp only [Numeric, List.mem_cons, or_imp, forall_and, eq_comm]

theorem firstLack_of_not_numeric (short : ¬ scope.Numeric tokens) :
    ∃ fault, scope.FirstLack tokens fault := by
  induction tokens with
  | nil => exact absurd (fun name member => nomatch member) short
  | cons token rest ih =>
      by_cases holds : ∀ name, token = .atom (.name name) →
          ∃ n, scope.operand? name = some (.number n)
      · obtain ⟨fault, front, name, back, rfl, numeric, lacks⟩ :=
          ih fun others => short (numeric_cons.2 ⟨holds, others⟩)
        exact ⟨fault, token :: front, name, back, rfl, numeric_cons.2 ⟨holds, numeric⟩, lacks⟩
      · push Not at holds
        obtain ⟨name, rfl, without⟩ := holds
        rcases scope.number_or_lacks name with ⟨n, held⟩ | ⟨fault, lacks⟩
        · exact absurd held (without n)
        · exact ⟨fault, [], name, rest, rfl, fun name member => (nomatch member), lacks⟩

theorem resolveAll_append (front back : List Token) :
    scope.resolveAll (front ++ back) =
      scope.resolveAll front >>= fun before => (scope.resolveAll back).map (before ++ ·) := by
  induction front with
  | nil =>
      rw [List.nil_append, resolveAll, ok_bind]
      cases scope.resolveAll back <;> rfl
  | cons token rest ih =>
      simp only [List.cons_append, resolveAll, ih]
      cases scope.resolve token with
      | error fault => rfl
      | ok head =>
          cases scope.resolveAll rest with
          | error fault => rfl
          | ok tail => cases scope.resolveAll back <;> rfl

theorem FirstLack.resolveAll_eq {fault : Fault} (lack : scope.FirstLack tokens fault) :
    scope.resolveAll tokens = .error fault := by
  obtain ⟨front, name, back, rfl, numeric, lacks⟩ := lack
  rw [resolveAll_append, resolveAll_numeric numeric, ok_bind]
  simp only [resolveAll, resolve, lacks.number_eq]
  rfl

theorem evaluate_of_unlexed {source : Text} {cause : BadExpression}
    (unlexed : lex source = .error cause) (scope : Scope) :
    scope.evaluate source = .error (.badExpression cause) := by
  simp only [evaluate, unlexed, Except.mapError, bind, Except.bind]

theorem evaluate_of_unresolved {source : Text} {fault : Fault} (lexed : lex source = .ok tokens)
    (lack : scope.FirstLack tokens fault) : scope.evaluate source = .error fault := by
  simp only [evaluate, lexed, lack.resolveAll_eq, Except.mapError, bind, Except.bind]

theorem evaluate_of_spelled {source : Text} (lexed : lex source = .ok tokens)
    (numeric : scope.Numeric tokens) {tree : Expr Atom}
    (spelled : Expr.Spells some .sum tokens tree) :
    (scope.evaluate source).map Value.number = (tree.map scope.held).evalValue := by
  have parsed := Expr.parse_of_spells some spelled
  rw [evaluate_of_parsed lexed numeric parsed, ← eval_parsed numeric parsed, Expr.evalValue_eq]

theorem evaluate_error_iff_firstFailure {source : Text} (lexed : lex source = .ok tokens)
    (numeric : scope.Numeric tokens) {tree : Expr Atom}
    (spelled : Expr.Spells some .sum tokens tree) (fault : Fault) :
    scope.evaluate source = .error fault ↔ (tree.map scope.held).FirstFailure fault := by
  rw [← Expr.evalValue_error_iff, ← evaluate_of_spelled lexed numeric spelled, map_eq_error]

theorem evaluate_unspelled_iff {source : Text} (lexed : lex source = .ok tokens)
    (numeric : scope.Numeric tokens) :
    (∃ cause, scope.evaluate source = .error (.badExpression cause)) ↔
      ∀ tree, ¬ Expr.Spells some .sum tokens tree := by
  constructor
  · rintro ⟨cause, failed⟩ tree spelled
    have first := (evaluate_error_iff_firstFailure lexed numeric spelled _).1 failed
    rcases Expr.evalValue_error (Expr.evalValue_error_iff.2 first) with same | same <;> cases same
  · intro unspelled
    cases parsed : Expr.parse some tokens with
    | error cause => exact ⟨_, evaluate_of_unparsed lexed numeric parsed⟩
    | ok tree => exact absurd (Expr.spells_of_parse some parsed) (unspelled tree)

/-- All that evaluation can come to once the phases before it have passed. -/
theorem evaluate_outcome {source : Text} (lexed : lex source = .ok tokens)
    (numeric : scope.Numeric tokens) {tree : Expr Atom}
    (spelled : Expr.Spells some .sum tokens tree) :
    (∃ n, scope.evaluate source = .ok (.integer n)) ∨
    (∃ x, scope.evaluate source = .ok (.real x)) ∨
    scope.evaluate source = .error .overflow ∨
    scope.evaluate source = .error .divisionByZero := by
  cases result : scope.evaluate source with
  | ok value =>
      cases value with
      | integer n => exact .inl ⟨n, rfl⟩
      | real x => exact .inr (.inl ⟨x, rfl⟩)
  | error fault =>
      have first := (evaluate_error_iff_firstFailure lexed numeric spelled fault).1 result
      rcases Expr.evalValue_error (Expr.evalValue_error_iff.2 first) with rfl | rfl
      · exact .inr (.inr (.inl rfl))
      · exact .inr (.inr (.inr rfl))

theorem mismatch_of_name {source : Text} {cause : Mismatch}
    (failed : scope.evaluate source = .error (.mismatch cause)) :
    ∃ name, cause = .stringOperand name := by
  cases lexed : lex source with
  | error unlexed =>
      rw [evaluate_of_unlexed lexed scope] at failed
      cases failed
  | ok tokens =>
      by_cases numeric : scope.Numeric tokens
      · by_cases spelled : ∃ tree, Expr.Spells some .sum tokens tree
        · obtain ⟨tree, spelled⟩ := spelled
          rcases evaluate_outcome lexed numeric spelled with ⟨n, same⟩ | ⟨x, same⟩ | same | same <;>
            cases failed.symm.trans same
        · obtain ⟨bad, same⟩ :=
            (evaluate_unspelled_iff lexed numeric).2 (not_exists.1 spelled)
          cases failed.symm.trans same
      · obtain ⟨fault, lack⟩ := firstLack_of_not_numeric numeric
        cases failed.symm.trans (evaluate_of_unresolved lexed lack)
        obtain ⟨front, name, back, _, _, lacks⟩ := lack
        cases lacks
        exact ⟨name, rfl⟩

/-- The value or the fault of an expression is settled in four phases, each asked only if those
before it have passed: the tokens, the numbers of the names from left to right, the grammar, and
the operations in the order in which they are computed. No operation ever gets a value that it has
to refuse for its type, so that a mismatch is always one of a name. -/
theorem evaluate_phases (scope : Scope) (source : Text) :
    (∀ cause, lex source = .error cause →
      scope.evaluate source = .error (.badExpression cause)) ∧
    (∀ tokens, lex source = .ok tokens →
      (¬ scope.Numeric tokens → ∃ fault, scope.FirstLack tokens fault) ∧
      (∀ fault, scope.FirstLack tokens fault → scope.evaluate source = .error fault) ∧
      (scope.Numeric tokens →
        ((∃ cause, scope.evaluate source = .error (.badExpression cause)) ↔
          ∀ tree, ¬ Expr.Spells some .sum tokens tree) ∧
        ∀ tree, Expr.Spells some .sum tokens tree →
          ((∃ n, scope.evaluate source = .ok (.integer n)) ∨
            (∃ x, scope.evaluate source = .ok (.real x)) ∨
            scope.evaluate source = .error .overflow ∨
            scope.evaluate source = .error .divisionByZero) ∧
          (scope.evaluate source).map Value.number = (tree.map scope.held).evalValue ∧
          (∀ fault, scope.evaluate source = .error fault ↔
            (tree.map scope.held).FirstFailure fault) ∧
          ∀ node ∈ (tree.map scope.held).parts, ∀ call, node.Makes call →
            (∀ cause, call.result ≠ .error (.mismatch cause)) ∧
            ∀ value ∈ call.operands, ∃ x, value.toReal = .ok x)) ∧
    ∀ cause, scope.evaluate source = .error (.mismatch cause) →
      ∃ name, cause = .stringOperand name := by
  refine ⟨fun cause unlexed => evaluate_of_unlexed unlexed scope, ?_,
    fun cause failed => mismatch_of_name failed⟩
  intro tokens lexed
  refine ⟨firstLack_of_not_numeric, fun fault lack => evaluate_of_unresolved lexed lack, ?_⟩
  intro numeric
  refine ⟨evaluate_unspelled_iff lexed numeric, fun tree spelled => ?_⟩
  refine ⟨evaluate_outcome lexed numeric spelled, evaluate_of_spelled lexed numeric spelled,
    evaluate_error_iff_firstFailure lexed numeric spelled, ?_⟩
  intro node _ call makes
  exact ⟨makes.result_ne_mismatch, makes.operands_real⟩

def largest : Number := .integer ⟨2 ^ 63 - 1, by decide⟩

/-- The tokens of `x / (y + 2)`. -/
def overZero : List Token :=
  [.atom (.name ['x']), .operator .div, .opening, .atom (.name ['y']), .operator .add,
    .atom (.number Expr.two), .closing]

def overZeroTree : Expr Atom :=
  .binary (.leaf (.name ['x'])) .div
    (.binary (.leaf (.name ['y'])) .add (.leaf (.number Expr.two)))

-- The product would overflow.
def quotientPlusProduct : List Token :=
  overZero ++ [.operator .add, .atom (.number largest), .operator .mul, .atom (.name ['y'])]

def quotientPlusProductTree : Expr Atom :=
  .binary overZeroTree .add (.binary (.leaf (.number largest)) .mul (.leaf (.name ['y'])))

-- Every text has a second fault, which a later phase would report.
theorem faults_in_order :
    threeAndMinusTwo.evaluate "x + n $".toList = .error (.badExpression (.badToken ['$'])) ∧
    threeAndMinusTwo.evaluate "x + n * (".toList = .error (.undefined ['n']) ∧
    (∃ cause, threeAndMinusTwo.evaluate "(x / (y + 2)".toList = .error (.badExpression cause)) ∧
    threeAndMinusTwo.evaluate "x / (y + 2) + 9223372036854775807 * y".toList =
      .error .divisionByZero ∧
    (quotientPlusProductTree.map threeAndMinusTwo.held).FirstFailure .divisionByZero := by
  have both : ∀ tokens : List Token,
      (∀ name, .atom (.name name) ∈ tokens → name = ['x'] ∨ name = ['y']) →
        threeAndMinusTwo.Numeric tokens := by
    intro tokens named name member
    rcases named name member with rfl | rfl
    · exact ⟨.integer ⟨3, by decide⟩, rfl⟩
    · exact ⟨.integer ⟨-2, by decide⟩, rfl⟩
  refine ⟨?_, ?_, ?_, ?_⟩
  · exact (evaluate_phases threeAndMinusTwo "x + n $".toList).1 _ (by cbv)
  · refine ((evaluate_phases threeAndMinusTwo "x + n * (".toList).2.1 _ (by cbv)).2.1 _ ?_
    refine ⟨[.atom (.name ['x']), .operator .add], ['n'], [.operator .mul, .opening], rfl, ?_,
      .unknown (.variable rfl rfl)⟩
    exact both _ (by simp)
  · have phases := (evaluate_phases threeAndMinusTwo "(x / (y + 2)".toList).2.1
      (.opening :: overZero) (by cbv)
    refine (phases.2.2 (both _ (by simp [overZero]))).1.2 fun tree spelled => ?_
    have parsed := Expr.parse_of_spells some spelled
    have unparsed : Expr.parse some (.opening :: overZero) = .error .neverClosed := by cbv
    cases parsed.symm.trans unparsed
  · have phases := (evaluate_phases threeAndMinusTwo
      "x / (y + 2) + 9223372036854775807 * y".toList).2.1 quotientPlusProduct (by cbv)
    have spelled : Expr.Spells some .sum quotientPlusProduct quotientPlusProductTree :=
      Expr.spells_of_parse some (by cbv)
    have settled := (phases.2.2 (both _ (by simp [quotientPlusProduct, overZero]))).2 _ spelled
    have failed : threeAndMinusTwo.evaluate "x / (y + 2) + 9223372036854775807 * y".toList =
        .error .divisionByZero := by cbv
    exact ⟨failed, (settled.2.2.1 _).1 failed⟩

end Scope

end Pseudocode
