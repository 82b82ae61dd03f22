import Mathlib
import Pseudocode.Proofs.LongestMatch
import Pseudocode.Proofs.Phases

/-!
Expressions put together from expressions. A parenthesis ends every token that stands before it, so
a text keeps its tokens when it is put in parentheses, whatever comes behind them. Its names keep
their numbers, and in the grammar a group is a single operand. So the value of the whole is computed
from the values of the parts, without a look at how they are written.
-/

namespace Pseudocode

theorem Pattern.Matches.closing {pattern : Pattern} {text : Text} (found : pattern.Matches text)
    (member : ')' ∈ text) : text = [')'] := by
  cases form_of_matches found with
  | numeral numeral wellFormed =>
      rcases Numeral.mem_spelling wellFormed ')' member with plain | same <;> contradiction
  | identifier _ identifier =>
      have plain := Text.plain_of_identifier identifier ')' member
      contradiction
  | operator op => cases op <;> simp [Operator.symbol] at member
  | opening => simp at member
  | closing => rfl

/-- A match that goes beyond the parenthesis would have it inside. -/
theorem Longest.closed {pattern : Pattern} {lexeme text : Text}
    (longest : Longest pattern lexeme text) (more : Text) :
    Longest pattern lexeme (text ++ ')' :: more) := by
  refine ⟨longest.leads.trans (List.prefix_append ..), longest.matched, ?_⟩
  intro other front matched leads
  rcases List.prefix_or_prefix_of_prefix leads (List.prefix_append text (')' :: more)) with
    inside | ⟨beyond, rfl⟩
  · exact longest.longest other front matched inside
  · cases beyond with
    | nil => exact longest.longest other _ matched (by simp)
    | cons c rest =>
        rw [List.prefix_append_right_inj, List.cons_prefix_cons] at leads
        rw [matched.closing (by simp [leads.1])]
        obtain ⟨first, others, shape⟩ := longest.matched.filled
        simp [shape]

theorem Munches.closed {source left : Text} {tokens : List Token}
    (munched : Munches source tokens left) (more : Text) :
    Munches (source ++ ')' :: more) tokens (left ++ ')' :: more) := by
  induction munched with
  | nothing text => exact .nothing _
  | token blank longest value _ ih =>
      rw [List.append_assoc, List.append_assoc]
      refine .token blank ?_ value ih
      rw [← List.append_assoc]
      exact longest.closed more

theorem lex_opening (rest : Text) : lex ('(' :: rest) = (lex rest).map (.opening :: ·) :=
  lex_lexeme rfl rfl

theorem lex_closing (rest : Text) : lex (')' :: rest) = (lex rest).map (.closing :: ·) :=
  lex_lexeme rfl rfl

/-- An expression in parentheses. -/
def grouped (source : Text) : Text := '(' :: (source ++ [')'])

def groupedTokens (tokens : List Token) : List Token := .opening :: (tokens ++ [.closing])

theorem lex_grouped {source : Text} {tokens : List Token} (lexed : lex source = .ok tokens)
    (more : Text) : lex (grouped source ++ more) = (lex more).map (groupedTokens tokens ++ ·) := by
  obtain ⟨spaces, munched, blank⟩ := lex_ok_iff.1 lexed
  have shape : grouped source ++ more = '(' :: (source ++ ')' :: more) := by simp [grouped]
  rw [shape, lex_opening, (munched.closed more).lex_eq, lex_spaces blank, lex_closing]
  cases lex more with
  | error cause => rfl
  | ok others => simp [groupedTokens, Except.map]

theorem lex_grouped_alone {source : Text} {tokens : List Token} (lexed : lex source = .ok tokens) :
    lex (grouped source) = .ok (groupedTokens tokens) := by
  have alone := lex_grouped lexed []
  rw [List.append_nil, lex] at alone
  rw [alone]
  exact congrArg Except.ok (List.append_nil _)

namespace Scope

variable {scope : Scope}

theorem resolveAll_joined {front back first second : List Token}
    (before : scope.resolveAll front = .ok first) (after : scope.resolveAll back = .ok second) :
    scope.resolveAll (front ++ back) = .ok (first ++ second) := by
  rw [resolveAll_append, before, ok_bind, after]
  rfl

theorem resolveAll_cons {token : Token} {tokens resolved : List Token}
    (own : scope.resolve token = .ok token) (found : scope.resolveAll tokens = .ok resolved) :
    scope.resolveAll (token :: tokens) = .ok (token :: resolved) := by
  simp only [resolveAll, own, found, bind, Except.bind]

theorem resolveAll_grouped {tokens resolved : List Token}
    (found : scope.resolveAll tokens = .ok resolved) :
    scope.resolveAll (groupedTokens tokens) = .ok (groupedTokens resolved) :=
  resolveAll_cons rfl (resolveAll_joined found rfl)

/-- The tokens of a text, with numbers in the places of the names, spell a tree. -/
def Means (scope : Scope) (source : Text) (expr : Expr Number) : Prop :=
  ∃ tokens resolved, lex source = .ok tokens ∧ scope.resolveAll tokens = .ok resolved ∧
    Expr.Spells Atom.number? .sum resolved expr

theorem Means.evaluate {source : Text} {expr : Expr Number} (means : scope.Means source expr) :
    scope.evaluate source = expr.eval := by
  obtain ⟨tokens, resolved, lexed, found, spelled⟩ := means
  have parsed := Expr.parse_of_spells _ spelled
  simp only [Scope.evaluate, lexed, found, parsed, Except.mapError, bind, Except.bind]

theorem means_of_evaluate {source : Text} {value : Number}
    (evaluated : scope.evaluate source = .ok value) :
    ∃ expr, scope.Means source expr ∧ expr.eval = .ok value := by
  obtain ⟨tokens, lexed, resolving⟩ := bind_eq_ok.1 evaluated
  obtain ⟨resolved, found, parsing⟩ := bind_eq_ok.1 resolving
  obtain ⟨expr, parsed, valued⟩ := bind_eq_ok.1 parsing
  rw [mapError_eq_ok] at lexed parsed
  exact ⟨expr, ⟨tokens, resolved, lexed, found, Expr.spells_of_parse _ parsed⟩, valued⟩

end Scope

/-- A group is an operand of any rank. -/
theorem Expr.spells_grouped {leaf : Atom → Option Number} {tokens : List Token}
    {expr : Expr Number} (spelled : Spells leaf .sum tokens expr) :
    Spells leaf .signed (groupedTokens tokens) expr :=
  .primary _ _ (.group tokens expr spelled)

theorem Expr.spells_binary {leaf : Atom → Option Number} {front back : List Token}
    {left right : Expr Number} (op : Operator) (before : Spells leaf .signed front left)
    (after : Spells leaf .signed back right) :
    Spells leaf .sum (front ++ .operator op :: back) (.binary left op right) := by
  cases rank : op.isAdditive with
  | true =>
      exact .add op front back left right rank (.product _ _ (.signed _ _ before))
        (.signed _ _ after)
  | false =>
      exact .product _ _ (.multiply op front back left right rank (.signed _ _ before) after)

namespace Scope

variable {scope : Scope} {first second : Text} {left right : Expr Number}

theorem Means.group (means : scope.Means first left) :
    scope.Means (grouped first) left := by
  obtain ⟨tokens, resolved, lexed, found, spelled⟩ := means
  exact ⟨_, _, lex_grouped_alone lexed, resolveAll_grouped found,
    .product _ _ (.signed _ _ (Expr.spells_grouped spelled))⟩

theorem Means.signed (means : scope.Means first left) {op : Operator} {sign : Sign}
    (signs : op.sign? = some sign) :
    scope.Means (op.symbol :: grouped first) (.signed sign left) := by
  obtain ⟨tokens, resolved, lexed, found, spelled⟩ := means
  refine ⟨.operator op :: groupedTokens tokens, .operator op :: groupedTokens resolved, ?_, ?_, ?_⟩
  · rw [lex_operator, lex_grouped_alone lexed]
    rfl
  · exact resolveAll_cons rfl (resolveAll_grouped found)
  · exact .product _ _ (.signed _ _ (.sign op sign _ _ signs (Expr.spells_grouped spelled)))

theorem Means.binary (before : scope.Means first left) (after : scope.Means second right)
    (op : Operator) :
    scope.Means (grouped first ++ op.symbol :: grouped second)
      (.binary left op right) := by
  obtain ⟨front, firstResolved, lexedFirst, foundFirst, spelledFirst⟩ := before
  obtain ⟨back, secondResolved, lexedSecond, foundSecond, spelledSecond⟩ := after
  refine ⟨groupedTokens front ++ .operator op :: groupedTokens back,
    groupedTokens firstResolved ++ .operator op :: groupedTokens secondResolved, ?_, ?_, ?_⟩
  · rw [lex_grouped lexedFirst, lex_operator, lex_grouped_alone lexedSecond]
    rfl
  · exact resolveAll_joined (resolveAll_grouped foundFirst)
      (resolveAll_cons rfl (resolveAll_grouped foundSecond))
  · exact Expr.spells_binary op (Expr.spells_grouped spelledFirst)
      (Expr.spells_grouped spelledSecond)

/-- The value of expressions in parentheses, joined by an operator or with a sign in front, is what
the operation makes of the values of the expressions: the same number, or the same fault. -/
theorem evaluate_composed {scope : Scope} {first second : Text} {one other : Number}
    (valued : scope.evaluate first = .ok one) (also : scope.evaluate second = .ok other) :
    (∀ op : Operator,
      (scope.evaluate (grouped first ++ op.symbol :: grouped second)).map
        Value.number = Value.apply op (.number one) (.number other)) ∧
    (scope.evaluate ('-' :: grouped first)).map Value.number =
      Value.applySign .minus (.number one) ∧
    scope.evaluate (grouped first) = .ok one ∧
    scope.evaluate ('+' :: grouped first) = .ok one := by
  obtain ⟨left, means, leftValue⟩ := means_of_evaluate valued
  obtain ⟨right, others, rightValue⟩ := means_of_evaluate also
  refine ⟨fun op => ?_, ?_, ?_, ?_⟩
  · rw [(means.binary others op).evaluate]
    simp only [Expr.eval, leftValue, rightValue, bind, Except.bind]
    rfl
  · have negated := (means.signed (show Operator.sub.sign? = some .minus from rfl)).evaluate
    simp only [Expr.eval, leftValue, bind, Except.bind] at negated
    rw [show '-' = Operator.sub.symbol from rfl, negated]
    rfl
  · rw [means.group.evaluate, leftValue]
  · have kept := (means.signed (show Operator.add.sign? = some .plus from rfl)).evaluate
    simp only [Expr.eval, leftValue, bind, Except.bind] at kept
    exact kept

def five : Number := .integer ⟨5, by decide⟩

def minusFour : Number := .integer ⟨-4, by decide⟩

-- Without parentheses around the parts the minus sign would reach the second name alone.
theorem groups_composed :
    threeAndMinusTwo.evaluate "x - y".toList = .ok five ∧
    threeAndMinusTwo.evaluate " y*2\t".toList = .ok minusFour ∧
    (threeAndMinusTwo.evaluate "(x - y)/( y*2\t)".toList).map Value.number =
      Value.apply .div (.number five) (.number minusFour) ∧
    (threeAndMinusTwo.evaluate "-(x - y)".toList).map Value.number =
      .ok (.integer ⟨-5, by decide⟩) ∧
    threeAndMinusTwo.evaluate "(x - y)".toList = .ok five := by
  have one : threeAndMinusTwo.evaluate "x - y".toList = .ok five := by cbv
  have other : threeAndMinusTwo.evaluate " y*2\t".toList = .ok minusFour := by cbv
  obtain ⟨joined, negated, alone, _⟩ := evaluate_composed one other
  exact ⟨one, other, joined .div, negated, alone⟩

end Scope

end Pseudocode
