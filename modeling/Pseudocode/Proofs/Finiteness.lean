import Mathlib
import Pseudocode.Proofs.Declaring
import Pseudocode.Proofs.Division
import Pseudocode.Proofs.Numerals
import Pseudocode.Proofs.Runs
import Pseudocode.Proofs.Substitution

/-!
Only finite numbers. A real number enters a program as a literal, in a declaration or an
expression, or as a word of the input, and none of these is accepted when it is too large. The rest
comes out of arithmetic. With a real operand the result is checked; from integers alone a real
number arises by widening and by a division with a remainder, which are not checked and need not
be: no integer is large enough, and no divisor small enough. So no expression has an infinite or
undefined value, and no run stores one.
-/

namespace Pseudocode

namespace Binary64

theorem isFinite_neg (x : Binary64) : x.neg.isFinite = x.isFinite := by
  cases x <;> rfl

theorem isFinite_ofInt (n : Integer) : (ofInt n.val).isFinite = true := by
  obtain ⟨_, rounded⟩ := ofInt_eq n
  rw [rounded]
  rfl

theorem isFinite_roundedQuotient {a b : Integer} (nonzero : b.val ≠ 0)
    (indivisible : ¬ b.val ∣ a.val) : (roundedQuotient a b).isFinite = true := by
  obtain ⟨_, rounded⟩ := roundedQuotient_eq nonzero indivisible
  rw [rounded]
  rfl

end Binary64

namespace Number

def IsFinite (number : Number) : Prop := number.toReal.isFinite = true

theorem isFinite_integer (n : Integer) : (integer n).IsFinite := Binary64.isFinite_ofInt n

theorem value_isFinite_iff {number : Number} :
    (Value.number number).IsFinite ↔ number.IsFinite := by
  cases number with
  | integer n => exact iff_of_true trivial (isFinite_integer n)
  | real x => rfl

variable {result : Number}

theorem checked_isFinite {n : Option Integer} (done : checked n = .ok result) :
    result.IsFinite := by
  cases n with
  | none => contradiction
  | some n =>
      cases done
      exact isFinite_integer n

theorem checkedReal_isFinite {x : Binary64} (done : checkedReal x = .ok result) :
    result.IsFinite := by
  unfold checkedReal at done
  by_cases finite : x.isFinite = true
  · rw [if_pos finite] at done
    cases done
    exact finite
  · rw [if_neg finite] at done
    contradiction

theorem applySign_isFinite {sign : Sign} {number : Number} (finite : number.IsFinite)
    (done : number.applySign sign = .ok result) : result.IsFinite := by
  cases sign with
  | plus =>
      cases done
      exact finite
  | minus =>
      cases number with
      | integer n => exact checked_isFinite done
      | real x =>
          cases done
          exact (Binary64.isFinite_neg x).trans finite

theorem applyIntegers_isFinite {op : Operator} {a b : Integer}
    (done : applyIntegers op a b = .ok result) : result.IsFinite := by
  cases op with
  | add | sub | mul => exact checked_isFinite done
  | div =>
      by_cases zero : b.val = 0
      · simp [applyIntegers, zero] at done
      · by_cases divides : b.val ∣ a.val
        · simp only [applyIntegers, zero, Int.tmod_eq_zero_of_dvd divides, ↓reduceIte] at done
          exact checked_isFinite done
        · rw [divided_with_remainder zero divides] at done
          cases done
          exact Binary64.isFinite_roundedQuotient zero divides

theorem applyReals_isFinite {op : Operator} {x y : Binary64}
    (done : applyReals op x y = .ok result) : result.IsFinite := by
  cases op with
  | add | sub | mul => exact checkedReal_isFinite done
  | div =>
      simp only [applyReals] at done
      split at done
      · contradiction
      · exact checkedReal_isFinite done

/-- Whatever the operands are. -/
theorem apply_isFinite {op : Operator} {a b : Number} (done : apply op a b = .ok result) :
    result.IsFinite := by
  cases a with
  | integer n =>
      cases b with
      | integer m => exact applyIntegers_isFinite done
      | real y => exact applyReals_isFinite done
  | real x => exact applyReals_isFinite done

theorem convert_isFinite {kind : Kind} {number : Number} (finite : number.IsFinite)
    (done : number.convert kind = .ok result) : result.IsFinite := by
  cases kind with
  | integer =>
      cases number with
      | integer n =>
          cases done
          exact finite
      | real x =>
          obtain ⟨n, _, rfl⟩ := map_eq_ok.1 done
          exact isFinite_integer n
  | real =>
      cases done
      exact finite
  | string =>
      cases done
      exact finite

end Number

theorem Expr.eval_isFinite {expr : Expr Number} {result : Number}
    (finite : ∀ number ∈ expr.leaves, number.IsFinite) (done : expr.eval = .ok result) :
    result.IsFinite := by
  induction expr generalizing result with
  | leaf number =>
      cases done
      exact finite number (List.mem_singleton_self number)
  | signed sign operand ih =>
      obtain ⟨value, inner, signed⟩ := bind_eq_ok.1 done
      exact Number.applySign_isFinite (ih finite inner) signed
  | binary left op right _ _ =>
      obtain ⟨a, _, following⟩ := bind_eq_ok.1 done
      obtain ⟨b, _, applied⟩ := bind_eq_ok.1 following
      exact Number.apply_isFinite applied

theorem Numeral.value?_isFinite {numeral : Numeral} {number : Number}
    (meant : numeral.value? = some number) : number.IsFinite := by
  cases number with
  | integer n => exact Number.isFinite_integer n
  | real x =>
      obtain ⟨_, _, finite⟩ := value?_decimal meant
      exact finite

theorem Binary64.read?_isFinite {text : Text} {x : Binary64} (read : read? text = some x) :
    x.isFinite = true := by
  cases scanned : Numeral.scan (Integer.splitSign text).2 with
  | none => simp [read?, scanned] at read
  | some taken =>
      simp only [read?, scanned, Option.ite_none_right_eq_some] at read
      obtain ⟨number, meant, rfl⟩ := Option.map_eq_some_iff.1 read.2
      have finite : number.toReal.isFinite = true := Numeral.value?_isFinite meant
      split
      · rw [isFinite_neg, finite]
      · exact finite

theorem Kind.literal?_isFinite {kind : Kind} {literal : Text} {value : Value}
    (found : kind.literal? literal = some value) : value.IsFinite := by
  cases kind with
  | integer | string =>
      obtain ⟨_, _, rfl⟩ := Option.map_eq_some_iff.1 found
      trivial
  | real =>
      obtain ⟨x, read, rfl⟩ := Option.map_eq_some_iff.1 found
      exact Binary64.read?_isFinite read

theorem Kind.initial_isFinite {kind : Kind} {literal : Option Text} {value : Value}
    (made : kind.initial literal = .ok value) : value.IsFinite := by
  rcases initial_ok made with ⟨_, rfl⟩ | ⟨_, _, found⟩
  · trivial
  · exact literal?_isFinite found

theorem Kind.ofInput_isFinite {kind : Kind} {text : Text} {value : Value}
    (read : kind.ofInput text = .ok value) : value.IsFinite := by
  rcases ofInput_ok read with ⟨_, rfl⟩ | found
  · trivial
  · exact literal?_isFinite found

/-- Every real number in the tables is finite. -/
def Scope.IsFinite (scope : Scope) : Prop := scope.All Value.IsFinite

/-- Every real number among the tokens is finite. -/
def Token.AllFinite (tokens : List Token) : Prop :=
  ∀ number, .atom (.number number) ∈ tokens → number.IsFinite

theorem lex_allFinite {text : Text} {tokens : List Token} (lexed : lex text = .ok tokens) :
    Token.AllFinite tokens := by
  have each : ∀ token ∈ tokens, ∀ number, token = .atom (.number number) → number.IsFinite := by
    refine forall_lex ?_ lexed
    rintro c rest after lexeme _ scanned meant number rfl
    rcases Lexeme.scan_atom scanned meant with ⟨_, _, same⟩ | ⟨numeral, _, value, same⟩
    · cases same
    · cases same
      exact Numeral.value?_isFinite value
  intro number member
  exact each _ member number rfl

namespace Scope

section Evaluation

variable {scope : Scope} (finite : scope.IsFinite)
include finite

theorem operand?_isFinite {name : Text} {value : Value}
    (found : scope.operand? name = some value) : value.IsFinite := by
  rcases Option.or_eq_some_iff.1 found with constant | ⟨_, «variable»⟩
  · exact finite .constants _ (Symbols.mem_of_get? constant)
  · exact finite .variables _ (Symbols.mem_of_get? «variable»)

theorem resolve_isFinite {token : Token} {number : Number}
    (numbers : ∀ n, token = .atom (.number n) → n.IsFinite)
    (done : scope.resolve token = .ok (.atom (.number number))) : number.IsFinite := by
  match token with
  | .atom (.name name) =>
      obtain ⟨n, looked, same⟩ := map_eq_ok.1 done
      cases same
      unfold Scope.number at looked
      match found : scope.operand? name with
      | some (.number m) =>
          rw [found] at looked
          cases looked
          exact Number.value_isFinite_iff.1 (operand?_isFinite finite found)
      | none | some (.string _) | some (.unset _) =>
          rw [found] at looked
          contradiction
  | .atom (.number _) =>
      cases done
      exact numbers number rfl
  | .operator _ | .opening | .closing => cases done

theorem resolveAll_allFinite {tokens resolved : List Token} (numbers : Token.AllFinite tokens)
    (done : scope.resolveAll tokens = .ok resolved) : Token.AllFinite resolved := by
  induction tokens generalizing resolved with
  | nil =>
      cases done
      exact numbers
  | cons token rest ih =>
      obtain ⟨first, resolves, following⟩ := bind_eq_ok.1 done
      obtain ⟨others, later, same⟩ := bind_eq_ok.1 following
      cases same
      intro number member
      rcases List.mem_cons.1 member with rfl | inside
      · refine resolve_isFinite finite ?_ resolves
        rintro n rfl
        exact numbers n List.mem_cons_self
      · exact ih (fun n among => numbers n (List.mem_cons_of_mem _ among)) later number inside

theorem evaluate_isFinite {source : Text} {number : Number}
    (evaluated : scope.evaluate source = .ok number) : number.IsFinite := by
  obtain ⟨tokens, lexed, resolving⟩ := bind_eq_ok.1 evaluated
  obtain ⟨resolved, done, parsing⟩ := bind_eq_ok.1 resolving
  obtain ⟨expr, parsed, value⟩ := bind_eq_ok.1 parsing
  rw [mapError_eq_ok] at lexed parsed
  have numbers := resolveAll_allFinite finite (lex_allFinite lexed) done
  refine Expr.eval_isFinite ?_ value
  intro leaf member
  obtain ⟨atom, among, known⟩ := Expr.spells_leaves (Expr.spells_of_parse _ parsed) leaf member
  cases atom with
  | number n =>
      cases known
      exact numbers leaf among
  | name name => contradiction

end Evaluation

end Scope

theorem Value.coerce_isFinite {number : Number} {kind : Kind} {name : Text} {value : Value}
    (finite : number.IsFinite) (coerced : (Value.number number).coerce kind name = .ok value) :
    value.IsFinite := by
  obtain ⟨_, _, _, given, converted, rfl⟩ := coerce_ok coerced
  cases given
  exact Number.value_isFinite_iff.2 (Number.convert_isFinite finite converted)

theorem Session.Moves.isFinite {session next : Session} (move : session.Moves next)
    (finite : session.scope.IsFinite) : next.scope.IsFinite := by
  cases move with
  | reads _ taken =>
      obtain ⟨_, _, made⟩ := Reader.nextValue_ok taken
      exact Scope.All.store finite (Kind.ofInput_isFinite made)
  | misreads _ => exact finite
  | assigns _ evaluated fitted =>
      have number := Scope.evaluate_isFinite finite evaluated
      exact Scope.All.store finite (Value.coerce_isFinite number fitted)
  | writes _ => exact finite

namespace Program

theorem load_isFinite {source : Text} {program : Program} (loaded : load source = .ok program) :
    program.scope.IsFinite := by
  obtain ⟨outline, _, _, declared, _⟩ := loadWith_ok loaded
  intro part entry member
  rcases Scope.declared_of_entry declared member with initial | ⟨_, _, declaration, parsed, same⟩
  · rw [Scope.entries_empty] at initial
    contradiction
  · obtain ⟨_, _, _, _, _, _, _, made⟩ := Declaration.parse_ok parsed
    rw [← same]
    exact Kind.initial_isFinite made

/-- In all tables that a loaded program reaches, every real number is finite, and so is every
real number that an expression over them evaluates to. -/
theorem only_finite_reals {source : Text} {program : Program} {scope : Scope}
    (loaded : load source = .ok program) (reached : program.Reaches scope) :
    (∀ part name x, (name, Value.real x) ∈ (scope.table part).entries → x.isFinite = true) ∧
    ∀ expression x, scope.evaluate expression = .ok (.real x) → x.isFinite = true := by
  have finite : scope.IsFinite := reached.holds Session.Moves.isFinite (load_isFinite loaded)
  constructor
  · intro part name x member
    exact finite part _ member
  · intro expression x evaluated
    exact Scope.evaluate_isFinite finite evaluated

def scaling : Text :=
  ("Algorithm Scale;\nConstants\n    c = 1e308 : Real;\nVariables\n    x : Real;\nBegin\n" ++
    "    Read(x);\n    x = -x * 7 / 2;\n    x = x * c;\nEnd").toList

def scalingCall : Call := ⟨Text.toUtf8 "1e300".toList, .unlimited⟩

-- The last statement overflows, and the run ends with what the one before it has stored.
theorem scaling_stays_finite :
    ∃ program, load scaling = .ok program ∧
      (program.run scalingCall.input scalingCall.output).error = some ⟨9, .overflow⟩ ∧
      ∃ x, (program.after [scalingCall]).scope.variables.get? ['x'] = some (.real x) ∧
        x.isFinite = true := by
  have ran : (load scaling).toOption.map (fun program =>
      let outcome := program.run scalingCall.input scalingCall.output
      (outcome.error, outcome.program.scope.variables.get? ['x'])) =
        some (some ⟨9, .overflow⟩, some (.real (.ofBits 0xFE54E7B4F70066E8))) := by decide +kernel
  cases loaded : load scaling with
  | error rejection =>
      rw [loaded] at ran
      contradiction
  | ok program =>
      rw [loaded] at ran
      obtain ⟨stopped, held⟩ := Prod.mk.inj (Option.some.inj ran)
      have finite := (only_finite_reals loaded (.after [scalingCall])).1 .variables ['x'] _
        (Symbols.mem_of_get? held)
      exact ⟨program, rfl, stopped, _, held, finite⟩

end Program

end Pseudocode
