import Mathlib
import Pseudocode.Proofs.Loading
import Pseudocode.Proofs.Substitution

/-!
When the value of an expression is an integer. Beside the evaluator stands exact arithmetic
on rational numbers, in which nothing is rounded and nothing overflows. An integer comes out
of the evaluator exactly when integers are all that the exact computation ever meets, at every
node of the tree, and each of them fits; then the two results are the same. So an integer has
never been wrapped around, cut off or rounded on its way, and a real number never turns back
into an integer, not even where its exact value is whole.
-/

namespace Pseudocode

/-- The exact value of a number; infinities and what is not a number have none. -/
def Number.rational? : Number → Option ℚ
  | .integer n => some n.val
  | .real (.finite negative units _) => some (Binary64.signed negative units / unitsPerOne)
  | .real _ => none

def Sign.exact : Sign → ℚ → ℚ
  | .plus, x => x
  | .minus, x => -x

def Operator.rational? : Operator → ℚ → ℚ → Option ℚ
  | .add, x, y => some (x + y)
  | .sub, x, y => some (x - y)
  | .mul, x, y => some (x * y)
  | .div, x, y => if y = 0 then none else some (x / y)

namespace Number

theorem checked_integer_iff (result : Option Integer) (n : Integer) :
    checked result = .ok (.integer n) ↔ result = some n := by
  cases result <;> simp [checked]

theorem checkedReal_not_integer (x : Binary64) (n : Integer) :
    checkedReal x ≠ .ok (.integer n) := by
  unfold checkedReal
  split <;> simp

theorem applySign_integer_iff (sign : Sign) (number : Number) (n : Integer) :
    number.applySign sign = .ok (.integer n) ↔
      ∃ a, number = .integer a ∧ sign.exact a.val = n.val := by
  cases number with
  | real x => cases sign <;> simp [applySign]
  | integer a =>
      cases sign with
      | plus =>
          simp only [applySign, Sign.exact, Except.ok.injEq, integer.injEq, exists_eq_left']
          rw [Integer.ext_iff]
          norm_cast
      | minus =>
          simp only [applySign, checked_integer_iff, Integer.neg?, Integer.ofInt?_eq_some,
            Sign.exact, integer.injEq, exists_eq_left']
          norm_cast
          exact eq_comm

/-- The remainder decides between an integer and a real number; the exact quotient is whole
in just the same cases. -/
theorem tdiv_iff_exact (a b n : ℤ) (nonzero : b ≠ 0) :
    (a.tmod b = 0 ∧ n = a.tdiv b) ↔ (a : ℚ) / b = n := by
  have divisor : (b : ℚ) ≠ 0 := by exact_mod_cast nonzero
  rw [div_eq_iff divisor]
  norm_cast
  constructor
  · rintro ⟨whole, rfl⟩
    exact (Int.tdiv_mul_cancel (Int.dvd_of_tmod_eq_zero whole)).symm
  · rintro rfl
    exact ⟨Int.mul_tmod_left n b, (Int.mul_tdiv_cancel n nonzero).symm⟩

theorem applyIntegers_integer_iff (op : Operator) (a b n : Integer) :
    applyIntegers op a b = .ok (.integer n) ↔ op.rational? a.val b.val = some (n.val : ℚ) := by
  cases op with
  | add | sub | mul =>
      simp only [applyIntegers, checked_integer_iff, Integer.add?, Integer.sub?, Integer.mul?,
        Integer.ofInt?_eq_some, Operator.rational?, Option.some.injEq]
      norm_cast
      exact eq_comm
  | div =>
      by_cases zero : b.val = 0
      · simp [applyIntegers, Operator.rational?, zero]
      · have divisor : (b.val : ℚ) ≠ 0 := by exact_mod_cast zero
        simp only [applyIntegers, Operator.rational?, zero, divisor, ↓reduceIte, Option.some.injEq]
        rw [← tdiv_iff_exact a.val b.val n.val zero]
        by_cases whole : a.val.tmod b.val = 0
        · simp [whole, checked_integer_iff, Integer.div?, Integer.ofInt?_eq_some]
        · simp [whole]

theorem applyReals_not_integer (op : Operator) (x y : Binary64) (n : Integer) :
    applyReals op x y ≠ .ok (.integer n) := by
  cases op with
  | add | sub | mul => exact checkedReal_not_integer _ n
  | div =>
      simp only [applyReals]
      split
      · simp
      · exact checkedReal_not_integer _ n

theorem apply_integer_iff (op : Operator) (x y : Number) (n : Integer) :
    apply op x y = .ok (.integer n) ↔
      ∃ a b, x = .integer a ∧ y = .integer b ∧ op.rational? a.val b.val = some (n.val : ℚ) := by
  cases x with
  | real x => simp [apply, applyReals_not_integer]
  | integer a =>
      cases y with
      | real y => simp [apply, applyReals_not_integer]
      | integer b => simp [apply, applyIntegers_integer_iff]

end Number

namespace Expr

def rational? : Expr Number → Option ℚ
  | .leaf number => number.rational?
  | .signed sign operand => operand.rational?.map sign.exact
  | .binary left op right => do
      let x ← left.rational?
      let y ← right.rational?
      op.rational? x y

/-- An expression with all expressions inside it. -/
def subtrees {α : Type} : Expr α → List (Expr α)
  | .leaf value => [.leaf value]
  | .signed sign operand => .signed sign operand :: operand.subtrees
  | .binary left op right => .binary left op right :: (left.subtrees ++ right.subtrees)

/-- Its exact value is one of the integers of the language. -/
def IsWhole (expr : Expr Number) : Prop := ∃ m : Integer, expr.rational? = some (m.val : ℚ)

/-- Integers throughout: at the leaves, and as the exact value of every part. -/
structure AllWhole (expr : Expr Number) : Prop where
  literals : ∀ number ∈ expr.leaves, ∃ a, number = .integer a
  parts : ∀ part ∈ expr.subtrees, part.IsWhole

theorem allWhole_leaf (number : Number) :
    (Expr.leaf number).AllWhole ↔ ∃ a, number = .integer a := by
  constructor
  · rintro ⟨literals, _⟩
    exact literals number (List.mem_singleton_self _)
  · rintro ⟨a, rfl⟩
    refine ⟨by simp [leaves], ?_⟩
    intro part member
    rw [List.mem_singleton.1 member]
    exact ⟨a, rfl⟩

theorem allWhole_signed (sign : Sign) (operand : Expr Number) :
    (Expr.signed sign operand).AllWhole ↔
      operand.AllWhole ∧ (Expr.signed sign operand).IsWhole := by
  constructor
  · rintro ⟨literals, parts⟩
    simp only [subtrees, List.forall_mem_cons] at parts
    exact ⟨⟨literals, parts.2⟩, parts.1⟩
  · rintro ⟨⟨literals, parts⟩, whole⟩
    exact ⟨literals, List.forall_mem_cons.2 ⟨whole, parts⟩⟩

theorem allWhole_binary (left right : Expr Number) (op : Operator) :
    (Expr.binary left op right).AllWhole ↔
      left.AllWhole ∧ right.AllWhole ∧ (Expr.binary left op right).IsWhole := by
  constructor
  · rintro ⟨literals, parts⟩
    simp only [leaves, subtrees, List.forall_mem_cons, List.forall_mem_append] at literals parts
    exact ⟨⟨literals.1, parts.2.1⟩, ⟨literals.2, parts.2.2⟩, parts.1⟩
  · rintro ⟨inLeft, inRight, whole⟩
    refine ⟨List.forall_mem_append.2 ⟨inLeft.literals, inRight.literals⟩, ?_⟩
    exact List.forall_mem_cons.2 ⟨whole, List.forall_mem_append.2 ⟨inLeft.parts, inRight.parts⟩⟩

theorem AllWhole.isWhole {expr : Expr Number} (whole : expr.AllWhole) : expr.IsWhole := by
  apply whole.parts
  cases expr <;> simp [subtrees]

theorem eval_signed_iff (sign : Sign) (operand : Expr Number) (n : Integer) :
    (Expr.signed sign operand).eval = .ok (.integer n) ↔
      ∃ a : Integer, operand.eval = .ok (.integer a) ∧ sign.exact a.val = n.val := by
  rw [eval, bind_eq_ok]
  simp only [Number.applySign_integer_iff]
  constructor
  · rintro ⟨_, value, a, rfl, same⟩
    exact ⟨a, value, same⟩
  · rintro ⟨a, value, same⟩
    exact ⟨_, value, a, rfl, same⟩

theorem eval_binary_iff (left right : Expr Number) (op : Operator) (n : Integer) :
    (Expr.binary left op right).eval = .ok (.integer n) ↔
      ∃ a b : Integer, left.eval = .ok (.integer a) ∧ right.eval = .ok (.integer b) ∧
        op.rational? a.val b.val = some (n.val : ℚ) := by
  simp only [eval, bind_eq_ok, Number.apply_integer_iff]
  constructor
  · rintro ⟨_, first, _, second, a, b, rfl, rfl, result⟩
    exact ⟨a, b, first, second, result⟩
  · rintro ⟨a, b, first, second, result⟩
    exact ⟨_, first, _, second, a, b, rfl, rfl, result⟩

theorem eval_integer_iff_allWhole (expr : Expr Number) (n : Integer) :
    expr.eval = .ok (.integer n) ↔ expr.AllWhole ∧ expr.rational? = some (n.val : ℚ) := by
  induction expr generalizing n with
  | leaf number =>
      rw [allWhole_leaf]
      constructor
      · rintro ⟨⟩
        exact ⟨⟨n, rfl⟩, rfl⟩
      · rintro ⟨⟨a, rfl⟩, value⟩
        have same : a.val = n.val := by exact_mod_cast Option.some.inj value
        rw [Integer.ext same]
        rfl
  | signed sign operand ih =>
      rw [eval_signed_iff, allWhole_signed]
      constructor
      · rintro ⟨a, value, same⟩
        obtain ⟨inside, known⟩ := (ih a).1 value
        have result : (Expr.signed sign operand).rational? = some (n.val : ℚ) := by
          simp [rational?, known, same]
        exact ⟨⟨inside, n, result⟩, result⟩
      · rintro ⟨⟨inside, _⟩, result⟩
        obtain ⟨a, known⟩ := inside.isWhole
        refine ⟨a, (ih a).2 ⟨inside, known⟩, ?_⟩
        simpa [rational?, known] using result
  | binary left op right before after =>
      rw [eval_binary_iff, allWhole_binary]
      constructor
      · rintro ⟨a, b, first, second, applied⟩
        obtain ⟨inLeft, leftExact⟩ := (before a).1 first
        obtain ⟨inRight, rightExact⟩ := (after b).1 second
        have result : (Expr.binary left op right).rational? = some (n.val : ℚ) := by
          simp [rational?, leftExact, rightExact, applied]
        exact ⟨⟨inLeft, inRight, n, result⟩, result⟩
      · rintro ⟨⟨inLeft, inRight, _⟩, result⟩
        obtain ⟨a, leftExact⟩ := inLeft.isWhole
        obtain ⟨b, rightExact⟩ := inRight.isWhole
        refine ⟨a, b, (before a).2 ⟨inLeft, leftExact⟩, (after b).2 ⟨inRight, rightExact⟩, ?_⟩
        simpa [rational?, leftExact, rightExact] using result

theorem isWhole_iff (expr : Expr Number) :
    expr.IsWhole ↔ ∃ m : ℤ, expr.rational? = some (m : ℚ) ∧ -2 ^ 63 ≤ m ∧ m < 2 ^ 63 := by
  constructor
  · rintro ⟨m, value⟩
    exact ⟨m.val, value, m.inRange⟩
  · rintro ⟨m, value, fits⟩
    exact ⟨⟨m, fits⟩, value⟩

/-- An expression evaluates to an integer exactly when all its literals are integers, every
part of it has a whole exact value between -2^63 and 2^63, no divisor being zero, and the
integer is the exact value of the whole. -/
theorem eval_integer_iff_exact (expr : Expr Number) (n : Integer) :
    expr.eval = .ok (.integer n) ↔
      (∀ number ∈ expr.leaves, ∃ a, number = .integer a) ∧
      (∀ part ∈ expr.subtrees,
        ∃ m : ℤ, part.rational? = some (m : ℚ) ∧ -2 ^ 63 ≤ m ∧ m < 2 ^ 63) ∧
      expr.rational? = some (n.val : ℚ) := by
  rw [eval_integer_iff_allWhole]
  constructor
  · rintro ⟨⟨literals, parts⟩, value⟩
    exact ⟨literals, fun part member => (isWhole_iff part).1 (parts part member), value⟩
  · rintro ⟨literals, parts, value⟩
    exact ⟨⟨literals, fun part member => (isWhole_iff part).2 (parts part member)⟩, value⟩

end Expr

end Pseudocode
