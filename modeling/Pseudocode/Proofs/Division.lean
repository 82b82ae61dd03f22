import Mathlib
import Pseudocode.Proofs.Conversions
import Pseudocode.Proofs.Exactness
import Pseudocode.Proofs.Lexing
import Pseudocode.Proofs.Rounding
import Pseudocode.Session

/-!
Assigning a quotient of integers to an integer variable. A division without remainder is
carried out on the integers themselves. One with a remainder is carried out on real numbers:
both operands are rounded, and so is their quotient. The exact quotient is a fraction then, but
the rounded one need not be: beyond 2^53 it can come out whole, and is stored. As long as the
dividend is below 2^53 it never does.
-/

namespace Pseudocode

namespace Binary64

/-- The closest whole number with at most 53 significant bits. -/
def roundWhole (n : Nat) : Nat := roundUnits n 1

theorem roundWhole_small {n : Nat} (small : n ≤ 2 ^ (53 : Nat)) : roundWhole n = n := by
  rcases Nat.lt_or_eq_of_le small with below | rfl
  · have kept := roundUnits_significand n 0 below
    rwa [Nat.pow_zero, Nat.mul_one] at kept
  · exact roundUnits_significand 1 53 (by decide)

theorem roundWhole_le {n power : Nat} (bound : n ≤ 2 ^ power) : roundWhole n ≤ 2 ^ power :=
  roundUnits_le_two_pow (by decide) (by rwa [Nat.mul_one])

theorem le_roundWhole {n power : Nat} (bound : 2 ^ power ≤ n) : 2 ^ power ≤ roundWhole n :=
  two_pow_le_roundUnits (by decide) (by rwa [Nat.mul_one])

theorem two_pow_units (power : Nat) : 2 ^ power * unitsPerOne = 2 ^ (power + unitBits) := by
  rw [unitsPerOne, Nat.pow_add]

theorem two_pow_units_lt {power : Nat} (small : power < 1024) :
    2 ^ power * unitsPerOne < unitLimit := by
  rw [two_pow_units, unitLimit]
  exact Nat.pow_lt_pow_right (by decide) (by unfold unitBits limitBits; omega)

theorem natAbs_le (n : Integer) : n.val.natAbs ≤ 2 ^ (63 : Nat) := by
  have range := n.inRange
  omega

theorem ofInt_eq (n : Integer) : ∃ fits, ofInt n.val =
    .finite (decide (n.val < 0)) (roundWhole n.val.natAbs * unitsPerOne) fits := by
  have rounded : roundUnits (n.val.natAbs * unitsPerOne) 1 =
      roundWhole n.val.natAbs * unitsPerOne := roundUnits_shift _ unitBits
  have below : roundUnits (n.val.natAbs * unitsPerOne) 1 < unitLimit := by
    rw [rounded]
    exact Nat.lt_of_le_of_lt (Nat.mul_le_mul_right _ (roundWhole_le (natAbs_le n)))
      (two_pow_units_lt (by decide))
  have fits : Representable (roundWhole n.val.natAbs * unitsPerOne) :=
    rounded ▸ roundUnits_representable below
  exact ⟨fits, nearest_finite _ rounded fits⟩

/-- The quotient of two integers as a real number: each operand is rounded, then the result. -/
def roundedQuotient (a b : Integer) : Binary64 := (ofInt a.val).div (ofInt b.val)

/-- How many units it has, up to its sign. -/
def quotientUnits (a b : Integer) : Nat :=
  roundUnits (roundWhole a.val.natAbs * unitsPerOne) (roundWhole b.val.natAbs)

section Quotient

variable {a b : Integer} (nonzero : b.val ≠ 0) (indivisible : ¬ b.val ∣ a.val)
include nonzero indivisible

theorem two_le_divisor : 2 ≤ roundWhole b.val.natAbs := by
  have unit : b.val.natAbs ≠ 1 := by
    intro one
    exact indivisible (Int.natAbs_dvd.1 (one ▸ one_dvd a.val))
  have wide : 2 ^ (1 : Nat) ≤ b.val.natAbs := by omega
  exact le_roundWhole wide

theorem quotientUnits_le : quotientUnits a b ≤ 2 ^ (62 : Nat) * unitsPerOne := by
  have divisor := two_le_divisor nonzero indivisible
  have dividend := roundWhole_le (natAbs_le a)
  have bound : roundWhole a.val.natAbs * unitsPerOne ≤
      2 ^ (62 + unitBits) * roundWhole b.val.natAbs := by
    calc roundWhole a.val.natAbs * unitsPerOne
        ≤ 2 ^ (63 : Nat) * unitsPerOne := Nat.mul_le_mul_right _ dividend
      _ = 2 ^ (62 : Nat) * unitsPerOne * 2 := by
          rw [Nat.pow_succ 2 62, Nat.mul_right_comm]
      _ ≤ 2 ^ (62 : Nat) * unitsPerOne * roundWhole b.val.natAbs :=
          Nat.mul_le_mul_left _ divisor
      _ = 2 ^ (62 + unitBits) * roundWhole b.val.natAbs := by rw [two_pow_units]
  rw [two_pow_units]
  exact roundUnits_le_two_pow (by omega) bound

theorem roundedQuotient_eq : ∃ fits, roundedQuotient a b =
    .finite (decide (a.val < 0) != decide (b.val < 0)) (quotientUnits a b) fits := by
  have divisor := two_le_divisor nonzero indivisible
  have positive := unitsPerOne_pos
  have below : quotientUnits a b < unitLimit :=
    Nat.lt_of_le_of_lt (quotientUnits_le nonzero indivisible) (two_pow_units_lt (by decide))
  obtain ⟨fitsLeft, left⟩ := ofInt_eq a
  obtain ⟨fitsRight, right⟩ := ofInt_eq b
  have filled : roundWhole b.val.natAbs * unitsPerOne ≠ 0 :=
    Nat.mul_ne_zero (by omega) (Nat.ne_of_gt positive)
  have fits := roundUnits_representable below
  refine ⟨fits, ?_⟩
  rw [roundedQuotient, left, right, div, if_neg filled]
  rw [nearest_of_ratio _ (Nat.pos_of_ne_zero filled) (show 0 < roundWhole b.val.natAbs by omega)
    (show roundWhole a.val.natAbs * unitsPerOne * unitsPerOne * roundWhole b.val.natAbs =
      roundWhole a.val.natAbs * unitsPerOne * (roundWhole b.val.natAbs * unitsPerOne) by
        rw [Nat.mul_assoc _ unitsPerOne, Nat.mul_comm unitsPerOne])]
  exact nearest_finite _ rfl fits

end Quotient

theorem two_pow_le_units {power : Nat} (small : power ≤ unitBits) : 2 ^ power ≤ unitsPerOne := by
  rw [unitsPerOne]
  exact Nat.pow_le_pow_right (by decide) small

/-- A quotient with a remainder is at least one part in the divisor away from a whole number.
If it is rounded to one nevertheless, its last bit is worth at least twice that much. -/
theorem last_bit_of_whole {dividend divisor : Nat} (indivisible : ¬ divisor ∣ dividend)
    (positive : 0 < divisor)
    (whole : unitsPerOne ∣ roundUnits (dividend * unitsPerOne) divisor) :
    2 * unitsPerOne ≤
      divisor * 2 ^ droppedBits (dividend * unitsPerOne / divisor) := by
  obtain ⟨quotient, shape⟩ := whole
  have error := roundUnits_error (dividend * unitsPerOne) positive
  rw [shape, Nat.mul_comm unitsPerOne quotient, Nat.mul_right_comm] at error
  have apart : quotient * divisor ≠ dividend := by
    intro same
    exact indivisible ⟨quotient, by rw [← same, Nat.mul_comm]⟩
  rcases Nat.lt_or_gt_of_ne apart with less | more
  · have gap := Nat.mul_le_mul_right unitsPerOne less
    rw [Nat.succ_mul] at gap
    omega
  · have gap := Nat.mul_le_mul_right unitsPerOne more
    rw [Nat.succ_mul] at gap
    omega

/-- So it is never rounded to a whole number when the dividend has at most 53 bits. -/
theorem round_quotient_fractional {dividend divisor : Nat} (indivisible : ¬ divisor ∣ dividend)
    (positive : 0 < divisor) (narrow : divisor ≤ 2 ^ (63 : Nat))
    (small : dividend < 2 ^ (53 : Nat) ∨
      dividend ≤ 2 ^ (53 : Nat) ∧ divisor ≤ 2 ^ (53 : Nat)) :
    ¬ unitsPerOne ∣ roundUnits (dividend * unitsPerOne) divisor := by
  intro whole
  have step := last_bit_of_whole indivisible positive whole
  have wide := le_of_droppedBits (dividend * unitsPerOne) divisor
  generalize droppedBits (dividend * unitsPerOne / divisor) = bits at step wide
  have huge : 2 ^ (63 : Nat) ≤ unitsPerOne := two_pow_le_units (by decide)
  have some : bits ≠ 0 := by
    rintro rfl
    rw [Nat.pow_zero, Nat.mul_one] at step
    omega
  have high := wide some
  rw [Nat.pow_add, ← Nat.mul_assoc] at high
  have full : dividend = 2 ^ (53 : Nat) := by
    have enough : 2 ^ (53 : Nat) * unitsPerOne ≤ dividend * unitsPerOne := by omega
    have bound := Nat.le_of_mul_le_mul_right enough (by omega)
    omega
  have divides : divisor ∣ 2 ^ (53 + unitBits) := by
    refine ⟨2 ^ bits * 2 ^ (52 : Nat), ?_⟩
    rw [full] at high
    rw [← two_pow_units, ← Nat.mul_assoc]
    omega
  obtain ⟨power, _, rfl⟩ := (Nat.dvd_prime_pow Nat.prime_two).1 divides
  have few : power ≤ 53 := by
    by_contra many
    have larger := Nat.pow_lt_pow_right (show 1 < 2 by decide) (Nat.lt_of_not_le many)
    omega
  exact indivisible (full ▸ Nat.pow_dvd_pow 2 few)

section Conversion

variable (negative : Bool) {units : Nat} (fits : Representable units)
  (bound : units ≤ 2 ^ (62 : Nat) * unitsPerOne)
include bound

theorem in_range : (-2 ^ 63 : ℚ) ≤ (signed negative units : ℚ) / unitsPerOne ∧
    (signed negative units : ℚ) / unitsPerOne < 2 ^ 63 := by
  have positive : (0 : ℚ) < unitsPerOne := by exact_mod_cast unitsPerOne_pos
  rw [le_div_iff₀ positive, div_lt_iff₀ positive]
  have range : -2 ^ (63 : Nat) * unitsPerOne ≤ signed negative units ∧
      signed negative units < 2 ^ (63 : Nat) * unitsPerOne := by
    have filled := unitsPerOne_pos
    unfold signed
    split <;> omega
  exact_mod_cast range

theorem toInteger_of_fraction (fraction : ¬ unitsPerOne ∣ units) :
    toInteger (.finite negative units fits) =
      .error (.mismatch (.fractional (.finite negative units fits))) := by
  refine toInteger_mismatch_iff.2 (.inr ⟨⟨_, rfl, in_range negative bound, ?_⟩, rfl⟩)
  intro m same
  exact fraction (dvd_of_signed ((quotient_whole_iff unitsPerOne_pos _ m).1 same))

theorem toInteger_of_whole (whole : unitsPerOne ∣ units) :
    ∃ c : Integer, toInteger (.finite negative units fits) = .ok c ∧
      (Number.real (.finite negative units fits)).rational? = some (c.val : ℚ) := by
  have value := quotient_of_dvd unitsPerOne_pos negative whole
  obtain ⟨c, same⟩ := Integer.exists_of_inside (value ▸ in_range negative bound)
  have exactly : (Number.real (.finite negative units fits)).rational? = some (c.val : ℚ) := by
    rw [Number.rational?, value, same]
  exact ⟨c, toInteger_ok_iff.2 exactly, exactly⟩

end Conversion

end Binary64

def quotientStatement (target dividend divisor : Text) : Text :=
  target ++ " = ".toList ++ dividend ++ " / ".toList ++ divisor ++ ";".toList

namespace Scope

section Statement

variable {scope : Scope} {target dividend divisor : Text}
  (left : Text.isIdentifier dividend = true) (right : Text.isIdentifier divisor = true)
include left right

theorem lex_quotient : lex (dividend ++ " / ".toList ++ divisor) =
    .ok [.atom (.name dividend), .operator .div, .atom (.name divisor)] := by
  have shape : dividend ++ " / ".toList ++ divisor =
      dividend ++ ' ' :: Operator.div.symbol :: ' ' :: (divisor ++ []) := by simp [Operator.symbol]
  rw [shape, lex_name left (by rintro c ⟨⟩; rfl), lex_space rfl, lex_operator, lex_space rfl,
    lex_name right (by simp), lex]
  rfl

theorem evaluate_quotient {a b : Integer} (first : scope.operand? dividend = some (.integer a))
    (second : scope.operand? divisor = some (.integer b)) :
    scope.evaluate (dividend ++ " / ".toList ++ divisor) =
      Number.applyIntegers .div a b := by
  have numeric : scope.Numeric
      [.atom (.name dividend), .operator .div, .atom (.name divisor)] := by
    intro name member
    simp only [List.mem_cons, Token.atom.injEq, Atom.name.injEq, reduceCtorEq, List.not_mem_nil,
      false_or, or_false] at member
    rcases member with rfl | rfl
    · exact ⟨_, first⟩
    · exact ⟨_, second⟩
  have parsed : Expr.parse some
      [.atom (.name dividend), .operator .div, .atom (.name divisor)] =
        .ok (.binary (.leaf (.name dividend)) .div (.leaf (.name divisor))) := rfl
  rw [evaluate_of_parsed (lex_quotient left right) numeric parsed]
  simp only [Expr.evalIn, number, first, second, Value.integer]
  rfl

end Statement

/-- A variable, and no constant, with an identifier for its name. -/
structure Holds (scope : Scope) (name : Text) (value : Value) : Prop where
  identifier : Text.isIdentifier name = true
  free : scope.constants.get? name = none
  held : scope.variables.get? name = some value

namespace Holds

variable {scope : Scope} {name : Text} {value : Value}

theorem operand (holds : scope.Holds name value) : scope.operand? name = some value := by
  simp [operand?, holds.free, holds.held]

theorem nonempty (holds : scope.Holds name value) : name ≠ [] := by
  rintro rfl
  cases holds.identifier

theorem plain (holds : scope.Holds name value) : ∀ c ∈ name, Text.isPlain c = true :=
  Text.plain_of_identifier holds.identifier

end Holds

section Assignment

variable {scope : Scope} {target dividend divisor : Text} {old : Value} {a b : Integer}
  (stores : scope.Holds target old) (integral : old.kind = .integer)
  (first : scope.Holds dividend (.integer a)) (second : scope.Holds divisor (.integer b))

include stores in
theorem cut_quotient : Text.cut? '=' (quotientStatement target dividend divisor) =
    some (target ++ [' '], ' ' :: (dividend ++ " / ".toList ++ divisor ++ [';'])) := by
  refine Text.cut?_eq_some.2 ⟨by simp [quotientStatement], ?_⟩
  have absent := Text.not_mem_of_plain stores.plain (show Text.isPlain '=' = false from rfl)
  simp [absent]

include first second in
theorem source_quotient :
    Text.trimEnd (Text.trimTail (· = ';')
      (Text.trim (' ' :: (dividend ++ " / ".toList ++ divisor ++ [';'])))) =
        dividend ++ " / ".toList ++ divisor := by
  have starts : ∀ c, (dividend ++ " / ".toList ++ divisor ++ [';']).head? = some c →
      Text.isBlank c = false := by
    rw [List.append_assoc, List.append_assoc, List.head?_append_of_ne_nil _ first.nonempty]
    exact (Text.snug_of_plain first.plain).starts
  have last : ∀ c, (dividend ++ " / ".toList ++ divisor).getLast? = some c →
      Text.isPlain c = true := by
    intro c ends
    rw [List.getLast?_append_of_ne_nil _ second.nonempty] at ends
    exact second.plain c (List.mem_of_getLast? ends)
  have ends : ∀ c, (dividend ++ " / ".toList ++ divisor ++ [';']).getLast? = some c →
      Text.isBlank c = false := by
    rw [List.getLast?_concat]
    rintro c ⟨⟩
    decide
  rw [Text.trim_space_before ⟨starts, ends⟩, Text.trimTail_append_of_all _ (by simp),
    Text.trimTail_of_last]
  · rw [Text.trimEnd, Text.trimTail_of_last fun c ends => Text.blank_of_plain (last c ends)]
  · intro c ends
    simpa using Text.ne_of_plain (last c ends) (show Text.isPlain ';' = false from rfl)

include stores integral first second in
theorem assigned_quotient : scope.assigned (quotientStatement target dividend divisor) =
    (Number.applyIntegers .div a b >>= Number.convert .integer).map fun number =>
      scope.variables.store target (.number number) := by
  have name := Text.trim_space_after (Text.snug_of_plain stores.plain)
  have free : scope.constants.contains target = false := by
    simp [Symbols.contains, stores.free]
  simp only [assigned, cut_quotient stores, name, free, stores.held, integral,
    source_quotient first second, Bool.false_eq_true, ↓reduceIte,
    evaluate_quotient first.identifier second.identifier first.operand second.operand]
  cases applied : Number.applyIntegers .div a b with
  | error fault => rfl
  | ok number =>
      simp only [bind, Except.bind, Value.coerce, Kind.isNumeric, Value.toNumber]
      cases number.convert .integer with
      | error fault => simp [Except.map]
      | ok result => simp [Except.map]

end Assignment

end Scope

namespace Number

variable {a b : Integer}

theorem divided_exactly {c : Integer} (nonzero : b.val ≠ 0) (product : a.val = c.val * b.val) :
    applyIntegers .div a b = .ok (.integer c) := by
  rw [applyIntegers_integer_iff]
  have divisor : (b.val : ℚ) ≠ 0 := by exact_mod_cast nonzero
  simp only [Operator.rational?, divisor, ↓reduceIte, Option.some.injEq]
  rw [div_eq_iff divisor]
  exact_mod_cast product

/-- The one quotient without remainder that is no integer of the language. -/
theorem divided_beyond_range (lowest : a.val = -2 ^ (63 : Nat)) (minusOne : b.val = -1) :
    applyIntegers .div a b = .error .overflow := by
  have nonzero : b.val ≠ 0 := by omega
  have whole : a.val.tmod b.val = 0 := by
    rw [minusOne, Int.tmod_neg, Int.tmod_one]
  have outside : Integer.ofInt? (a.val.tdiv b.val) = none := by
    rw [lowest, minusOne]
    decide
  simp only [applyIntegers, nonzero, whole, ↓reduceIte, Integer.div?, outside]
  rfl

theorem divided_with_remainder (nonzero : b.val ≠ 0) (indivisible : ¬ b.val ∣ a.val) :
    applyIntegers .div a b = .ok (.real (Binary64.roundedQuotient a b)) := by
  have remainder : a.val.tmod b.val ≠ 0 := fun zero => indivisible (Int.dvd_of_tmod_eq_zero zero)
  simp only [applyIntegers, nonzero, remainder, ↓reduceIte, Binary64.roundedQuotient]

end Number

namespace Binary64

section Quotient

variable {a b : Integer} (nonzero : b.val ≠ 0) (indivisible : ¬ b.val ∣ a.val)
include nonzero indivisible

theorem convert_fraction (fraction : (roundedQuotient a b).isWhole = false) :
    Number.convert .integer (.real (roundedQuotient a b)) =
      .error (.mismatch (.fractional (roundedQuotient a b))) := by
  obtain ⟨fits, shape⟩ := roundedQuotient_eq nonzero indivisible
  rw [shape] at fraction ⊢
  have remains : ¬ unitsPerOne ∣ quotientUnits a b := by
    rw [← isWhole_finite _ fits, fraction]
    simp
  have failed := toInteger_of_fraction (decide (a.val < 0) != decide (b.val < 0)) fits
    (quotientUnits_le nonzero indivisible) remains
  simp only [Number.convert]
  rw [failed]
  rfl

theorem convert_whole (whole : (roundedQuotient a b).isWhole = true) :
    ∃ c : Integer, Number.convert .integer (.real (roundedQuotient a b)) = .ok (.integer c) ∧
      (Number.real (roundedQuotient a b)).rational? = some (c.val : ℚ) := by
  obtain ⟨fits, shape⟩ := roundedQuotient_eq nonzero indivisible
  rw [shape] at whole ⊢
  obtain ⟨c, converted, value⟩ := toInteger_of_whole (decide (a.val < 0) != decide (b.val < 0))
    fits (quotientUnits_le nonzero indivisible) ((isWhole_finite _ fits).1 whole)
  refine ⟨c, ?_, value⟩
  simp only [Number.convert]
  rw [converted]
  rfl

/-- The dividend is exact here. A divisor that is not exact is larger than the dividend, and
so is what it is rounded to. -/
theorem quotient_fractional_of_small
    (small : a.val.natAbs < 2 ^ (53 : Nat) ∨
      a.val.natAbs ≤ 2 ^ (53 : Nat) ∧ b.val.natAbs ≤ 2 ^ (53 : Nat)) :
    (roundedQuotient a b).isWhole = false := by
  obtain ⟨fits, shape⟩ := roundedQuotient_eq nonzero indivisible
  have divisor := two_le_divisor nonzero indivisible
  have dividend : roundWhole a.val.natAbs = a.val.natAbs := roundWhole_small (by omega)
  have apart : ¬ b.val.natAbs ∣ a.val.natAbs := by
    rwa [Int.natAbs_dvd_natAbs]
  have remains : ¬ roundWhole b.val.natAbs ∣ a.val.natAbs := by
    by_cases exactly : b.val.natAbs ≤ 2 ^ (53 : Nat)
    · rwa [roundWhole_small exactly]
    · have larger : 2 ^ (53 : Nat) ≤ roundWhole b.val.natAbs := le_roundWhole (by omega)
      have filled : 0 < a.val.natAbs := by
        apply Nat.pos_of_ne_zero
        intro zero
        rw [zero] at apart
        exact apart (Nat.dvd_zero _)
      exact Nat.not_dvd_of_pos_of_lt filled (by omega)
  have fraction := round_quotient_fractional remains (by omega) (roundWhole_le (natAbs_le b)) (by
    rcases small with below | ⟨most, exactly⟩
    · exact .inl below
    · exact .inr ⟨most, roundWhole_le exactly⟩)
  rw [shape, ← Bool.not_eq_true, isWhole_finite, quotientUnits, dividend]
  exact fraction

end Quotient

end Binary64

namespace Session

section Assignment

variable {session : Session} {target dividend divisor : Text} {old : Value} {a b : Integer}
  (stores : session.scope.Holds target old) (integral : old.kind = .integer)
  (first : session.scope.Holds dividend (.integer a))
  (second : session.scope.Holds divisor (.integer b))
include stores integral first second

theorem assign_of_converted {result : Number}
    (converted : Number.applyIntegers .div a b >>= Number.convert .integer = .ok result) :
    session.assign (quotientStatement target dividend divisor) =
      (none, session.setVariables (session.scope.variables.store target (.number result))) := by
  simp only [assign, Scope.assigned_quotient stores integral first second, converted, Except.map]

theorem assign_of_failed {fault : Fault}
    (failed : Number.applyIntegers .div a b >>= Number.convert .integer = .error fault) :
    session.assign (quotientStatement target dividend divisor) = (some fault, session) := by
  simp only [assign, Scope.assigned_quotient stores integral first second, failed, Except.map]

end Assignment

/-- The three ways in which `target = dividend / divisor;` ends. Without remainder the quotient
itself is stored, unless it is 2^63. With a remainder, the rounded quotient of the rounded
operands decides: a fraction fits no integer variable and leaves everything as it was, and that
is so for all dividends below 2^53; a whole number is stored. -/
theorem assign_quotient (session : Session) {target dividend divisor : Text} {old : Value}
    {a b : Integer} (stores : session.scope.Holds target old) (integral : old.kind = .integer)
    (first : session.scope.Holds dividend (.integer a))
    (second : session.scope.Holds divisor (.integer b)) (nonzero : b.val ≠ 0) :
    (∀ c : Integer, a.val = c.val * b.val →
      session.assign (quotientStatement target dividend divisor) =
        (none, session.setVariables (session.scope.variables.store target (.integer c)))) ∧
    (a.val = -2 ^ (63 : Nat) → b.val = -1 →
      session.assign (quotientStatement target dividend divisor) = (some .overflow, session)) ∧
    (¬ b.val ∣ a.val →
      ((Binary64.roundedQuotient a b).isWhole = false →
        session.assign (quotientStatement target dividend divisor) =
          (some (.mismatch (.fractional (Binary64.roundedQuotient a b))), session)) ∧
      ((Binary64.roundedQuotient a b).isWhole = true → ∃ c : Integer,
        (Number.real (Binary64.roundedQuotient a b)).rational? = some (c.val : ℚ) ∧
        session.assign (quotientStatement target dividend divisor) =
          (none, session.setVariables (session.scope.variables.store target (.integer c)))) ∧
      (a.val.natAbs < 2 ^ (53 : Nat) ∨
          a.val.natAbs ≤ 2 ^ (53 : Nat) ∧ b.val.natAbs ≤ 2 ^ (53 : Nat) →
        (Binary64.roundedQuotient a b).isWhole = false)) := by
  refine ⟨?_, ?_, ?_⟩
  · intro c product
    apply assign_of_converted stores integral first second
    rw [Number.divided_exactly nonzero product]
    rfl
  · intro lowest minusOne
    apply assign_of_failed stores integral first second
    rw [Number.divided_beyond_range lowest minusOne]
    rfl
  · intro indivisible
    have divided := Number.divided_with_remainder nonzero indivisible
    refine ⟨?_, ?_, Binary64.quotient_fractional_of_small nonzero indivisible⟩
    · intro fraction
      apply assign_of_failed stores integral first second
      rw [divided, ok_bind]
      exact Binary64.convert_fraction nonzero indivisible fraction
    · intro whole
      obtain ⟨c, converted, value⟩ := Binary64.convert_whole nonzero indivisible whole
      refine ⟨c, value, assign_of_converted stores integral first second ?_⟩
      rw [divided, ok_bind]
      exact converted

theorem two_inRange : -2 ^ (63 : Nat) ≤ (2 : Int) ∧ (2 : Int) < 2 ^ (63 : Nat) := by decide

def two : Integer := ⟨2, two_inRange⟩

/-- A dividend over two. -/
def halving (dividend : Integer) : Session where
  scope :=
    { constants := .empty
      «variables» :=
        ⟨[(['p'], .integer dividend), (['q'], .integer two), (['n'], .unset .integer)],
          (by decide : [['p'], ['q'], ['n']].Nodup)⟩ }
  input := .ofBytes []
  output := .unlimited

section Halving

variable (dividend : Integer)

theorem halving_target : (halving dividend).scope.Holds ['n'] (.unset .integer) := ⟨rfl, rfl, rfl⟩

theorem halving_dividend : (halving dividend).scope.Holds ['p'] (.integer dividend) :=
  ⟨rfl, rfl, rfl⟩

theorem halving_divisor : (halving dividend).scope.Holds ['q'] (.integer two) := ⟨rfl, rfl, rfl⟩

end Halving

def seven : Integer := ⟨7, by decide⟩

theorem seven_halves_refused :
    (halving seven).assign "n = p / q;".toList =
      (some (.mismatch (.fractional (Binary64.roundedQuotient seven two))), halving seven) := by
  have cases := assign_quotient (halving seven) (halving_target seven) rfl
    (halving_dividend seven) (halving_divisor seven) (by decide)
  obtain ⟨refused, _, small⟩ := cases.2.2 (by decide)
  exact refused (small (.inl (by decide)))

def largeOdd : Integer := ⟨18014398509481985, by decide⟩

theorem largeOdd_converted :
    Number.convert .integer (.real (Binary64.roundedQuotient largeOdd two)) =
      .ok (.integer ⟨9007199254740992, by decide⟩) := by decide +kernel

-- The dividend is 2^54 + 1 and is rounded to 2^54, so that the division comes out even.
theorem largeOdd_half_stored :
    ¬ two.val ∣ largeOdd.val ∧
      (halving largeOdd).assign "n = p / q;".toList =
        (none, (halving largeOdd).setVariables ((halving largeOdd).scope.variables.store ['n']
          (.integer ⟨9007199254740992, by decide⟩))) := by
  have indivisible : ¬ two.val ∣ largeOdd.val := by decide
  refine ⟨indivisible, assign_of_converted (halving_target largeOdd) rfl
    (halving_dividend largeOdd) (halving_divisor largeOdd) ?_⟩
  rw [Number.divided_with_remainder (by decide) indivisible, ok_bind]
  exact largeOdd_converted

end Session

end Pseudocode
