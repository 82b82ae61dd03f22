import Mathlib
import Pseudocode.Proofs.Nearest
import Pseudocode.Proofs.Patterns
import Pseudocode.Proofs.SignedLiterals

/-!
The texts that are read as real numbers. They are a sign, or none, a number that matches one of the
four patterns of numbers, and spaces; the number read is the one nearest to what the text stands
for. Reading runs the scanner that also finds the tokens of an expression, which takes as much of
the text as it can. That this finds every number of the patterns, and takes nothing else for one, is
what is shown here.
-/

namespace Pseudocode

namespace Decimal

def value (decimal : Decimal) : ℚ := decimal.digits * 10 ^ decimal.exponent

theorem value_units (digits : Nat) (exponent : Int) :
    value ⟨digits, exponent⟩ * unitsPerOne =
      (digits * 10 ^ exponent.toNat * unitsPerOne : Nat) / (10 ^ (-exponent).toNat : Nat) := by
  have split : (10 : ℚ) ^ exponent = 10 ^ exponent.toNat / 10 ^ (-exponent).toNat := by
    rw [← zpow_natCast, ← zpow_natCast, ← zpow_sub₀ (by norm_num), Int.toNat_sub_toNat_neg]
  rw [value, split]
  push_cast
  ring

theorem isNearest_iff {decimal : Decimal} {x : Binary64} :
    Binary64.IsNearest decimal.value x ↔ decimal.toBinary64 = x ∧ x.isFinite = true := by
  obtain ⟨digits, exponent⟩ := decimal
  rw [toBinary64_eq]
  exact Binary64.isNearest_iff (Nat.pow_pos (by decide)) (value_units digits exponent)

/-- A whole number is rounded alike as an integer and as a decimal. -/
theorem toBinary64_whole (n : Nat) : toBinary64 ⟨n, 0⟩ = .ofInt n := by
  have positive : decide ((n : Int) < 0) = false := by simp
  rw [toBinary64_eq, Binary64.ofInt, positive, Int.toNat_zero, Int.neg_zero, Int.toNat_zero,
    Nat.pow_zero, Nat.mul_one, Int.natAbs_natCast]

end Decimal

namespace Pattern

/-- The patterns of numbers. -/
def numbers : List Pattern := [.integer, .pointed, .fraction, .scaled]

theorem numeral_of_matches {pattern : Pattern} {text : Text} (isNumber : pattern ∈ numbers)
    (matched : pattern.Matches text) :
    ∃ numeral : Numeral, numeral.WellFormed ∧ numeral.pattern = pattern ∧
      numeral.spelling = text := by
  cases form_of_matches matched with
  | numeral numeral wellFormed => exact ⟨numeral, wellFormed, rfl, rfl⟩
  | identifier | operator | opening | closing => simp [numbers] at isNumber

end Pattern

namespace Numeral

theorem pattern_mem_numbers (numeral : Numeral) : numeral.pattern ∈ Pattern.numbers := by
  obtain ⟨_ | _, _ | _, _ | _⟩ := numeral <;> simp [pattern, Pattern.numbers]

theorem pattern_integer_iff {numeral : Numeral} :
    numeral.pattern = .integer ↔ ¬ (numeral.fraction ≠ none ∨ numeral.exponent ≠ none) := by
  obtain ⟨_ | _, _ | _, _ | _⟩ := numeral <;> simp [pattern]

section Value

variable {numeral : Numeral} (wellFormed : numeral.WellFormed) {x : Binary64}
include wellFormed

theorem value?_real_iff (real : numeral.fraction ≠ none ∨ numeral.exponent ≠ none) :
    (∃ number, numeral.value? = some number ∧ number.toReal = x) ↔
      Binary64.IsNearest (Text.decimal numeral.spelling).value x := by
  rw [Decimal.isNearest_iff, value?_real real, decimal_spelling wellFormed]
  simp only [Option.ite_none_right_eq_some, Option.some.injEq]
  constructor
  · rintro ⟨_, ⟨finite, rfl⟩, rfl⟩
    exact ⟨rfl, finite⟩
  · rintro ⟨rfl, finite⟩
    exact ⟨_, ⟨finite, rfl⟩, rfl⟩

end Value

theorem decimal_digits {digits : Text} (areDigits : Text.IsDigits digits) (filled : digits ≠ []) :
    Text.decimal digits = ⟨Text.digitsValue digits, 0⟩ := by
  have decimal := decimal_spelling (wellFormed_ofDigits areDigits filled)
  rw [spelling_ofDigits] at decimal
  simpa [ofDigits] using decimal

theorem value?_integer_iff {digits : Text} {x : Binary64} (areDigits : Text.IsDigits digits)
    (filled : digits ≠ []) :
    (∃ number, (ofDigits digits).value? = some number ∧ number.toReal = x) ↔
      (Text.decimal digits).value < 2 ^ 63 ∧
        Binary64.IsNearest (Text.decimal digits).value x := by
  have value : Decimal.value ⟨Text.digitsValue digits, 0⟩ = (Text.digitsValue digits : ℚ) := by
    simp [Decimal.value]
  rw [Decimal.isNearest_iff, decimal_digits areDigits filled, value, Decimal.toBinary64_whole,
    value?_ofDigits]
  constructor
  · rintro ⟨number, found, rfl⟩
    obtain ⟨n, read, rfl⟩ := Option.map_eq_some_iff.1 found
    have same := Integer.ofInt?_eq_some.1 read
    have small : (Text.digitsValue digits : Int) < 2 ^ (63 : Nat) := same ▸ n.inRange.2
    refine ⟨by exact_mod_cast small, by rw [← same]; rfl, ?_⟩
    obtain ⟨fits, rounded⟩ := Binary64.ofInt_eq n
    rw [Number.toReal, rounded]
    rfl
  · rintro ⟨small, rfl, _⟩
    have below : Text.digitsValue digits < 2 ^ (63 : Nat) := by exact_mod_cast small
    have range : -2 ^ (63 : Nat) ≤ (Text.digitsValue digits : Int) ∧
        (Text.digitsValue digits : Int) < 2 ^ (63 : Nat) := by omega
    have read : Integer.ofInt? (Text.digitsValue digits) = some ⟨_, range⟩ :=
      Integer.ofInt?_eq_some.2 rfl
    exact ⟨.integer ⟨_, range⟩, by rw [read]; rfl, rfl⟩

/-- A numeral has a value if it is not an integer that is too large and if there is a number of
the format nearest to it; that number is its value. -/
theorem value?_iff_nearest {numeral : Numeral} {x : Binary64} (wellFormed : numeral.WellFormed) :
    (∃ number, numeral.value? = some number ∧ number.toReal = x) ↔
      (numeral.pattern = .integer → (Text.decimal numeral.spelling).value < 2 ^ 63) ∧
        Binary64.IsNearest (Text.decimal numeral.spelling).value x := by
  by_cases real : numeral.fraction ≠ none ∨ numeral.exponent ≠ none
  · rw [value?_real_iff wellFormed real, pattern_integer_iff]
    simp [real]
  · obtain ⟨whole, fraction, exponent⟩ := numeral
    have integer := pattern_integer_iff.2 real
    rw [not_or, not_not, not_not] at real
    obtain ⟨rfl, rfl⟩ := real
    have filled : whole ≠ [] := by simpa using wellFormed.filled
    have alone : spelling ⟨whole, none, none⟩ = whole := spelling_ofDigits whole
    simp only [alone, integer, forall_const]
    exact value?_integer_iff wellFormed.whole filled

end Numeral

/-- A real number as it is written. -/
structure RealLiteral where
  sign : Option Sign
  pattern : Pattern
  number : Text
  spaces : Text
  isNumber : pattern ∈ Pattern.numbers
  matched : pattern.Matches number
  blank : Text.IsSpaces spaces

namespace RealLiteral

def text (literal : RealLiteral) : Text :=
  Sign.text literal.sign ++ literal.number ++ literal.spaces

/-- What the number stands for, without its sign. -/
def exact (literal : RealLiteral) : ℚ := (Text.decimal literal.number).value

/-- Digits alone have to be within the range of the integers. -/
def InRange (literal : RealLiteral) : Prop := literal.pattern = .integer → literal.exact < 2 ^ 63

def signed (literal : RealLiteral) (magnitude : Binary64) : Binary64 :=
  if literal.sign = some .minus then magnitude.neg else magnitude

end RealLiteral

/-- Exactly the literals are read, each as the number nearest to it. A literal without a nearest
number in the format, or with an integer out of range, is none that is read. -/
theorem Binary64.read?_iff_nearest (text : Text) (x : Binary64) :
    read? text = some x ↔
      ∃ literal : RealLiteral, literal.text = text ∧ literal.InRange ∧
        ∃ magnitude, IsNearest literal.exact magnitude ∧ x = literal.signed magnitude := by
  constructor
  · intro found
    obtain ⟨literal, number, rfl, value, rfl⟩ := read?_literal found
    obtain ⟨range, nearest⟩ :=
      (Numeral.value?_iff_nearest literal.wellFormed).1 ⟨number, value, rfl⟩
    refine ⟨⟨literal.sign, literal.numeral.pattern, literal.numeral.spelling, literal.spaces,
      literal.numeral.pattern_mem_numbers, Numeral.matches_spelling literal.wellFormed,
      fun c member => (Text.mem_spaceChars c).2 (literal.blank c member)⟩, rfl, range,
      number.toReal, nearest, ?_⟩
    simp [RealLiteral.signed, SignedLiteral.isNegative]
  · rintro ⟨⟨sign, pattern, number, spaces, isNumber, matched, blank⟩, rfl, range, magnitude,
      nearest, rfl⟩
    obtain ⟨numeral, wellFormed, rfl, rfl⟩ := Pattern.numeral_of_matches isNumber matched
    obtain ⟨number, value, rfl⟩ := (Numeral.value?_iff_nearest wellFormed).2 ⟨range, nearest⟩
    have read := SignedLiteral.read?_text ⟨sign, numeral, spaces, wellFormed,
      fun c member => (Text.mem_spaceChars c).1 (blank c member)⟩ value
    simp only [SignedLiteral.isNegative, decide_eq_true_eq] at read
    exact read

example : ["3.", "1.e5", "inf", "+-1", "1.5 2", "- 1"].all
    (fun text => (Binary64.read? text.toList).isNone) = true := by decide

end Pseudocode
