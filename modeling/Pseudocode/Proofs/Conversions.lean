import Mathlib
import Pseudocode.Proofs.Exactness

/-!
How a real number is made an integer. What becomes of it depends on its exact value alone: an
integer of the language is converted to itself, any other value beyond the range of the integers is
an overflow, and a fraction within the range does not fit the type, nor does what is not finite. The
conversion compares the number with the extreme integers, made real numbers themselves: that the
bounds are then a power of two on either side is part of what is proved. It is taken apart here, and
only here.
-/

namespace Pseudocode

theorem Integer.inside (n : Integer) : (-2 ^ 63 : ℚ) ≤ n.val ∧ (n.val : ℚ) < 2 ^ 63 := by
  exact_mod_cast n.inRange

theorem Integer.exists_of_inside {m : ℤ} (inside : (-2 ^ 63 : ℚ) ≤ m ∧ (m : ℚ) < 2 ^ 63) :
    ∃ n : Integer, n.val = m :=
  ⟨⟨m, by exact_mod_cast inside⟩, rfl⟩

namespace Binary64

/-- How a number is made an integer, by its exact value. -/
inductive Converts (x : Binary64) (exact : Option ℚ) : Except Fault Integer → Prop
  | whole (n : Integer) (value : exact = some (n.val : ℚ)) : Converts x exact (.ok n)
  | beyond (v : ℚ) (value : exact = some v) (outside : v < -2 ^ 63 ∨ 2 ^ 63 ≤ v) :
      Converts x exact (.error .overflow)
  | fraction (v : ℚ) (value : exact = some v) (inside : -2 ^ 63 ≤ v ∧ v < 2 ^ 63)
      (broken : ∀ m : ℤ, v ≠ m) : Converts x exact (.error (.mismatch (.fractional x)))
  | notFinite (none : exact = none) : Converts x exact (.error (.mismatch (.notFinite x)))

/-- No value goes two ways: the integers of the language lie inside its range. -/
theorem Converts.unique {x : Binary64} {exact : Option ℚ} {first second : Except Fault Integer}
    (one : Converts x exact first) (other : Converts x exact second) : first = second := by
  cases one with
  | whole n value =>
      have range := n.inside
      cases other with
      | whole m same =>
          have equal : (n.val : ℚ) = m.val := Option.some.inj (value.symm.trans same)
          rw [Integer.ext (Int.cast_injective equal)]
      | beyond v same outside => grind
      | fraction v same inside broken => grind
      | notFinite none => grind
  | beyond v value outside =>
      cases other with
      | whole n same =>
          have range := n.inside
          grind
      | beyond => rfl
      | fraction v same inside broken => grind
      | notFinite none => grind
  | fraction v value inside broken =>
      cases other with
      | whole n same => grind
      | beyond v same outside => grind
      | fraction => rfl
      | notFinite none => grind
  | notFinite none => cases other <;> grind

theorem unitsPerOne_pos : 0 < unitsPerOne := Nat.two_pow_pos unitBits

theorem signed_mul (negative : Bool) (count factor : Nat) :
    signed negative (count * factor) = signed negative count * factor := by
  unfold signed
  split <;> simp

section Scaled

variable {scale : Nat} (positive : 0 < scale)
include positive

theorem quotient_whole_iff (n m : ℤ) : (n : ℚ) / scale = m ↔ n = m * scale := by
  have filled : (scale : ℚ) ≠ 0 := by exact_mod_cast positive.ne'
  rw [div_eq_iff filled]
  norm_cast

theorem quotient_of_dvd (negative : Bool) {units : Nat} (divides : scale ∣ units) :
    (signed negative units : ℚ) / scale = signed negative (units / scale) := by
  rw [quotient_whole_iff positive, ← signed_mul, Nat.div_mul_cancel divides]

end Scaled

theorem dvd_of_signed {negative : Bool} {units scale : Nat} {m : ℤ}
    (product : signed negative units = m * scale) : scale ∣ units := by
  have divides : (scale : ℤ) ∣ signed negative units := ⟨m, by rw [product, mul_comm]⟩
  unfold signed at divides
  split at divides
  · exact_mod_cast dvd_neg.1 divides
  · exact_mod_cast divides

theorem isWhole_finite (negative : Bool) {units : Nat} (fits : Representable units) :
    isWhole (.finite negative units fits) = true ↔ unitsPerOne ∣ units := by
  simp only [isWhole, decide_eq_true_eq]
  exact Nat.dvd_iff_mod_eq_zero.symm

section Order

variable {x y : Binary64} {v w : ℚ} (left : (Number.real x).rational? = some v)
  (right : (Number.real y).rational? = some w)
include left right

theorem le_iff : x.le y = true ↔ v ≤ w := by
  match x, y with
  | .finite s a _, .finite t b _ =>
      cases left
      cases right
      have filled : (0 : ℚ) < unitsPerOne := by exact_mod_cast unitsPerOne_pos
      rw [div_le_div_iff_of_pos_right filled, Int.cast_le]
      exact decide_eq_true_iff
  | .infinite _, _ | .nan, _ => cases left
  | .finite .., .infinite _ | .finite .., .nan => cases right

theorem lt_iff : x.lt y = true ↔ v < w := by
  rw [lt, Bool.and_eq_true, Bool.not_eq_true', ← Bool.not_eq_true, le_iff left right,
    le_iff right left, lt_iff_le_not_ge]

end Order

theorem rational?_of_rounded {n : ℤ} {count : Nat}
    (rounded : roundUnits (n.natAbs * unitsPerOne) 1 = count * unitsPerOne)
    (small : count * unitsPerOne < unitLimit) :
    (Number.real (ofInt n)).rational? = some (signed (decide (n < 0)) count : ℚ) := by
  have below : roundUnits (n.natAbs * unitsPerOne) 1 < unitLimit := by rwa [rounded]
  rw [ofInt, nearest, dif_pos below, Number.rational?, rounded, signed_mul]
  exact congrArg some ((quotient_whole_iff unitsPerOne_pos _ _).2 rfl)

theorem two_pow_units_small : 2 ^ (63 : Nat) * unitsPerOne < unitLimit := by decide +kernel

theorem roundUnits_lowest :
    roundUnits (Integer.lowest.val.natAbs * unitsPerOne) 1 = 2 ^ (63 : Nat) * unitsPerOne := by
  decide +kernel

theorem roundUnits_highest :
    roundUnits (Integer.highest.val.natAbs * unitsPerOne) 1 = 2 ^ (63 : Nat) * unitsPerOne := by
  decide +kernel

theorem rational?_lowest :
    (Number.real (ofInt Integer.lowest.val)).rational? = some (-2 ^ 63 : ℚ) := by
  rw [rational?_of_rounded roundUnits_lowest two_pow_units_small]
  norm_num [signed, Integer.lowest]

/-- The highest integer is not a real number; the one closest to it is the power of two above. -/
theorem rational?_highest :
    (Number.real (ofInt Integer.highest.val)).rational? = some (2 ^ 63 : ℚ) := by
  rw [rational?_of_rounded roundUnits_highest two_pow_units_small]
  norm_num [signed, Integer.highest]

theorem beyond_iff {x : Binary64} {v : ℚ} (exact : (Number.real x).rational? = some v) :
    (x.lt (ofInt Integer.lowest.val) || (ofInt Integer.highest.val).le x) = true ↔
      v < -2 ^ 63 ∨ 2 ^ 63 ≤ v := by
  rw [Bool.or_eq_true, lt_iff exact rational?_lowest, le_iff rational?_highest exact]

theorem converts_toInteger (x : Binary64) : Converts x (Number.real x).rational? x.toInteger := by
  cases x with
  | nan => exact .notFinite rfl
  | infinite negative => exact .notFinite rfl
  | finite negative units fits =>
      let x := Binary64.finite negative units fits
      have finite : ¬ (!x.isFinite) = true := by simp [x, isFinite]
      have exact : (Number.real x).rational? = some (signed negative units / unitsPerOne : ℚ) := rfl
      by_cases outside : (x.lt (ofInt Integer.lowest.val) ||
          (ofInt Integer.highest.val).le x) = true
      · have overflow : x.toInteger = .error .overflow := by
          rw [toInteger, if_neg finite, if_pos outside]
        exact overflow ▸ .beyond _ exact ((beyond_iff exact).1 outside)
      have inside := outside
      rw [beyond_iff exact, not_or, not_lt, not_le] at inside
      by_cases whole : x.isWhole = true
      · have converted : x.toInteger = .ok x.wholePart := by
          rw [toInteger, if_neg finite, if_neg outside, if_neg (by simp [whole])]
        have value := quotient_of_dvd unitsPerOne_pos negative ((isWhole_finite _ fits).1 whole)
        obtain ⟨n, same⟩ := Integer.exists_of_inside (value ▸ inside)
        have part : x.wholePart = n := by rw [wholePart, ← same, Integer.clamp_val]
        rw [part] at converted
        exact converted ▸ .whole n (by rw [exact, value, same])
      · have failed : x.toInteger = .error (.mismatch (.fractional x)) := by
          rw [toInteger, if_neg finite, if_neg outside, if_pos (by simp [whole])]
        refine failed ▸ .fraction _ exact inside fun m same => whole ?_
        have product := (quotient_whole_iff unitsPerOne_pos _ m).1 same
        exact (isWhole_finite _ fits).2 (dvd_of_signed product)

theorem toInteger_eq_iff {x : Binary64} {result : Except Fault Integer} :
    x.toInteger = result ↔ Converts x (Number.real x).rational? result := by
  constructor
  · rintro rfl
    exact converts_toInteger x
  · intro converts
    exact (converts_toInteger x).unique converts

section Outcomes

variable {x : Binary64}

theorem toInteger_ok_iff {n : Integer} :
    x.toInteger = .ok n ↔ (Number.real x).rational? = some (n.val : ℚ) := by
  rw [toInteger_eq_iff]
  constructor
  · rintro ⟨⟩
    assumption
  · exact .whole n

theorem toInteger_overflow_iff :
    x.toInteger = .error .overflow ↔
      ∃ v, (Number.real x).rational? = some v ∧ (v < -2 ^ 63 ∨ 2 ^ 63 ≤ v) := by
  rw [toInteger_eq_iff]
  constructor
  · rintro (_ | ⟨v, value, outside⟩)
    exact ⟨v, value, outside⟩
  · rintro ⟨v, value, outside⟩
    exact .beyond v value outside

theorem toInteger_mismatch_iff {cause : Mismatch} :
    x.toInteger = .error (.mismatch cause) ↔
      (Number.real x).rational? = none ∧ cause = .notFinite x ∨
        (∃ v, (Number.real x).rational? = some v ∧ (-2 ^ 63 ≤ v ∧ v < 2 ^ 63) ∧ ∀ m : ℤ, v ≠ m) ∧
          cause = .fractional x := by
  rw [toInteger_eq_iff]
  constructor
  · rintro (_ | _ | ⟨v, value, inside, broken⟩ | none)
    · exact .inr ⟨⟨v, value, inside, broken⟩, rfl⟩
    · exact .inl ⟨none, rfl⟩
  · rintro (⟨none, rfl⟩ | ⟨⟨v, value, inside, broken⟩, rfl⟩)
    · exact .notFinite none
    · exact .fraction v value inside broken

end Outcomes

end Binary64

end Pseudocode
