import Pseudocode.Number.Binary64

/-!
Facts about rounding. A fraction of units is rounded to the closest count with at most 53
significant bits: the result depends on the value of the fraction alone, a count that the
format holds stays as it is, the error is at most half of the last bit kept, and no power of
two is ever crossed.
-/

namespace Pseudocode.Binary64

section WholeNumbers

theorem divEven_cases (dividend divisor : Nat) :
    (divEven dividend divisor = dividend / divisor ∧ 2 * (dividend % divisor) ≤ divisor) ∨
      (divEven dividend divisor = dividend / divisor + 1 ∧
        divisor ≤ 2 * (dividend % divisor)) := by
  simp only [divEven, Bool.or_eq_true, Bool.and_eq_true, decide_eq_true_eq]
  by_cases down : 2 * (dividend % divisor) < divisor ∨
      2 * (dividend % divisor) = divisor ∧ dividend / divisor % 2 = 0
  · exact .inl ⟨if_pos down, by omega⟩
  · exact .inr ⟨if_neg down, by omega⟩

theorem divEven_error (dividend : Nat) {divisor : Nat} (positive : 0 < divisor) :
    2 * (divEven dividend divisor * divisor) ≤ 2 * dividend + divisor ∧
      2 * dividend ≤ 2 * (divEven dividend divisor * divisor) + divisor := by
  have whole := Nat.div_add_mod dividend divisor
  rw [Nat.mul_comm] at whole
  rcases divEven_cases dividend divisor with ⟨same, near⟩ | ⟨same, near⟩
  · rw [same]
    omega
  · have small := Nat.mod_lt dividend positive
    rw [same, Nat.add_mul (dividend / divisor), Nat.one_mul]
    omega

theorem le_divEven (dividend divisor : Nat) : dividend / divisor ≤ divEven dividend divisor := by
  rcases divEven_cases dividend divisor with ⟨same, _⟩ | ⟨same, _⟩ <;> omega

theorem divEven_mul (quotient divisor : Nat) (positive : 0 < divisor) :
    divEven (quotient * divisor) divisor = quotient := by
  simp [divEven, Nat.mul_div_cancel _ positive, positive]

theorem divEven_scale (dividend divisor factor : Nat) (positive : 0 < factor) :
    divEven (dividend * factor) (divisor * factor) = divEven dividend divisor := by
  have less : 2 * (dividend % divisor * factor) < divisor * factor ↔
      2 * (dividend % divisor) < divisor := by
    rw [← Nat.mul_assoc]
    exact Nat.mul_lt_mul_right positive
  have same : 2 * (dividend % divisor * factor) = divisor * factor ↔
      2 * (dividend % divisor) = divisor := by
    rw [← Nat.mul_assoc]
    exact Nat.mul_left_inj (Nat.ne_of_gt positive)
  simp only [divEven, Nat.mul_div_mul_right _ _ positive, Nat.mul_mod_mul_right, less, same]

end WholeNumbers

section Significands

theorem roundUnits_scale (dividend divisor factor : Nat) (positive : 0 < factor) :
    roundUnits (dividend * factor) (divisor * factor) = roundUnits dividend divisor := by
  simp only [roundUnits, Nat.mul_div_mul_right _ _ positive, Nat.mul_right_comm divisor factor,
    divEven_scale _ _ _ positive]

/-- Rounding sees only the value of a fraction, not how it is written. -/
theorem roundUnits_of_ratio {a b c d : Nat} (left : 0 < b) (right : 0 < d)
    (same : a * d = c * b) : roundUnits a b = roundUnits c d := by
  rw [← roundUnits_scale a b d right, same, Nat.mul_comm b d, roundUnits_scale c d b left]

theorem log2_mul_two_pow {n : Nat} (nonzero : n ≠ 0) (shift : Nat) :
    (n * 2 ^ shift).log2 = n.log2 + shift := by
  have low := Nat.log2_self_le nonzero
  have high : n < 2 ^ (n.log2 + 1) := Nat.lt_log2_self
  have filled : n * 2 ^ shift ≠ 0 :=
    Nat.mul_ne_zero nonzero (Nat.ne_of_gt (Nat.two_pow_pos shift))
  rw [Nat.log2_eq_iff filled, Nat.add_right_comm, Nat.pow_add, Nat.pow_add]
  exact ⟨Nat.mul_le_mul_right _ low, Nat.mul_lt_mul_of_pos_right high (Nat.two_pow_pos shift)⟩

theorem roundUnits_significand (significand shift : Nat) (small : significand < 2 ^ (53 : Nat)) :
    roundUnits (significand * 2 ^ shift) 1 = significand * 2 ^ shift := by
  by_cases zero : significand = 0
  · subst zero
    rw [Nat.zero_mul]
    decide
  · have narrow : significand.log2 < 53 := (Nat.log2_lt zero).2 small
    have dropped : droppedBits (significand * 2 ^ shift) ≤ shift := by
      rw [droppedBits, log2_mul_two_pow zero]
      omega
    simp only [roundUnits, Nat.div_one, Nat.one_mul]
    generalize droppedBits (significand * 2 ^ shift) = bits at dropped
    have split : significand * 2 ^ shift = significand * 2 ^ (shift - bits) * 2 ^ bits := by
      rw [Nat.mul_assoc, ← Nat.pow_add, Nat.sub_add_cancel dropped]
    rw [split, divEven_mul _ _ (Nat.two_pow_pos bits)]

theorem roundUnits_of_representable {units : Nat} (fits : Representable units) :
    roundUnits units 1 = units := by
  obtain ⟨_, significand, shift, small, rfl⟩ := fits
  exact roundUnits_significand significand shift small

/-- Between whole numbers, a power of two more or less makes no difference. -/
theorem roundUnits_shift (whole shift : Nat) :
    roundUnits (whole * 2 ^ shift) 1 = roundUnits whole 1 * 2 ^ shift := by
  by_cases small : whole < 2 ^ (53 : Nat)
  · have alone := roundUnits_significand whole 0 small
    rw [Nat.pow_zero, Nat.mul_one] at alone
    rw [roundUnits_significand whole shift small, alone]
  · have nonzero : whole ≠ 0 := by
      rintro rfl
      exact small (Nat.two_pow_pos 53)
    have wide : 53 ≤ whole.log2 := (Nat.le_log2 nonzero).2 (Nat.le_of_not_lt small)
    have dropped : droppedBits (whole * 2 ^ shift) = droppedBits whole + shift := by
      rw [droppedBits, droppedBits, log2_mul_two_pow nonzero]
      omega
    simp only [roundUnits, Nat.div_one, Nat.one_mul, dropped, Nat.pow_add]
    rw [divEven_scale _ _ _ (Nat.two_pow_pos shift), Nat.mul_assoc]

section Bounds

variable (dividend : Nat) {divisor : Nat}

theorem roundUnits_error (positive : 0 < divisor) :
    2 * (roundUnits dividend divisor * divisor) ≤
        2 * dividend + divisor * 2 ^ droppedBits (dividend / divisor) ∧
      2 * dividend ≤ 2 * (roundUnits dividend divisor * divisor) +
        divisor * 2 ^ droppedBits (dividend / divisor) := by
  have error := divEven_error dividend
    (Nat.mul_pos positive (Nat.two_pow_pos (droppedBits (dividend / divisor))))
  have order : roundUnits dividend divisor * divisor =
      divEven dividend (divisor * 2 ^ droppedBits (dividend / divisor)) *
        (divisor * 2 ^ droppedBits (dividend / divisor)) := by
    rw [roundUnits, Nat.mul_assoc, Nat.mul_comm (2 ^ _) divisor]
  rw [order]
  exact error

/-- Bits are given up only by a fraction that has more than 53 of them. -/
theorem le_of_droppedBits (divisor : Nat) (some : droppedBits (dividend / divisor) ≠ 0) :
    divisor * 2 ^ (droppedBits (dividend / divisor) + 52) ≤ dividend := by
  unfold droppedBits at some ⊢
  have nonzero : dividend / divisor ≠ 0 := by
    intro zero
    rw [zero] at some
    exact some rfl
  have low := Nat.log2_self_le nonzero
  have bits : (dividend / divisor).log2 - 52 + 52 = (dividend / divisor).log2 := by omega
  rw [bits]
  exact Nat.le_trans (Nat.mul_le_mul_left divisor low) (Nat.mul_div_le dividend divisor)

variable {dividend}

theorem two_pow_le_roundUnits {power : Nat} (positive : 0 < divisor)
    (bound : 2 ^ power * divisor ≤ dividend) : 2 ^ power ≤ roundUnits dividend divisor := by
  have whole : 2 ^ power ≤ dividend / divisor := (Nat.le_div_iff_mul_le positive).2 bound
  have nonzero : dividend / divisor ≠ 0 := by
    have := Nat.two_pow_pos power
    omega
  have wide : power ≤ (dividend / divisor).log2 := (Nat.le_log2 nonzero).2 whole
  have low := Nat.log2_self_le nonzero
  have few : droppedBits (dividend / divisor) ≤ (dividend / divisor).log2 := Nat.sub_le _ _
  have kept : 2 ^ ((dividend / divisor).log2 - droppedBits (dividend / divisor)) ≤
      dividend / (divisor * 2 ^ droppedBits (dividend / divisor)) := by
    rw [← Nat.div_div_eq_div_mul, Nat.le_div_iff_mul_le (Nat.two_pow_pos _), ← Nat.pow_add,
      Nat.sub_add_cancel few]
    exact low
  have rounded := Nat.le_trans kept (le_divEven _ _)
  calc 2 ^ power
      ≤ 2 ^ (dividend / divisor).log2 := Nat.pow_le_pow_right (by decide) wide
    _ = 2 ^ ((dividend / divisor).log2 - droppedBits (dividend / divisor)) *
          2 ^ droppedBits (dividend / divisor) := by
        rw [← Nat.pow_add, Nat.sub_add_cancel few]
    _ ≤ roundUnits dividend divisor := Nat.mul_le_mul_right _ rounded

theorem roundUnits_le_two_pow {power : Nat} (positive : 0 < divisor)
    (bound : dividend ≤ 2 ^ power * divisor) : roundUnits dividend divisor ≤ 2 ^ power := by
  rcases Nat.lt_or_eq_of_le bound with below | same
  · have whole : dividend / divisor < 2 ^ power := (Nat.div_lt_iff_lt_mul positive).2 below
    by_cases none : droppedBits (dividend / divisor) = 0
    · have near := divEven_le dividend divisor
      simp only [roundUnits, none, Nat.pow_zero, Nat.mul_one]
      omega
    · have some : 52 < (dividend / divisor).log2 := by
        unfold droppedBits at none
        omega
      have nonzero : dividend / divisor ≠ 0 := by
        intro zero
        rw [zero] at some
        contradiction
      have narrow : (dividend / divisor).log2 < power := (Nat.log2_lt nonzero).2 whole
      calc roundUnits dividend divisor
          ≤ 2 ^ (53 : Nat) * 2 ^ droppedBits (dividend / divisor) :=
            Nat.mul_le_mul_right _ (roundUnits_significand_le dividend divisor)
        _ = 2 ^ (53 + droppedBits (dividend / divisor)) := (Nat.pow_add _ _ _).symm
        _ ≤ 2 ^ power := Nat.pow_le_pow_right (by decide) (by unfold droppedBits; omega)
  · have exactly : roundUnits dividend divisor = roundUnits (1 * 2 ^ power) 1 :=
      roundUnits_of_ratio positive (by decide) (by rw [same, Nat.one_mul, Nat.mul_one])
    exact Nat.le_of_eq (by rw [exactly, roundUnits_significand 1 power (by decide), Nat.one_mul])

theorem roundUnits_eq_zero (small : 2 * dividend < divisor) :
    roundUnits dividend divisor = 0 := by
  have below : dividend < divisor := by omega
  have whole : dividend / divisor = 0 := Nat.div_eq_of_lt below
  have none : droppedBits 0 = 0 := by decide
  simp [roundUnits, whole, none, divEven, Nat.mod_eq_of_lt below, small]

end Bounds

end Significands

section NearestNumbers

theorem nearest_of_ratio (negative : Bool) {a b c d : Nat} (left : 0 < b) (right : 0 < d)
    (same : a * d = c * b) : nearest negative a b = nearest negative c d := by
  simp only [nearest, roundUnits_of_ratio left right same]

theorem nearest_finite (negative : Bool) {dividend divisor units : Nat}
    (rounded : roundUnits dividend divisor = units) (fits : Representable units) :
    nearest negative dividend divisor = .finite negative units fits := by
  subst rounded
  exact dif_pos fits.1

theorem nearest_infinite (negative : Bool) {dividend divisor : Nat}
    (large : unitLimit ≤ roundUnits dividend divisor) :
    nearest negative dividend divisor = .infinite negative :=
  dif_neg (Nat.not_lt.2 large)

theorem nearest_of_isFinite {negative : Bool} {dividend divisor : Nat}
    (finite : (nearest negative dividend divisor).isFinite = true) :
    ∃ fits, nearest negative dividend divisor =
      .finite negative (roundUnits dividend divisor) fits := by
  by_cases below : roundUnits dividend divisor < unitLimit
  · exact ⟨roundUnits_representable below, dif_pos below⟩
  · rw [nearest_infinite negative (Nat.not_lt.1 below)] at finite
    contradiction

theorem nearest_representable (negative : Bool) {units : Nat} (fits : Representable units) :
    nearest negative units 1 = .finite negative units fits :=
  nearest_finite negative (roundUnits_of_representable fits) fits

end NearestNumbers

end Pseudocode.Binary64
