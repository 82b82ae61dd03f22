import Mathlib
import Pseudocode.Proofs.Rounding

/-!
The number closest to a fraction. What rounding has to find is said here without saying how: among
all counts of units with at most 53 significant bits there is none closer, and if there is another
one equally close, the significand is even. There is always exactly one such count, and it is the
one that rounding gives. The largest number of the format plays no part in the choice: what is
closest to a count beyond it is too large for the format.
-/

namespace Pseudocode

namespace Binary64

/-- At most 53 significant bits, whatever the size. -/
def Short (units : Nat) : Prop :=
  ∃ significand shift : Nat, significand < 2 ^ (53 : Nat) ∧ units = significand * 2 ^ shift

/-- The significand of a count has all of its 53 bits in use, unless its last bit is worth one
unit. -/
structure Normal (units significand shift : Nat) : Prop where
  value : units = significand * 2 ^ shift
  narrow : significand < 2 ^ (53 : Nat)
  full : shift ≠ 0 → 2 ^ (52 : Nat) ≤ significand

theorem two_pow_above {low high : Nat} (less : low < high) :
    2 ^ (53 : Nat) * 2 ^ low ≤ 2 ^ (52 : Nat) * 2 ^ high := by
  rw [← Nat.pow_add, ← Nat.pow_add]
  exact Nat.pow_le_pow_right (by decide) (by omega)

theorem Normal.shift_le {units significand shift otherSignificand otherShift : Nat}
    (first : Normal units significand shift) (second : Normal units otherSignificand otherShift) :
    otherShift ≤ shift := by
  by_contra less
  have wide := Nat.mul_le_mul_right (2 ^ otherShift) (second.full (by omega))
  have small := Nat.mul_lt_mul_of_pos_right first.narrow (Nat.two_pow_pos shift)
  have above := two_pow_above (Nat.lt_of_not_le less)
  rw [← first.value] at small
  rw [← second.value] at wide
  omega

theorem Normal.unique {units significand shift otherSignificand otherShift : Nat}
    (first : Normal units significand shift) (second : Normal units otherSignificand otherShift) :
    significand = otherSignificand := by
  have same : shift = otherShift := Nat.le_antisymm (second.shift_le first) (first.shift_le second)
  subst same
  have values := first.value.symm.trans second.value
  exact Nat.eq_of_mul_eq_mul_right (Nat.two_pow_pos shift) values

/-- Among large counts only the multiples of a power of two are short. -/
theorem Short.dvd {units shift : Nat} (short : Short units)
    (large : 2 ^ (52 : Nat) * 2 ^ shift ≤ units) : 2 ^ shift ∣ units := by
  obtain ⟨significand, power, narrow, rfl⟩ := short
  by_cases wide : shift ≤ power
  · exact Nat.dvd_mul_left_of_dvd (Nat.pow_dvd_pow 2 wide) significand
  · have small := Nat.mul_lt_mul_of_pos_right narrow (Nat.two_pow_pos power)
    have above := two_pow_above (Nat.lt_of_not_le wide)
    omega

/-- Between two counts with even significands there is another one. -/
theorem Normal.between {low high significand shift otherSignificand otherShift : Nat}
    (first : Normal low significand shift) (even : Even significand)
    (second : Normal high otherSignificand otherShift) (otherEven : Even otherSignificand)
    (less : low < high) : ∃ middle, Short middle ∧ low < middle ∧ middle < high := by
  have value := first.value
  have positive := Nat.two_pow_pos shift
  have narrow : significand + 1 < 2 ^ (53 : Nat) := by
    have bound := first.narrow
    obtain ⟨half, rfl⟩ := even
    omega
  have step : (significand + 1) * 2 ^ shift = low + 2 ^ shift := by rw [Nat.succ_mul, value]
  refine ⟨(significand + 1) * 2 ^ shift, ⟨_, _, narrow, rfl⟩, by omega, ?_⟩
  by_contra beyond
  -- Up to the next multiple of `2 ^ shift` no count is short, and that one has an odd significand.
  have divides : 2 ^ shift ∣ high := by
    by_cases none : shift = 0
    · rw [none]
      exact Nat.one_dvd high
    · apply Short.dvd ⟨_, _, second.narrow, second.value⟩
      have wide := Nat.mul_le_mul_right (2 ^ shift) (first.full none)
      omega
  obtain ⟨count, shape⟩ := divides
  rw [Nat.mul_comm] at shape
  have next : count = significand + 1 := by
    rw [shape, value] at less
    rw [shape] at beyond
    have above := Nat.lt_of_mul_lt_mul_right less
    have below := Nat.le_of_mul_le_mul_right (Nat.le_of_not_lt beyond) positive
    omega
  have odd : Normal high (significand + 1) shift :=
    ⟨by rw [shape, next], narrow, fun some => Nat.le_succ_of_le (first.full some)⟩
  have same := odd.unique second
  rw [← same, Nat.even_add_one] at otherEven
  exact otherEven even

/-- No short count is closer to `exact`, and none is as close unless the significand is even. -/
structure Closest (exact : ℚ) (units : Nat) : Prop where
  short : Short units
  least : ∀ other, Short other → |exact - units| ≤ |exact - other|
  even : ∀ other, Short other → other ≠ units → |exact - units| = |exact - other| →
    ∃ significand shift, Normal units significand shift ∧ Even significand

/-- Of two numbers equally far away, the exact value is in the middle. -/
theorem closer_between {exact low middle high : ℚ} (after : low < middle) (before : middle < high)
    (same : |exact - low| = |exact - high|) : |exact - middle| < |exact - low| := by
  have half : exact = (low + high) / 2 := by
    rcases abs_eq_abs.1 same with equal | opposite <;> linarith
  rw [abs_of_pos (show 0 < exact - low by linarith), abs_lt]
  constructor <;> linarith

theorem Closest.not_lt {exact : ℚ} {low high : Nat} (first : Closest exact low)
    (second : Closest exact high) : ¬ low < high := by
  intro less
  have same := le_antisymm (first.least high second.short) (second.least low first.short)
  obtain ⟨_, _, normal, even⟩ := first.even high second.short (Nat.ne_of_gt less) same
  obtain ⟨_, _, otherNormal, otherEven⟩ :=
    second.even low first.short (Nat.ne_of_lt less) same.symm
  obtain ⟨middle, short, after, before⟩ := normal.between even otherNormal otherEven less
  have closer := closer_between (Nat.cast_lt.2 after) (Nat.cast_lt.2 before) same
  exact absurd (first.least middle short) (not_le.2 closer)

theorem Closest.unique {exact : ℚ} {units other : Nat} (first : Closest exact units)
    (second : Closest exact other) : units = other :=
  Nat.le_antisymm (Nat.le_of_not_lt (second.not_lt first)) (Nat.le_of_not_lt (first.not_lt second))

section Whole

variable (dividend : Nat) {divisor : Nat} (positive : 0 < divisor)
include positive

theorem divEven_near : |(dividend : ℚ) / divisor - divEven dividend divisor| ≤ 1 / 2 := by
  obtain ⟨above, below⟩ := divEven_error dividend positive
  have scale : (0 : ℚ) < divisor := by exact_mod_cast positive
  have upper : 2 * ((divEven dividend divisor : ℚ) * divisor) ≤ 2 * dividend + divisor := by
    exact_mod_cast above
  have lower : 2 * (dividend : ℚ) ≤ 2 * ((divEven dividend divisor : ℚ) * divisor) + divisor := by
    exact_mod_cast below
  rw [abs_le, le_sub_iff_add_le, sub_le_iff_le_add, le_div_iff₀ scale, div_le_iff₀ scale]
  constructor <;> linarith

theorem divEven_even (half : |(dividend : ℚ) / divisor - divEven dividend divisor| = 1 / 2) :
    Even (divEven dividend divisor) := by
  have scale : (0 : ℚ) < divisor := by exact_mod_cast positive
  have parts : (dividend : ℚ) / divisor =
      (dividend / divisor : Nat) + (dividend % divisor : Nat) / (divisor : ℚ) := by
    have whole : (divisor : ℚ) * (dividend / divisor : Nat) + (dividend % divisor : Nat) =
        dividend := by exact_mod_cast Nat.div_add_mod dividend divisor
    rw [← whole]
    field_simp
  have nonnegative : (0 : ℚ) ≤ (dividend % divisor : Nat) / (divisor : ℚ) := by positivity
  have below : ((dividend % divisor : Nat) : ℚ) / divisor < 1 := by
    rw [div_lt_one scale]
    exact_mod_cast Nat.mod_lt dividend positive
  have fraction : ((dividend % divisor : Nat) : ℚ) / divisor = 1 / 2 := by
    rcases divEven_cases dividend divisor with ⟨same, _⟩ | ⟨same, _⟩
    · rw [parts, same, add_sub_cancel_left, abs_of_nonneg nonnegative] at half
      exact half
    · rw [parts, same, Nat.cast_succ, add_sub_add_left_eq_sub,
        abs_of_nonpos (by linarith)] at half
      linarith
  have tie : 2 * (dividend % divisor) = divisor := by
    rw [div_eq_div_iff scale.ne' two_ne_zero, one_mul, mul_comm] at fraction
    exact_mod_cast fraction
  simp only [Nat.even_iff, divEven, tie, lt_self_iff_false, decide_false, decide_true,
    Bool.true_and, Bool.false_or, decide_eq_true_eq]
  by_cases even : dividend / divisor % 2 = 0
  · rwa [if_pos even]
  · rw [if_neg even]
    omega

end Whole

/-- A whole number within one half is the closest; only at one half there is another. -/
theorem whole_closest {exact : ℚ} {count other : Nat} (near : |exact - count| ≤ 1 / 2)
    (different : other ≠ count) :
    |exact - count| ≤ |exact - other| ∧
      (|exact - count| = |exact - other| → |exact - count| = 1 / 2) := by
  have apart : (1 : ℚ) ≤ |(other : ℚ) - count| := by
    have integers : (1 : ℤ) ≤ |(other : ℤ) - count| :=
      Int.one_le_abs (sub_ne_zero.2 (by exact_mod_cast different))
    exact_mod_cast integers
  have path : |(other : ℚ) - count| ≤ |exact - count| + |exact - other| := by
    rw [abs_sub_comm exact (other : ℚ), add_comm]
    exact abs_sub_le _ _ _
  constructor
  · linarith
  · intro same
    linarith

section Rounding

variable (dividend : Nat) {divisor : Nat} (positive : 0 < divisor)

/-- What the last bit of a rounded fraction is worth. -/
def lastBit (dividend divisor : Nat) : Nat := 2 ^ droppedBits (dividend / divisor)

/-- How many of them make up the rounded fraction. -/
def lastBits (dividend divisor : Nat) : Nat :=
  divEven dividend (divisor * lastBit dividend divisor)

theorem lastBit_pos (dividend divisor : Nat) : 0 < lastBit dividend divisor := Nat.two_pow_pos _

/-- Where bits are given up, the fraction is at least as large as the least of its size. -/
theorem lowest_le (some : droppedBits (dividend / divisor) ≠ 0) :
    2 ^ (52 : Nat) * lastBit dividend divisor * divisor ≤ dividend := by
  have wide := le_of_droppedBits dividend divisor some
  rwa [Nat.pow_add, Nat.mul_comm divisor, Nat.mul_comm (2 ^ droppedBits _)] at wide

include positive

theorem two_pow_le_lastBits (some : droppedBits (dividend / divisor) ≠ 0) :
    2 ^ (52 : Nat) ≤ lastBits dividend divisor := by
  refine Nat.le_trans ?_ (le_divEven _ _)
  rw [Nat.le_div_iff_mul_le (Nat.mul_pos positive (lastBit_pos dividend divisor)),
    Nat.mul_comm divisor, ← Nat.mul_assoc]
  exact lowest_le dividend some

theorem roundUnits_normal : ∃ significand shift,
    Normal (roundUnits dividend divisor) significand shift ∧
      (Even (lastBits dividend divisor) → Even significand) := by
  have bound : lastBits dividend divisor ≤ 2 ^ (53 : Nat) := roundUnits_significand_le _ _
  by_cases full : lastBits dividend divisor = 2 ^ (53 : Nat)
  · refine ⟨2 ^ (52 : Nat), droppedBits (dividend / divisor) + 1, ⟨?_, by decide, fun _ => le_rfl⟩,
      fun _ => by decide⟩
    change lastBits dividend divisor * 2 ^ droppedBits (dividend / divisor) = _
    rw [full, Nat.pow_succ 2 (droppedBits _), Nat.mul_comm _ 2, ← Nat.mul_assoc]
  · exact ⟨lastBits dividend divisor, droppedBits (dividend / divisor),
      ⟨rfl, by omega, two_pow_le_lastBits dividend positive⟩, id⟩

theorem distance_of_lastBits (count : Nat) :
    |(dividend : ℚ) / divisor - (count * lastBit dividend divisor : Nat)| =
      |(dividend : ℚ) / (divisor * lastBit dividend divisor : Nat) - count| *
        lastBit dividend divisor := by
  have scale : (divisor : ℚ) ≠ 0 := by exact_mod_cast positive.ne'
  have step : (0 : ℚ) < lastBit dividend divisor := by exact_mod_cast lastBit_pos _ _
  have factored : (dividend : ℚ) / divisor - (count * lastBit dividend divisor : Nat) =
      ((dividend : ℚ) / (divisor * lastBit dividend divisor : Nat) - count) *
        lastBit dividend divisor := by
    push_cast
    field_simp
  rw [factored, abs_mul, abs_of_pos step]

theorem closer_than_lastBits {count : Nat} (different : count ≠ lastBits dividend divisor) :
    |(dividend : ℚ) / divisor - roundUnits dividend divisor| ≤
        |(dividend : ℚ) / divisor - (count * lastBit dividend divisor : Nat)| ∧
      (|(dividend : ℚ) / divisor - roundUnits dividend divisor| =
        |(dividend : ℚ) / divisor - (count * lastBit dividend divisor : Nat)| →
        Even (lastBits dividend divisor)) := by
  have step : (0 : ℚ) < lastBit dividend divisor := by exact_mod_cast lastBit_pos _ _
  have filled := Nat.mul_pos positive (lastBit_pos dividend divisor)
  obtain ⟨closer, tie⟩ := whole_closest (divEven_near dividend filled) different
  have rounded : roundUnits dividend divisor =
    lastBits dividend divisor * lastBit dividend divisor := rfl
  rw [rounded, distance_of_lastBits dividend positive, distance_of_lastBits dividend positive]
  refine ⟨mul_le_mul_of_nonneg_right closer step.le, fun same => ?_⟩
  exact divEven_even dividend filled (tie (mul_right_cancel₀ step.ne' same))

/-- The short counts: multiples of the last bit, and smaller ones that are further away. -/
theorem short_cases {other : Nat} (short : Short other) :
    (∃ count, other = count * lastBit dividend divisor) ∨
      |(dividend : ℚ) / divisor - (2 ^ (52 : Nat) * lastBit dividend divisor : Nat)| <
        |(dividend : ℚ) / divisor - other| := by
  by_cases none : droppedBits (dividend / divisor) = 0
  · left
    exact ⟨other, by rw [lastBit, none, Nat.pow_zero, Nat.mul_one]⟩
  by_cases large : 2 ^ (52 : Nat) * lastBit dividend divisor ≤ other
  · left
    obtain ⟨count, shape⟩ := short.dvd large
    exact ⟨count, by rw [shape, Nat.mul_comm, lastBit]⟩
  · right
    have lowest : ((2 ^ (52 : Nat) * lastBit dividend divisor : Nat) : ℚ) ≤ dividend / divisor := by
      rw [le_div_iff₀ (by exact_mod_cast positive)]
      exact_mod_cast lowest_le dividend none
    have below : (other : ℚ) < (2 ^ (52 : Nat) * lastBit dividend divisor : Nat) :=
      Nat.cast_lt.2 (Nat.lt_of_not_le large)
    rw [abs_of_nonneg (by linarith), abs_of_nonneg (by linarith)]
    linarith

theorem roundUnits_closest : Closest ((dividend : ℚ) / divisor) (roundUnits dividend divisor) := by
  obtain ⟨significand, shift, normal, even⟩ := roundUnits_normal dividend positive
  have least (count : Nat) : |(dividend : ℚ) / divisor - roundUnits dividend divisor| ≤
      |(dividend : ℚ) / divisor - (count * lastBit dividend divisor : Nat)| := by
    by_cases same : count = lastBits dividend divisor
    · rw [same]
      rfl
    · exact (closer_than_lastBits dividend positive same).1
  refine ⟨⟨significand, shift, normal.narrow, normal.value⟩, ?_, ?_⟩
  · intro other short
    rcases short_cases dividend positive short with ⟨count, rfl⟩ | further
    · exact least count
    · exact (least _).trans further.le
  · intro other short different tie
    rcases short_cases dividend positive short with ⟨count, rfl⟩ | further
    · have apart : count ≠ lastBits dividend divisor := fun same => different (by rw [same]; rfl)
      have evenBits := (closer_than_lastBits dividend positive apart).2 tie
      exact ⟨significand, shift, normal, even evenBits⟩
    · exact absurd tie (ne_of_lt ((least _).trans_lt further))

theorem closest_iff {units : Nat} :
    Closest ((dividend : ℚ) / divisor) units ↔ units = roundUnits dividend divisor := by
  constructor
  · intro closest
    exact closest.unique (roundUnits_closest dividend positive)
  · rintro rfl
    exact roundUnits_closest dividend positive

end Rounding

/-- The number of the format that is nearest to an exact value without a sign. There is none where
the closest count of units is too large for the format. -/
def IsNearest (exact : ℚ) (x : Binary64) : Prop :=
  ∃ units fits, x = .finite false units fits ∧ Closest (exact * unitsPerOne) units

theorem isNearest_iff {dividend divisor : Nat} (positive : 0 < divisor) {exact : ℚ}
    (value : exact * unitsPerOne = dividend / divisor) {x : Binary64} :
    IsNearest exact x ↔ nearest false dividend divisor = x ∧ x.isFinite = true := by
  unfold IsNearest
  rw [value]
  constructor
  · rintro ⟨units, fits, rfl, closest⟩
    exact ⟨nearest_finite false ((closest_iff dividend positive).1 closest).symm fits, rfl⟩
  · rintro ⟨rfl, finite⟩
    obtain ⟨fits, shape⟩ := nearest_of_isFinite finite
    exact ⟨_, fits, shape, roundUnits_closest dividend positive⟩

end Binary64

end Pseudocode
