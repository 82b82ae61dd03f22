import Mathlib
import Pseudocode.Proofs.Conversions
import Pseudocode.Proofs.Nearest

/-!
The 64 bits of a real number. A bit pattern denotes a rational number by its three fields: a sign,
a power of two and a fraction between one and two, or below one where the power is the least one.
The count of units that stands for a number here has the value that its bits denote, and every
number has its bits, so that nothing is lost or added by counting units.
-/

namespace Pseudocode.Binary64

def signField (bits : UInt64) : Bool := decide (2 ^ (63 : Nat) ≤ bits.toNat)

def exponentField (bits : UInt64) : Nat := bits.toNat / 2 ^ (52 : Nat) % 2 ^ (11 : Nat)

def fractionField (bits : UInt64) : Nat := bits.toNat % 2 ^ (52 : Nat)

def signFactor (negative : Bool) : ℚ := if negative then -1 else 1

/-- The rational number that a bit pattern denotes. With all exponent bits set there is none: such
a pattern is an infinity or no number at all. -/
def denoted? (bits : UInt64) : Option ℚ :=
  if exponentField bits = 2047 then none
  else if exponentField bits = 0 then
    some (signFactor (signField bits) *
      (fractionField bits / 2 ^ (52 : ℤ)) * 2 ^ (-1022 : ℤ))
  else
    some (signFactor (signField bits) *
      (1 + fractionField bits / 2 ^ (52 : ℤ)) * 2 ^ ((exponentField bits : ℤ) - 1023))

theorem signed_eq (negative : Bool) (units : Nat) :
    (signed negative units : ℚ) = signFactor negative * units := by
  cases negative <;> simp [signed, signFactor]

theorem unitsPerOne_eq : (unitsPerOne : ℚ) = 2 ^ (unitBits : ℤ) := by
  rw [unitsPerOne, Nat.cast_pow, Nat.cast_ofNat, zpow_natCast]

/-- A significand whose last bit is worth `2 ^ shift` units. -/
theorem value_of_units (significand shift : Nat) :
    ((significand * 2 ^ shift : Nat) : ℚ) / unitsPerOne =
      significand / 2 ^ (52 : ℤ) * 2 ^ ((shift : ℤ) - 1022) := by
  have scale : (2 : ℚ) ^ (shift : ℤ) / 2 ^ (unitBits : ℤ) =
      (2 ^ (52 : ℤ))⁻¹ * 2 ^ ((shift : ℤ) - 1022) := by
    rw [← zpow_neg, ← zpow_sub₀ two_ne_zero, ← zpow_add₀ two_ne_zero, unitBits]
    congr 1
    push_cast
    ring
  rw [Nat.cast_mul, Nat.cast_pow, Nat.cast_ofNat, unitsPerOne_eq, ← zpow_natCast, mul_div_assoc,
    scale, ← mul_assoc, ← div_eq_mul_inv]

section Fields

variable (bits : UInt64)

theorem ofBits_subnormal (lowest : exponentField bits = 0) :
    ∃ fits, ofBits bits = .finite (signField bits) (fractionField bits) fits :=
  ⟨_, dif_pos lowest⟩

theorem ofBits_normal (above : exponentField bits ≠ 0) (ordinary : exponentField bits < 2047) :
    ∃ fits, ofBits bits = .finite (signField bits)
      ((2 ^ (52 : Nat) + fractionField bits) * 2 ^ (exponentField bits - 1)) fits :=
  ⟨_, (dif_neg above).trans (dif_pos ordinary)⟩

theorem ofBits_special (full : exponentField bits = 2047) :
    ofBits bits = if fractionField bits = 0 then .infinite (signField bits) else .nan :=
  (dif_neg (show exponentField bits ≠ 0 by omega)).trans
    (dif_neg (show ¬ exponentField bits < 2047 by omega))

end Fields

theorem rational?_ofBits (bits : UInt64) :
    (Number.real (ofBits bits)).rational? = denoted? bits := by
  have narrow : exponentField bits < 2048 := Nat.mod_lt _ (by decide)
  by_cases full : exponentField bits = 2047
  · rw [ofBits_special bits full, denoted?, if_pos full]
    split <;> rfl
  by_cases lowest : exponentField bits = 0
  · obtain ⟨fits, shape⟩ := ofBits_subnormal bits lowest
    have value := value_of_units (fractionField bits) 0
    rw [Nat.pow_zero, Nat.mul_one, Nat.cast_zero, zero_sub] at value
    rw [shape, denoted?, if_neg full, if_pos lowest, Number.rational?, signed_eq, mul_div_assoc,
      value, mul_assoc]
  · obtain ⟨fits, shape⟩ := ofBits_normal bits lowest (by omega)
    have value := value_of_units (2 ^ (52 : Nat) + fractionField bits) (exponentField bits - 1)
    have scale : ((2 ^ (52 : Nat) + fractionField bits : Nat) : ℚ) / 2 ^ (52 : ℤ) =
        1 + fractionField bits / 2 ^ (52 : ℤ) := by
      rw [Nat.cast_add, add_div]
      norm_num
    have power : ((exponentField bits - 1 : Nat) : ℤ) - 1022 = exponentField bits - 1023 := by omega
    rw [shape, denoted?, if_neg full, if_neg lowest, Number.rational?, signed_eq, mul_div_assoc,
      value, scale, power, mul_assoc]

section Packed

variable (negative : Bool) {magnitude : Nat} (narrow : magnitude < 2 ^ (63 : Nat))
include narrow

theorem toNat_packed : (UInt64.ofNat (signBit negative + magnitude)).toNat =
    signBit negative + magnitude := by
  rw [UInt64.toNat_ofNat', signBit]
  cases negative <;> simp <;> omega

theorem signField_packed : signField (UInt64.ofNat (signBit negative + magnitude)) = negative := by
  rw [signField, toNat_packed negative narrow, signBit]
  cases negative <;> simp [narrow]

theorem exponentField_packed :
    exponentField (UInt64.ofNat (signBit negative + magnitude)) = magnitude / 2 ^ (52 : Nat) := by
  rw [exponentField, toNat_packed negative narrow, signBit]
  split <;> omega

theorem fractionField_packed :
    fractionField (UInt64.ofNat (signBit negative + magnitude)) = magnitude % 2 ^ (52 : Nat) := by
  rw [fractionField, toNat_packed negative narrow, signBit]
  split <;> omega

end Packed

/-- The significand of a count uses 53 bits, unless the count is below 2^52. -/
theorem significand_wide {units : Nat} (wide : 2 ^ (52 : Nat) ≤ units) :
    2 ^ (52 : Nat) ≤ units / 2 ^ droppedBits units := by
  have nonzero : units ≠ 0 := by omega
  have long : 52 ≤ units.log2 := (Nat.le_log2 nonzero).2 wide
  rw [Nat.le_div_iff_mul_le (Nat.two_pow_pos _), ← Nat.pow_add, droppedBits,
    Nat.add_sub_cancel' long]
  exact Nat.log2_self_le nonzero

theorem significand_narrow (units : Nat) : units / 2 ^ droppedBits units < 2 ^ (53 : Nat) :=
  Nat.div_lt_of_lt_mul (by rw [Nat.mul_comm]; exact lt_two_pow_droppedBits units)

theorem droppedBits_small {units : Nat} (small : units < 2 ^ (52 : Nat)) :
    droppedBits units = 0 := by
  by_cases zero : units = 0
  · subst zero
    decide
  · have short := (Nat.log2_lt zero).2 small
    rw [droppedBits]
    omega

theorem droppedBits_lt {units : Nat} (below : units < unitLimit) : droppedBits units < 2046 := by
  by_cases zero : units = 0
  · subst zero
    decide
  · have short : units.log2 < limitBits := (Nat.log2_lt zero).2 below
    rw [limitBits] at short
    rw [droppedBits]
    omega

theorem significand_exact {units : Nat} (fits : Representable units)
    (wide : 2 ^ (52 : Nat) ≤ units) :
    units / 2 ^ droppedBits units * 2 ^ droppedBits units = units := by
  have large := (Nat.le_div_iff_mul_le (Nat.two_pow_pos _)).1 (significand_wide wide)
  exact Nat.div_mul_cancel (Short.dvd fits.2 large)

theorem ofBits_toBits_finite (negative : Bool) {units : Nat} (fits : Representable units) :
    ofBits (toBits (.finite negative units fits)) = .finite negative units fits := by
  have few := droppedBits_lt fits.1
  have short := significand_narrow units
  simp only [toBits]
  generalize packed : droppedBits units * 2 ^ (52 : Nat) + units / 2 ^ droppedBits units = magnitude
  have narrow : magnitude < 2 ^ (63 : Nat) := by omega
  have sign := signField_packed negative narrow
  have exponent := exponentField_packed negative narrow
  have fraction := fractionField_packed negative narrow
  by_cases wide : 2 ^ (52 : Nat) ≤ units
  · have full := significand_wide wide
    obtain ⟨_, shape⟩ := ofBits_normal (UInt64.ofNat (signBit negative + magnitude))
      (by omega) (by omega)
    have power : magnitude / 2 ^ (52 : Nat) - 1 = droppedBits units := by omega
    have significand : 2 ^ (52 : Nat) + magnitude % 2 ^ (52 : Nat) =
        units / 2 ^ droppedBits units := by omega
    rw [shape, finite.injEq, sign, exponent, fraction, power, significand]
    exact ⟨rfl, significand_exact fits wide⟩
  · rw [droppedBits_small (Nat.lt_of_not_le wide), Nat.pow_zero, Nat.div_one] at packed
    obtain ⟨_, shape⟩ := ofBits_subnormal (UInt64.ofNat (signBit negative + magnitude)) (by omega)
    rw [shape, finite.injEq, sign, fraction]
    exact ⟨rfl, by omega⟩

theorem ofBits_toBits (x : Binary64) : ofBits x.toBits = x := by
  cases x with
  | nan => decide
  | infinite negative => cases negative <;> decide
  | finite negative units fits => exact ofBits_toBits_finite negative fits

/-- Every number has its 64 bits, and what becomes of it depends on the exact value that they
denote: an integer of the language is converted to itself, any other value beyond the range of the
integers is an overflow, and a fraction within the range or a pattern without a value does not fit
the type. -/
theorem toInteger_by_denoted_value :
    (∀ x : Binary64, ∃ bits, ofBits bits = x) ∧
    ∀ bits : UInt64,
      (∀ n : Integer,
        (ofBits bits).toInteger = .ok n ↔ denoted? bits = some (n.val : ℚ)) ∧
      ((ofBits bits).toInteger = .error .overflow ↔
        ∃ v, denoted? bits = some v ∧ (v < -2 ^ 63 ∨ 2 ^ 63 ≤ v)) ∧
      ∀ cause, (ofBits bits).toInteger = .error (.mismatch cause) ↔
        denoted? bits = none ∧ cause = .notFinite (ofBits bits) ∨
        (∃ v, denoted? bits = some v ∧ (-2 ^ 63 ≤ v ∧ v < 2 ^ 63) ∧ ∀ m : ℤ, v ≠ m) ∧
          cause = .fractional (ofBits bits) := by
  refine ⟨fun x => ⟨x.toBits, ofBits_toBits x⟩, fun bits => ?_⟩
  rw [← rational?_ofBits]
  exact ⟨fun n => toInteger_ok_iff, toInteger_overflow_iff, fun cause => toInteger_mismatch_iff⟩

-- The largest number below 2^63, then 2^63 itself.
example : (ofBits 0x43DFFFFFFFFFFFFF).toInteger = .ok ⟨2 ^ 63 - 2 ^ 10, by decide⟩ ∧
    (ofBits 0x43E0000000000000).toInteger = .error .overflow := by decide +kernel

end Pseudocode.Binary64
