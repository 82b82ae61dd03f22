import Pseudocode.Number.Integer

/-!
Real numbers of the language: binary floating point in 64 bits, computed exactly
and rounded once.

Every finite number of the format is a whole number of units of 2^-1074, its
smallest positive number, so a finite number is a sign and a count of units. The
counts that occur are those below 2^2098 with at most 53 significant bits. An
operation gives the exact result as a fraction of such units, and `nearest` picks
the representable count closest to it; of two equally close ones it takes the one
whose significand is even. What rounds to 2^1024 or more becomes infinite.
-/

namespace Pseudocode

/-- A unit is two to the power of minus this. -/
def unitBits : Nat := 1074

/-- A count of units has at most this many bits. -/
def limitBits : Nat := 2098

/-- How many units make up the number one. -/
def unitsPerOne : Nat := 2 ^ unitBits

/-- The first count of units that is too large; as a number it is 2^1024. -/
def unitLimit : Nat := 2 ^ limitBits

/-- The counts of units that the format can hold. -/
def Representable (units : Nat) : Prop :=
  units < unitLimit ∧
    ∃ significand shift : Nat, significand < 2 ^ (53 : Nat) ∧ units = significand * 2 ^ shift

inductive Binary64 where
  | finite (negative : Bool) (units : Nat) (fits : Representable units)
  | infinite (negative : Bool)
  | nan
  deriving DecidableEq

namespace Binary64

section Rounding

/-- The quotient rounded to a whole number, a half going to the even neighbour. -/
def divEven (dividend divisor : Nat) : Nat :=
  let floor := dividend / divisor
  let twice := 2 * (dividend % divisor)
  if twice < divisor || (twice = divisor && floor % 2 = 0) then floor else floor + 1

/-- How many low bits a magnitude with this whole part gives up to keep 53. -/
def droppedBits (whole : Nat) : Nat := whole.log2 - 52

/-- The magnitude closest to the fraction that has at most 53 significant bits. -/
def roundUnits (dividend divisor : Nat) : Nat :=
  let dropped := droppedBits (dividend / divisor)
  divEven dividend (divisor * 2 ^ dropped) * 2 ^ dropped

theorem divEven_le (dividend divisor : Nat) :
    divEven dividend divisor ≤ dividend / divisor + 1 := by
  simp only [divEven]
  split <;> omega

theorem lt_two_pow_droppedBits (whole : Nat) : whole < 2 ^ (53 : Nat) * 2 ^ droppedBits whole := by
  have below : whole < 2 ^ (whole.log2 + 1) := Nat.lt_log2_self
  have wide : 2 ^ (whole.log2 + 1) ≤ 2 ^ (53 + droppedBits whole) :=
    Nat.pow_le_pow_right (by decide) (by unfold droppedBits; omega)
  rw [← Nat.pow_add]
  exact Nat.lt_of_lt_of_le below wide

theorem roundUnits_significand_le (dividend divisor : Nat) :
    divEven dividend (divisor * 2 ^ droppedBits (dividend / divisor)) ≤ 2 ^ (53 : Nat) := by
  refine Nat.le_trans (divEven_le _ _) ?_
  rw [← Nat.div_div_eq_div_mul]
  exact Nat.div_lt_of_lt_mul (by rw [Nat.mul_comm]; exact lt_two_pow_droppedBits _)

theorem roundUnits_representable {dividend divisor : Nat}
    (below : roundUnits dividend divisor < unitLimit) :
    Representable (roundUnits dividend divisor) := by
  refine ⟨below, ?_⟩
  have bound := roundUnits_significand_le dividend divisor
  by_cases full : divEven dividend (divisor * 2 ^ droppedBits (dividend / divisor)) = 2 ^ (53 : Nat)
  · refine ⟨2 ^ (52 : Nat), droppedBits (dividend / divisor) + 1, by decide, ?_⟩
    simp only [roundUnits, full]
    rw [Nat.pow_succ 2 (droppedBits _)]
    omega
  · exact ⟨_, _, by omega, rfl⟩

theorem representable_zero : Representable 0 :=
  ⟨Nat.two_pow_pos limitBits, 0, 0, by decide, rfl⟩

def zero (negative : Bool) : Binary64 := .finite negative 0 representable_zero

def nearest (negative : Bool) (dividend divisor : Nat) : Binary64 :=
  if below : roundUnits dividend divisor < unitLimit then
    .finite negative (roundUnits dividend divisor) (roundUnits_representable below)
  else .infinite negative

end Rounding

section BitPatterns

theorem representable_ofFields (exponent fraction : Nat)
    (small : fraction < 2 ^ (52 : Nat)) (finite : exponent < 2046) :
    Representable ((2 ^ (52 : Nat) + fraction) * 2 ^ exponent) := by
  refine ⟨?_, 2 ^ (52 : Nat) + fraction, exponent, by omega, rfl⟩
  have width : (2 ^ (52 : Nat) + fraction) * 2 ^ exponent < 2 ^ (53 : Nat) * 2 ^ exponent :=
    Nat.mul_lt_mul_of_pos_right (by omega) (Nat.two_pow_pos _)
  have scale : 2 ^ (53 : Nat) * 2 ^ exponent ≤ unitLimit := by
    rw [← Nat.pow_add, unitLimit]
    exact Nat.pow_le_pow_right (by decide) (by unfold limitBits; omega)
  exact Nat.lt_of_lt_of_le width scale

theorem representable_of_lt {units : Nat} (small : units < 2 ^ (52 : Nat)) :
    Representable units := by
  refine ⟨Nat.lt_trans small ?_, units, 0, by omega, by simp⟩
  exact Nat.pow_lt_pow_right (by decide) (by decide)

/-- The number with this pattern: a sign bit, eleven exponent bits, fifty-two fraction bits. -/
def ofBits (bits : UInt64) : Binary64 :=
  let negative := decide (2 ^ (63 : Nat) ≤ bits.toNat)
  let exponent := bits.toNat / 2 ^ (52 : Nat) % 2 ^ (11 : Nat)
  let fraction := bits.toNat % 2 ^ (52 : Nat)
  have small : fraction < 2 ^ (52 : Nat) := Nat.mod_lt _ (by decide)
  if subnormal : exponent = 0 then .finite negative fraction (representable_of_lt small)
  else if ordinary : exponent < 2047 then
    .finite negative ((2 ^ (52 : Nat) + fraction) * 2 ^ (exponent - 1))
      (representable_ofFields (exponent - 1) fraction small (by omega))
  else if fraction = 0 then .infinite negative
  else .nan

def signBit (negative : Bool) : Nat := if negative then 2 ^ (63 : Nat) else 0

/-- The bits of a number; the one pattern given for all that is not a number is the
quiet one without payload. -/
def toBits : Binary64 → UInt64
  | .finite negative units _ =>
      let dropped := droppedBits units
      UInt64.ofNat (signBit negative + (dropped * 2 ^ (52 : Nat) + units / 2 ^ dropped))
  | .infinite negative => UInt64.ofNat (signBit negative + 2047 * 2 ^ (52 : Nat))
  | .nan => UInt64.ofNat (2047 * 2 ^ (52 : Nat) + 2 ^ (51 : Nat))

end BitPatterns

section Arithmetic

def neg : Binary64 → Binary64
  | .finite negative units fits => .finite (!negative) units fits
  | .infinite negative => .infinite (!negative)
  | .nan => .nan

def signed (negative : Bool) (units : Nat) : Int := if negative then -units else units

/-- A sum that cancels is positive, unless both terms are negative zeros. -/
def add : Binary64 → Binary64 → Binary64
  | .finite s a _, .finite t b _ =>
      let sum := signed s a + signed t b
      if sum = 0 then zero (s && t) else nearest (decide (sum < 0)) sum.natAbs 1
  | .infinite s, .infinite t => if s = t then .infinite s else .nan
  | .infinite s, .finite .. => .infinite s
  | .finite .., .infinite t => .infinite t
  | .nan, _ => .nan
  | _, .nan => .nan

def sub (x y : Binary64) : Binary64 := add x (neg y)

def mul : Binary64 → Binary64 → Binary64
  | .finite s a _, .finite t b _ => nearest (s != t) (a * b) unitsPerOne
  | .infinite s, .infinite t => .infinite (s != t)
  | .infinite s, .finite t b _ => if b = 0 then .nan else .infinite (s != t)
  | .finite s a _, .infinite t => if a = 0 then .nan else .infinite (s != t)
  | .nan, _ => .nan
  | _, .nan => .nan

def div : Binary64 → Binary64 → Binary64
  | .finite s a _, .finite t b _ =>
      if b = 0 then if a = 0 then .nan else .infinite (s != t)
      else nearest (s != t) (a * unitsPerOne) b
  | .infinite _, .infinite _ => .nan
  | .infinite s, .finite t _ _ => .infinite (s != t)
  | .finite s _ _, .infinite t => zero (s != t)
  | .nan, _ => .nan
  | _, .nan => .nan

def isFinite : Binary64 → Bool
  | .finite .. => true
  | _ => false

/-- Both zeros count as zero. -/
def isZero : Binary64 → Bool
  | .finite _ units _ => units = 0
  | _ => false

def isWhole : Binary64 → Bool
  | .finite _ units _ => units % unitsPerOne = 0
  | _ => false

def ofInt (n : Int) : Binary64 := nearest (decide (n < 0)) (n.natAbs * unitsPerOne) 1

/-- The order of the numbers, in which the two zeros are equal; what is not a number has no
place in it. -/
def le : Binary64 → Binary64 → Bool
  | .finite s a _, .finite t b _ => signed s a ≤ signed t b
  | .infinite s, .infinite t => s || !t
  | .infinite s, .finite .. => s
  | .finite .., .infinite t => !t
  | .nan, _ => false
  | _, .nan => false

def lt (x y : Binary64) : Bool := x.le y && !y.le x

/-- The whole part, or the integer closest to it; zero for what is not a number. -/
def wholePart : Binary64 → Integer
  | .finite negative units _ => .clamp (signed negative (units / unitsPerOne))
  | .infinite negative => if negative then .lowest else .highest
  | .nan => .clamp 0

end Arithmetic

end Binary64

end Pseudocode
