import Mathlib
import Pseudocode.Proofs.Division
import Pseudocode.Proofs.Nearest

/-!
An integer that is made a real number and an integer again. The real number is the nearest one, and
among the integers it is the closest that has at most 53 significant bits: the real numbers between
them that are not whole play no part. So the way back never meets a fraction; all that can happen is
that the closest integer is 2^63, one too many.
-/

namespace Pseudocode

namespace Binary64

/-- No integer with at most 53 significant bits is closer to `n`, and none is as close unless the
significand is even. -/
structure ClosestWhole (n m : ℤ) : Prop where
  short : Short m.natAbs
  least : ∀ other : ℤ, Short other.natAbs → |n - m| ≤ |n - other|
  even : ∀ other : ℤ, Short other.natAbs → other ≠ m → |n - m| = |n - other| →
    ∃ significand shift, Normal m.natAbs significand shift ∧ Even significand

theorem short_zero : Short 0 := ⟨0, 0, by decide, rfl⟩

theorem ClosestWhole.neg {n m : ℤ} (closest : ClosestWhole n m) : ClosestWhole (-n) (-m) := by
  have mirrored (other : ℤ) : |-n - other| = |n - -other| := by
    rw [← abs_neg, neg_sub, sub_neg_eq_add, sub_neg_eq_add, add_comm]
  refine ⟨by rw [Int.natAbs_neg]; exact closest.short, ?_, ?_⟩
  · intro other short
    rw [mirrored, mirrored, neg_neg]
    exact closest.least (-other) (by rwa [Int.natAbs_neg])
  · intro other short different tie
    rw [mirrored, mirrored, neg_neg] at tie
    rw [Int.natAbs_neg]
    exact closest.even (-other) (by rwa [Int.natAbs_neg]) (by omega) tie

section Natural

variable (n : Nat)

/-- Nothing below zero is as close to a natural number as zero is. -/
theorem farther_below_zero {other : ℤ} (below : other < 0) :
    |(n : ℤ) - (0 : Nat)| < |(n : ℤ) - other| := by
  rw [abs_of_nonneg (by omega), abs_of_nonneg (by omega)]
  omega

theorem ClosestWhole.nonneg {m : ℤ} (closest : ClosestWhole n m) : 0 ≤ m := by
  by_contra below
  have nearer := closest.least (0 : Nat) short_zero
  exact absurd nearer (not_le.2 (farther_below_zero n (not_le.1 below)))

theorem distance_cast (k : Nat) : |(n : ℚ) - k| = (|(n : ℤ) - k| : ℤ) := by
  push_cast
  rfl

theorem closestWhole_natCast_iff (k : Nat) : ClosestWhole n k ↔ Closest (n : ℚ) k := by
  constructor
  · intro closest
    refine ⟨closest.short, ?_, ?_⟩
    · intro other short
      rw [distance_cast, distance_cast]
      exact_mod_cast closest.least other short
    · intro other short different tie
      rw [distance_cast, distance_cast] at tie
      exact closest.even other short (by exact_mod_cast different) (by exact_mod_cast tie)
  · intro closest
    have least (other : Nat) (short : Short other) : |(n : ℤ) - k| ≤ |(n : ℤ) - other| := by
      have nearer := closest.least other short
      rw [distance_cast, distance_cast] at nearer
      exact_mod_cast nearer
    refine ⟨closest.short, ?_, ?_⟩
    · intro other short
      by_cases below : other < 0
      · exact (least 0 short_zero).trans (farther_below_zero n below).le
      · lift other to Nat using not_lt.1 below
        exact least other short
    · intro other short different tie
      by_cases below : other < 0
      · exact absurd tie (ne_of_lt ((least 0 short_zero).trans_lt (farther_below_zero n below)))
      · lift other to Nat using not_lt.1 below
        refine closest.even other short (by exact_mod_cast different) ?_
        rw [distance_cast, distance_cast]
        exact_mod_cast tie

theorem closestWhole_natural_iff (m : ℤ) : ClosestWhole n m ↔ m = roundWhole n := by
  have rounded (k : Nat) : ClosestWhole n k ↔ k = roundWhole n := by
    have closest : Closest ((n : ℚ) / (1 : Nat)) k ↔ k = roundUnits n 1 := closest_iff n one_pos
    rw [Nat.cast_one, div_one] at closest
    rw [closestWhole_natCast_iff, closest]
    rfl
  constructor
  · intro closest
    lift m to Nat using closest.nonneg
    exact_mod_cast (rounded m).1 closest
  · rintro rfl
    exact (rounded _).2 rfl

end Natural

theorem signed_decide (n : ℤ) (count : Nat) :
    signed (decide (n < 0)) count = if n < 0 then -(count : ℤ) else count := by
  simp only [signed, decide_eq_true_eq]

/-- The closest integer: there is one, it is the only one, and rounding finds it. -/
theorem closestWhole_iff (n m : ℤ) :
    ClosestWhole n m ↔ m = signed (decide (n < 0)) (roundWhole n.natAbs) := by
  rw [signed_decide]
  split
  · have mirrored := closestWhole_natural_iff n.natAbs (-m)
    have same : (n.natAbs : ℤ) = -n := by omega
    rw [same] at mirrored
    constructor
    · intro closest
      have negated := mirrored.1 closest.neg
      omega
    · intro rounded
      have closest := (mirrored.2 (by omega)).neg
      rwa [neg_neg, neg_neg] at closest
  · have natural := closestWhole_natural_iff n.natAbs m
    have same : (n.natAbs : ℤ) = n := by omega
    rwa [same] at natural

theorem closestWhole_self {n : ℤ} (small : n.natAbs ≤ 2 ^ (53 : Nat)) : ClosestWhole n n := by
  rw [closestWhole_iff, roundWhole_small small, signed_decide]
  split <;> omega

theorem rational?_ofInt (n : Integer) {m : ℤ} (closest : ClosestWhole n.val m) :
    (Number.real (ofInt n.val)).rational? = some (m : ℚ) := by
  obtain ⟨fits, shape⟩ := ofInt_eq n
  rw [shape, Number.rational?, signed_mul, (closestWhole_iff n.val m).1 closest]
  exact congrArg some ((quotient_whole_iff unitsPerOne_pos _ _).2 rfl)

theorem closestWhole_bound (n : Integer) {m : ℤ} (closest : ClosestWhole n.val m) :
    -2 ^ 63 ≤ m := by
  have bound := roundWhole_le (natAbs_le n)
  rw [(closestWhole_iff n.val m).1 closest, signed]
  split <;> omega

end Binary64

theorem Value.coerce_real (x : Binary64) (name : Text) :
    (Value.real x).coerce .integer name = x.toInteger.map Value.integer := by
  change (x.toInteger.map Number.integer).map Value.number = _
  cases x.toInteger <;> rfl

/-- An integer assigned to a real variable, and the value of that one to an integer variable. -/
def Integer.throughReal (n : Integer) (real whole : Text) : Except Fault Value :=
  (Value.integer n).coerce .real real >>= fun value => value.coerce .integer whole

namespace Integer

variable (n : Integer) (real whole : Text)

theorem throughReal_eq : n.throughReal real whole =
    (Binary64.ofInt n.val).toInteger.map Value.integer := by
  have widened : (Value.integer n).coerce .real real = .ok (.real (.ofInt n.val)) := rfl
  rw [throughReal, widened, ok_bind, Value.coerce_real]

theorem throughReal_of_small {m : ℤ} (closest : Binary64.ClosestWhole n.val m)
    (small : m < 2 ^ 63) :
    ∃ k : Integer, k.val = m ∧ n.throughReal real whole = .ok (.integer k) := by
  have converted : (Binary64.ofInt n.val).toInteger =
      .ok ⟨m, Binary64.closestWhole_bound n closest, small⟩ :=
    Binary64.toInteger_ok_iff.2 (Binary64.rational?_ofInt n closest)
  refine ⟨⟨m, Binary64.closestWhole_bound n closest, small⟩, rfl, ?_⟩
  rw [throughReal_eq, converted]
  rfl

theorem throughReal_of_large {m : ℤ} (closest : Binary64.ClosestWhole n.val m)
    (large : 2 ^ 63 ≤ m) : n.throughReal real whole = .error .overflow := by
  have converted : (Binary64.ofInt n.val).toInteger = .error .overflow := by
    refine Binary64.toInteger_overflow_iff.2 ⟨m, Binary64.rational?_ofInt n closest, .inr ?_⟩
    exact_mod_cast large
  rw [throughReal_eq, converted]
  rfl

/-- An integer that is made a real number comes back as the closest integer with at most 53
significant bits, ties going to the even one. That integer is an overflow if it is 2^63, and it is
the integer itself up to 2^53. There is always an integer to go back to, never a fraction. -/
theorem throughReal_closest :
    (∃! m : ℤ, Binary64.ClosestWhole n.val m) ∧
    (∀ m : ℤ, Binary64.ClosestWhole n.val m →
      (m < 2 ^ 63 → ∃ k : Integer, k.val = m ∧ n.throughReal real whole = .ok (.integer k)) ∧
      (2 ^ 63 ≤ m → n.throughReal real whole = .error .overflow)) ∧
    (|n.val| ≤ 2 ^ 53 → n.throughReal real whole = .ok (.integer n)) ∧
    ∀ cause, n.throughReal real whole ≠ .error (.mismatch cause) := by
  have rounded := Binary64.closestWhole_iff n.val
  have one : ∃! m : ℤ, Binary64.ClosestWhole n.val m :=
    ⟨_, (rounded _).2 rfl, fun m => (rounded m).1⟩
  refine ⟨one, ?_, ?_, ?_⟩
  · intro m closest
    exact ⟨n.throughReal_of_small real whole closest, n.throughReal_of_large real whole closest⟩
  · intro small
    have range := abs_le.1 small
    have exactly : Binary64.ClosestWhole n.val n.val := Binary64.closestWhole_self (by omega)
    obtain ⟨k, same, back⟩ := n.throughReal_of_small real whole exactly n.inRange.2
    rw [back, Integer.ext same]
  · intro cause failed
    obtain ⟨m, closest, _⟩ := one
    rcases lt_or_ge m (2 ^ 63) with small | large
    · obtain ⟨k, _, back⟩ := n.throughReal_of_small real whole closest small
      rw [back] at failed
      cases failed
    · rw [n.throughReal_of_large real whole closest large] at failed
      cases failed

-- 2^53 + 1 lies in the middle between 2^53 and 2^53 + 2.
def between : Integer := ⟨2 ^ (53 : Nat) + 1, by decide⟩

theorem between_and_highest_through_real :
    Binary64.ClosestWhole between.val (2 ^ 53) ∧
    (∃ k : Integer, k.val = 2 ^ 53 ∧ between.throughReal ['r'] ['n'] = .ok (.integer k)) ∧
    Binary64.ClosestWhole highest.val (2 ^ 63) ∧
    highest.throughReal ['r'] ['n'] = .error .overflow := by
  have even : Binary64.ClosestWhole between.val (2 ^ 53) :=
    (Binary64.closestWhole_iff _ _).2 (by decide +kernel)
  have above : Binary64.ClosestWhole highest.val (2 ^ 63) :=
    (Binary64.closestWhole_iff _ _).2 (by decide +kernel)
  exact ⟨even, ((between.throughReal_closest _ _).2.1 _ even).1 (by decide), above,
    ((highest.throughReal_closest _ _).2.1 _ above).2 (by decide)⟩

end Integer

end Pseudocode
