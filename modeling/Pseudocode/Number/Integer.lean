import Pseudocode.Text.Basic

/-!
Integers of the language: whole numbers that fit in 64 bits with a sign. An
operation computes the exact whole number and refuses one that does not fit, so
no result ever wraps around.
-/

namespace Pseudocode

-- Powers are the built-in ones, also where a library with a more general power is open.
attribute [instance (high)] instPowNat

structure Integer where
  val : Int
  inRange : -2 ^ (63 : Nat) ≤ val ∧ val < 2 ^ (63 : Nat)
  deriving DecidableEq

namespace Integer

@[ext]
theorem ext {a b : Integer} (same : a.val = b.val) : a = b := by
  cases a; cases b; simp_all

def lowest : Integer := ⟨-2 ^ (63 : Nat), by decide⟩

def highest : Integer := ⟨2 ^ (63 : Nat) - 1, by decide⟩

def ofInt? (n : Int) : Option Integer :=
  if fits : -2 ^ (63 : Nat) ≤ n ∧ n < 2 ^ (63 : Nat) then some ⟨n, fits⟩ else none

theorem ofInt?_eq_some {n : Int} {a : Integer} : ofInt? n = some a ↔ a.val = n := by
  unfold ofInt?
  by_cases fits : -2 ^ (63 : Nat) ≤ n ∧ n < 2 ^ (63 : Nat)
  · rw [dif_pos fits]
    constructor
    · intro found
      cases found
      rfl
    · intro same
      simp [Integer.ext_iff, same]
  · rw [dif_neg fits]
    constructor
    · intro found
      contradiction
    · intro same
      exact absurd (same ▸ a.inRange) fits

@[simp]
theorem ofInt?_val (a : Integer) : ofInt? a.val = some a := ofInt?_eq_some.2 rfl

/-- The integer closest to a whole number. -/
def clamp (n : Int) : Integer where
  val := max lowest.val (min n highest.val)
  inRange := by
    have low := lowest.inRange
    have high := highest.inRange
    omega

theorem clamp_val (a : Integer) : clamp a.val = a := by
  have range := a.inRange
  ext
  simp only [clamp, lowest, highest]
  omega

def add? (a b : Integer) : Option Integer := ofInt? (a.val + b.val)

def sub? (a b : Integer) : Option Integer := ofInt? (a.val - b.val)

def mul? (a b : Integer) : Option Integer := ofInt? (a.val * b.val)

def neg? (a : Integer) : Option Integer := ofInt? (-a.val)

/-- The quotient of a division without remainder. -/
def div? (a b : Integer) : Option Integer := ofInt? (a.val.tdiv b.val)

/-- Splits off a leading sign; `true` stands for minus. -/
def splitSign : Text → Bool × Text
  | '-' :: rest => (true, rest)
  | '+' :: rest => (false, rest)
  | text => (false, text)

/-- Reads an optional sign and one or more decimal digits. -/
def read? (text : Text) : Option Integer :=
  let (negative, digits) := splitSign text
  if digits.isEmpty || !digits.all Char.isDigit then none
  else
    let magnitude : Int := Text.digitsValue digits
    ofInt? (if negative then -magnitude else magnitude)

def text (a : Integer) : Text :=
  if a.val < 0 then '-' :: Text.ofNat a.val.natAbs else Text.ofNat a.val.natAbs

end Integer

end Pseudocode
