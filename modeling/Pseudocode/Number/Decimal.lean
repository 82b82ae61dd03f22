import Pseudocode.Number.Binary64

/-!
Decimal numbers and their passage to and from binary ones.

Reading takes the binary number nearest to `digits * 10 ^ exponent`. Writing goes
the other way: the decimal with the fewest digits that reads back as the same
number. A unit is a negative power of two, so every finite number has an exact
decimal expansion; the search cuts it after one digit, two digits and so on, tries
the two decimals on either side of the cut, and stops at the first that reads back.
The whole expansion always does.
-/

namespace Pseudocode

structure Decimal where
  digits : Nat
  exponent : Int
  deriving DecidableEq

namespace Decimal

def toBinary64 (decimal : Decimal) : Binary64 :=
  if decimal.digits = 0 then .zero false
  -- So far out, the power of ten need not be computed.
  else if 400 < decimal.exponent then .infinite false
  else if decimal.exponent * 3 + decimal.digits.log2 + 1077 ≤ 0 then .zero false
  else if 0 ≤ decimal.exponent then
    .nearest false (decimal.digits * 10 ^ decimal.exponent.toNat * unitsPerOne) 1
  else .nearest false (decimal.digits * unitsPerOne) (10 ^ (-decimal.exponent).toNat)

def exact (units : Nat) : Decimal := ⟨units * 5 ^ unitBits, -unitBits⟩

/-- A decimal cut so that its last `dropped` digits are zero, once rounded down and once
rounded up, the nearer first; of two equally near ones the larger comes first. -/
def cutAt (decimal : Decimal) (dropped : Nat) : List Decimal :=
  let grid := 10 ^ dropped
  let lower := ⟨decimal.digits / grid, decimal.exponent + dropped⟩
  let upper := ⟨decimal.digits / grid + 1, decimal.exponent + dropped⟩
  if 2 * (decimal.digits % grid) < grid then [lower, upper] else [upper, lower]

/-- The coarsest cut that `target` accepts, dropping at most `dropped` digits. -/
def shortestCut (decimal : Decimal) (target : Decimal → Bool) : (dropped : Nat) → Decimal
  | 0 => decimal
  | dropped + 1 =>
      match (decimal.cutAt dropped).find? target with
      | some found => found
      | none => decimal.shortestCut target dropped

/-- The decimal with the fewest digits that reads back as this many units. -/
def shortest (units : Nat) (fits : Representable units) : Decimal :=
  let whole := exact units
  whole.shortestCut (fun decimal => decimal.toBinary64 = .finite false units fits)
    (Text.ofNat whole.digits).length

theorem shortestCut_eq_or_accepted {decimal : Decimal} {target : Decimal → Bool} (dropped : Nat) :
    decimal.shortestCut target dropped = decimal ∨
      target (decimal.shortestCut target dropped) = true := by
  induction dropped with
  | zero => exact .inl rfl
  | succ dropped ih =>
      simp only [shortestCut]
      cases found : (decimal.cutAt dropped).find? target with
      | some cut => exact .inr (List.find?_some found)
      | none => exact ih

/-- Decimal digits with the exponent of the first one, the form that is written out. -/
structure Expansion where
  digits : Text
  lead : Int

def expansion (decimal : Decimal) : Expansion :=
  let digits := Text.ofNat decimal.digits
  ⟨Text.trimTail (· = '0') digits, decimal.exponent + digits.length - 1⟩

/-- Positional form, with at least one digit on either side of the point. -/
def Expansion.positional (expansion : Expansion) : Text :=
  if expansion.lead < 0 then
    ['0', '.'] ++ List.replicate (-expansion.lead - 1).toNat '0' ++ expansion.digits
  else
    let count := expansion.lead.toNat + 1
    let whole := expansion.digits.take count
    let fraction := expansion.digits.drop count
    whole ++ List.replicate (count - whole.length) '0' ++ ['.'] ++
      if fraction.isEmpty then ['0'] else fraction

/-- One digit, the others after a point, and the exponent. -/
def Expansion.scientific (expansion : Expansion) : Text :=
  let others := expansion.digits.drop 1
  expansion.digits.take 1 ++ (if others.isEmpty then [] else '.' :: others) ++ ['e'] ++
    (if expansion.lead < 0 then ['-'] else []) ++ Text.ofNat expansion.lead.natAbs

end Decimal

namespace Binary64

structure Layout where
  positional : Int → Bool

def Layout.magnitude (layout : Layout) (units : Nat) (fits : Representable units) : Text :=
  if units = 0 then ['0', '.', '0']
  else
    let expansion := (Decimal.shortest units fits).expansion
    if layout.positional expansion.lead then expansion.positional else expansion.scientific

def withSign (negative : Bool) (text : Text) : Text := if negative then '-' :: text else text

def infinityText (negative : Bool) : Text := withSign negative ['i', 'n', 'f']

def nanText : Text := ['N', 'a', 'N']

def Layout.text (layout : Layout) : Binary64 → Text
  | .finite negative units fits => withSign negative (layout.magnitude units fits)
  | .infinite negative => infinityText negative
  | .nan => nanText

/-- Printed numbers never take an exponent. -/
def printed : Layout := ⟨fun _ => true⟩

/-- Inside messages, numbers take an exponent below 10^-4 and from 10^16 on. -/
def quoted : Layout := ⟨fun lead => -5 < lead && lead < 16⟩

/-- The text of a number as programs print it: a whole number has all its digits and
one zero after the point, any other the fewest digits that read back. -/
def text : Binary64 → Text
  | .finite negative units fits =>
      if units % unitsPerOne = 0 then
        withSign negative (Text.ofNat (units / unitsPerOne) ++ ['.', '0'])
      else withSign negative (printed.magnitude units fits)
  | .infinite negative => infinityText negative
  | .nan => nanText

def quotedText : Binary64 → Text := quoted.text

end Binary64

end Pseudocode
