import Pseudocode.Number.Decimal

/-!
Numerals: digits, an optional fraction and an optional exponent. Without fraction
and exponent a numeral is an integer, with either it is a real number. A point has
to be followed by a digit, and so has an exponent mark with its sign; where it is
not, the numeral ends before it.
-/

namespace Pseudocode

inductive Number where
  | integer (value : Integer)
  | real (value : Binary64)
  deriving DecidableEq

def Number.toReal : Number → Binary64
  | .integer n => .ofInt n.val
  | .real x => x

structure Exponent where
  mark : Char
  sign : Text
  digits : Text

namespace Exponent

def spelling (exponent : Exponent) : Text := exponent.mark :: exponent.sign ++ exponent.digits

def value (exponent : Exponent) : Int :=
  if exponent.sign = ['-'] then -(Text.digitsValue exponent.digits)
  else Text.digitsValue exponent.digits

def splitSign : Text → Text × Text
  | '+' :: rest => (['+'], rest)
  | '-' :: rest => (['-'], rest)
  | rest => ([], rest)

def scan : Text → Option (Exponent × Text)
  | [] => none
  | mark :: rest =>
      let (sign, unsigned) := splitSign rest
      let digits := unsigned.takeWhile Char.isDigit
      if (mark = 'e' || mark = 'E') && !digits.isEmpty then
        some (⟨mark, sign, digits⟩, unsigned.dropWhile Char.isDigit)
      else none

theorem splitSign_append (text : Text) : (splitSign text).1 ++ (splitSign text).2 = text := by
  unfold splitSign
  split <;> simp

theorem scan_spelling {text rest : Text} {exponent : Exponent}
    (found : scan text = some (exponent, rest)) : exponent.spelling ++ rest = text := by
  cases text with
  | nil => simp [scan] at found
  | cons mark tail =>
      simp only [scan] at found
      split at found
      · cases found
        have whole := splitSign_append tail
        simp [spelling, List.takeWhile_append_dropWhile, whole]
      · contradiction

end Exponent

structure Numeral where
  whole : Text
  fraction : Option Text
  exponent : Option Exponent

namespace Numeral

def fractionSpelling : Option Text → Text
  | none => []
  | some digits => '.' :: digits

def exponentSpelling : Option Exponent → Text
  | none => []
  | some exponent => exponent.spelling

def spelling (numeral : Numeral) : Text :=
  numeral.whole ++ fractionSpelling numeral.fraction ++ exponentSpelling numeral.exponent

def scanFraction : Text → Option Text × Text
  | '.' :: rest =>
      let digits := rest.takeWhile Char.isDigit
      if digits.isEmpty then (none, '.' :: rest) else (some digits, rest.dropWhile Char.isDigit)
  | text => (none, text)

def scanExponent (text : Text) : Option Exponent × Text :=
  match Exponent.scan text with
  | some (exponent, rest) => (some exponent, rest)
  | none => (none, text)

/-- The longest numeral at the head of the text, and what follows it. -/
def scan (text : Text) : Option (Numeral × Text) :=
  let whole := text.takeWhile Char.isDigit
  let (fraction, afterFraction) := scanFraction (text.dropWhile Char.isDigit)
  if whole.isEmpty && fraction.isNone then none
  else
    let (exponent, rest) := scanExponent afterFraction
    some (⟨whole, fraction, exponent⟩, rest)

/-- The number meant, unless it is too large for its type. -/
def value? (numeral : Numeral) : Option Number :=
  match numeral.fraction, numeral.exponent with
  | none, none => (Integer.ofInt? (Text.digitsValue numeral.whole)).map .integer
  | fraction, exponent =>
      let places := fraction.getD []
      let scale := (exponent.map Exponent.value).getD 0
      let decimal : Decimal :=
        ⟨Text.digitsValue (numeral.whole ++ places), scale - places.length⟩
      if decimal.toBinary64.isFinite then some (.real decimal.toBinary64) else none

theorem scanFraction_spelling (text : Text) :
    fractionSpelling (scanFraction text).1 ++ (scanFraction text).2 = text := by
  unfold scanFraction
  split
  · dsimp only
    split <;> simp [fractionSpelling, List.takeWhile_append_dropWhile]
  · simp [fractionSpelling]

theorem scanExponent_spelling (text : Text) :
    exponentSpelling (scanExponent text).1 ++ (scanExponent text).2 = text := by
  unfold scanExponent
  cases found : Exponent.scan text with
  | some scanned => simpa [exponentSpelling] using Exponent.scan_spelling found
  | none => simp [exponentSpelling]

theorem scan_spelling {text rest : Text} {numeral : Numeral}
    (found : scan text = some (numeral, rest)) : numeral.spelling ++ rest = text := by
  simp only [scan] at found
  split at found
  · contradiction
  · cases found
    simp [spelling, scanExponent_spelling, scanFraction_spelling,
      List.takeWhile_append_dropWhile]

theorem scan_nonempty {text rest : Text} {numeral : Numeral}
    (found : scan text = some (numeral, rest)) : numeral.spelling ≠ [] := by
  simp only [scan] at found
  by_cases blank : ((text.takeWhile Char.isDigit).isEmpty &&
      (scanFraction (text.dropWhile Char.isDigit)).1.isNone) = true
  · rw [if_pos blank] at found
    contradiction
  · rw [if_neg blank] at found
    cases found
    intro empty
    simp only [spelling, List.append_eq_nil_iff] at empty
    apply blank
    cases shape : (scanFraction (text.dropWhile Char.isDigit)).1 with
    | none => simp [empty.1.1]
    | some digits => simp [shape, fractionSpelling] at empty

end Numeral

-- Only these separate the tokens of an expression; a line feed or a no-break space does not.
def isSpace (c : Char) : Bool := c = ' ' || c = '\t' || c = '\x0c'

/-- Reads a real number: an optional sign, a numeral, then nothing but spaces. -/
def Binary64.read? (text : Text) : Option Binary64 :=
  let (negative, unsigned) := Integer.splitSign text
  match Numeral.scan unsigned with
  | none => none
  | some (numeral, rest) =>
      if rest.all isSpace then
        numeral.value?.map fun number => if negative then number.toReal.neg else number.toReal
      else none

end Pseudocode
