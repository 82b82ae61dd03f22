import Mathlib
import Pseudocode.Proofs.Numerals

/-!
The tokens of an expression as patterns. Every kind of token has a regular expression for its
texts: real numbers have three, integers, names and each symbol have one. A text that matches a
pattern has a value, and the value decides whether there is a token for it.

The regular expressions say nothing of how a text is scanned. They are tied to the scanner of
numerals by their members: the texts of the four patterns of numbers are the spellings of the
numerals with the parts that the pattern asks for.
-/

namespace Pseudocode

open RegularExpression

namespace Text

/-- The characters from one to another, both included. -/
def between (first last : Char) : Text :=
  (List.range' first.toNat (last.toNat + 1 - first.toNat)).map Char.ofNat

-- Above the bound there are codes that belong to no character.
theorem mem_between {first last : Char} (low : last.toNat < 0xD800) (c : Char) :
    c ∈ between first last ↔ first.toNat ≤ c.toNat ∧ c.toNat ≤ last.toNat := by
  simp only [between, List.mem_map, List.mem_range'_1]
  constructor
  · rintro ⟨n, ⟨lower, upper⟩, rfl⟩
    have valid : n.isValidChar := .inl (by omega)
    rw [Char.toNat_ofNat, if_pos valid]
    omega
  · rintro ⟨lower, upper⟩
    exact ⟨c.toNat, by omega, Char.ofNat_toNat c⟩

def digitChars : Text := between '0' '9'

def letterChars : Text := between 'a' 'z' ++ between 'A' 'Z' ++ ['_']

def spaceChars : Text := [' ', '\t', '\x0c']

/-- What may stand between two tokens. -/
def IsSpaces (text : Text) : Prop := ∀ c ∈ text, c ∈ spaceChars

theorem mem_spaceChars (c : Char) : c ∈ spaceChars ↔ isSpace c = true := by
  simp [spaceChars, isSpace, or_assoc]

theorem mem_digitChars (c : Char) : c ∈ digitChars ↔ c.isDigit = true := by
  rw [digitChars, mem_between (by decide), Char.isDigit_iff_toNat]

theorem mem_letterChars (c : Char) : c ∈ letterChars ↔ isLetter c = true := by
  have letters : c.isAlpha = (decide ('A'.val ≤ c.val ∧ c.val ≤ 'Z'.val) ||
      (decide ('a'.val ≤ c.val) && decide (c.val ≤ 'z'.val))) := rfl
  have same : c.val.toNat = c.toNat := rfl
  simp only [letterChars, List.mem_append, mem_between (show 'z'.toNat < 0xD800 by decide),
    mem_between (show 'Z'.toNat < 0xD800 by decide), List.mem_singleton, isLetter, letters,
    Bool.or_eq_true, Bool.and_eq_true, decide_eq_true_eq, UInt32.le_iff_toNat_le, same]
  exact or_congr_left or_comm

theorem mem_nameChars (c : Char) : c ∈ letterChars ++ digitChars ↔ isNameChar c = true := by
  rw [List.mem_append, mem_letterChars, mem_digitChars, isLetter, isNameChar, Char.isAlphanum,
    Bool.or_eq_true, Bool.or_eq_true, Bool.or_eq_true, or_right_comm]

end Text

def oneOf (chars : Text) : RegularExpression Char := (chars.map char).sum

def someOf (chars : Text) : RegularExpression Char := oneOf chars * (oneOf chars).star

section Classes

variable (chars text : Text)

theorem mem_oneOf : text ∈ (oneOf chars).matches' ↔ ∃ c ∈ chars, text = [c] := by
  induction chars with
  | nil => simp [oneOf]
  | cons first rest ih =>
      have shape : oneOf (first :: rest) = char first + oneOf rest := List.sum_cons
      rw [shape, matches'_add, Language.mem_add, ih, matches'_char]
      simp only [List.mem_cons, exists_eq_or_imp]
      rfl

theorem mem_oneOf_star : text ∈ (oneOf chars).star.matches' ↔ ∀ c ∈ text, c ∈ chars := by
  rw [matches'_star, Language.mem_kstar]
  constructor
  · rintro ⟨pieces, rfl, single⟩ c member
    obtain ⟨piece, inside, member⟩ := List.mem_flatten.1 member
    obtain ⟨d, known, rfl⟩ := (mem_oneOf chars piece).1 (single piece inside)
    rwa [List.mem_singleton.1 member]
  · intro known
    refine ⟨text.map fun c => [c], (List.flatMap_singleton' text).symm, ?_⟩
    intro piece inside
    obtain ⟨c, member, rfl⟩ := List.mem_map.1 inside
    exact (mem_oneOf chars [c]).2 ⟨c, known c member, rfl⟩

theorem mem_oneOf_then_star {lead chars text : Text} :
    text ∈ (oneOf lead * (oneOf chars).star).matches' ↔
      ∃ c rest, text = c :: rest ∧ c ∈ lead ∧ ∀ d ∈ rest, d ∈ chars := by
  rw [matches'_mul, Language.mem_mul]
  constructor
  · rintro ⟨first, known, rest, others, rfl⟩
    obtain ⟨c, member, rfl⟩ := (mem_oneOf lead first).1 known
    exact ⟨c, rest, rfl, member, (mem_oneOf_star chars rest).1 others⟩
  · rintro ⟨c, rest, rfl, member, others⟩
    exact ⟨[c], (mem_oneOf lead [c]).2 ⟨c, member, rfl⟩, rest,
      (mem_oneOf_star chars rest).2 others, rfl⟩

end Classes

inductive Pattern where
  | pointed
  | fraction
  | scaled
  | integer
  | identifier
  | operator (op : Operator)
  | opening
  | closing
  deriving DecidableEq

namespace Pattern

def digits : RegularExpression Char := someOf Text.digitChars

def exponent : RegularExpression Char :=
  oneOf ['e', 'E'] * (1 + oneOf ['+', '-']) * digits

def regex : Pattern → RegularExpression Char
  | .pointed => digits * char '.' * digits * (1 + exponent)
  | .fraction => char '.' * digits * (1 + exponent)
  | .scaled => digits * exponent
  | .integer => digits
  | .identifier => oneOf Text.letterChars * (oneOf (Text.letterChars ++ Text.digitChars)).star
  | .operator op => char op.symbol
  | .opening => char '('
  | .closing => char ')'

def Matches (pattern : Pattern) (text : Text) : Prop := text ∈ pattern.regex.matches'

instance (pattern : Pattern) (text : Text) : Decidable (pattern.Matches text) :=
  decidable_of_iff _ (rmatch_iff_matches' pattern.regex text)

example : Pattern.scaled.Matches "1e+5".toList ∧ ¬ Pattern.scaled.Matches "1e+".toList := by decide

variable {text : Text}

theorem mem_digits : text ∈ digits.matches' ↔ Text.IsDigits text ∧ text ≠ [] := by
  rw [digits, someOf, mem_oneOf_then_star]
  simp only [Text.mem_digitChars]
  constructor
  · rintro ⟨c, rest, rfl, first, others⟩
    exact ⟨List.forall_mem_cons.2 ⟨first, others⟩, List.cons_ne_nil c rest⟩
  · rintro ⟨areDigits, filled⟩
    obtain ⟨c, rest, rfl⟩ := List.exists_cons_of_ne_nil filled
    obtain ⟨first, others⟩ := List.forall_mem_cons.1 areDigits
    exact ⟨c, rest, rfl, first, others⟩

theorem mem_sign : text ∈ (1 + oneOf ['+', '-']).matches' ↔
    text = [] ∨ text = ['+'] ∨ text = ['-'] := by
  rw [matches'_add, Language.mem_add, matches'_epsilon, Language.mem_one, mem_oneOf]
  simp

theorem mem_exponent : text ∈ exponent.matches' ↔
    ∃ found : Exponent, found.WellFormed ∧ text = found.spelling := by
  simp only [exponent, matches'_mul, Language.mem_mul, mem_oneOf, mem_sign, mem_digits]
  constructor
  · rintro ⟨_, ⟨_, ⟨mark, marked, rfl⟩, sign, signed, rfl⟩, digits, ⟨areDigits, filled⟩, rfl⟩
    exact ⟨⟨mark, sign, digits⟩, ⟨by simpa using marked, signed, areDigits, filled⟩, rfl⟩
  · rintro ⟨⟨mark, sign, digits⟩, ⟨marked, signed, areDigits, filled⟩, rfl⟩
    exact ⟨mark :: sign, ⟨[mark], ⟨mark, by simpa using marked, rfl⟩, sign, signed, rfl⟩,
      digits, ⟨areDigits, filled⟩, rfl⟩

theorem mem_optional : text ∈ (1 + exponent).matches' ↔
    ∃ exponent : Option Exponent, (∀ found, exponent = some found → found.WellFormed) ∧
      text = Numeral.exponentSpelling exponent := by
  rw [matches'_add, Language.mem_add, matches'_epsilon, Language.mem_one, mem_exponent]
  constructor
  · rintro (rfl | ⟨found, wellFormed, rfl⟩)
    · exact ⟨none, by simp, rfl⟩
    · exact ⟨some found, fun _ same => Option.some.inj same ▸ wellFormed, rfl⟩
  · rintro ⟨_ | found, wellFormed, rfl⟩
    · exact .inl rfl
    · exact .inr ⟨found, wellFormed found rfl, rfl⟩

end Pattern

namespace Numeral

/-- The pattern that a numeral belongs to. -/
def pattern : Numeral → Pattern
  | ⟨_, none, none⟩ => .integer
  | ⟨_, none, some _⟩ => .scaled
  | ⟨[], some _, _⟩ => .fraction
  | ⟨_ :: _, some _, _⟩ => .pointed

theorem matches_spelling {numeral : Numeral} (wellFormed : numeral.WellFormed) :
    numeral.pattern.Matches numeral.spelling := by
  obtain ⟨whole, fraction, exponent⟩ := numeral
  obtain ⟨areDigits, places, scale, filled⟩ := wellFormed
  dsimp only at areDigits places scale filled
  have ending := Pattern.mem_optional.2 ⟨exponent, scale, rfl⟩
  cases fraction with
  | none =>
      have digits := Pattern.mem_digits.2 ⟨areDigits, by simpa using filled⟩
      cases exponent with
      | none =>
          rw [show spelling ⟨whole, none, none⟩ = whole from spelling_ofDigits whole]
          exact digits
      | some found =>
          have shape : spelling ⟨whole, none, some found⟩ = whole ++ found.spelling := by
            simp [spelling, fractionSpelling, exponentSpelling]
          rw [shape]
          exact Language.append_mem_mul digits
            (Pattern.mem_exponent.2 ⟨found, scale found rfl, rfl⟩)
  | some digits =>
      have pointed := Pattern.mem_digits.2 (places digits rfl)
      cases whole with
      | nil =>
          change ['.'] ++ digits ++ exponentSpelling exponent ∈ _
          exact Language.append_mem_mul (Language.append_mem_mul rfl pointed) ending
      | cons first rest =>
          have shape : spelling ⟨first :: rest, some digits, exponent⟩ =
              first :: rest ++ ['.'] ++ digits ++ exponentSpelling exponent := by
            simp [spelling, fractionSpelling]
          have whole := Pattern.mem_digits.2 ⟨areDigits, List.cons_ne_nil first rest⟩
          rw [shape]
          exact Language.append_mem_mul
            (Language.append_mem_mul (Language.append_mem_mul whole rfl) pointed) ending

end Numeral

namespace Pattern

/-- Every pattern is one of a numeral, of a name, or of a symbol. -/
inductive Form : Pattern → Text → Prop where
  | numeral (numeral : Numeral) (wellFormed : numeral.WellFormed) :
      Form numeral.pattern numeral.spelling
  | identifier (name : Text) (identifier : Text.isIdentifier name = true) :
      Form .identifier name
  | operator (op : Operator) : Form (.operator op) [op.symbol]
  | opening : Form .opening ['(']
  | closing : Form .closing [')']

theorem form_of_numeral {whole : Text} {fraction : Option Text} {exponent : Option Exponent}
    {text : Text} (wellFormed : Numeral.WellFormed ⟨whole, fraction, exponent⟩)
    (shape : text = Numeral.spelling ⟨whole, fraction, exponent⟩) :
    Form (Numeral.pattern ⟨whole, fraction, exponent⟩) text :=
  shape ▸ .numeral _ wellFormed

theorem form_of_matches {pattern : Pattern} {text : Text} (found : pattern.Matches text) :
    pattern.Form text := by
  unfold Matches at found
  cases pattern with
  | pointed =>
      simp only [regex, matches'_mul, matches'_char, Language.mem_mul, mem_digits,
        mem_optional] at found
      obtain ⟨_, ⟨_, ⟨whole, ⟨areDigits, filled⟩, _, rfl, rfl⟩, digits, places, rfl⟩, _,
        ⟨exponent, scale, rfl⟩, rfl⟩ := found
      obtain ⟨first, rest, rfl⟩ := List.exists_cons_of_ne_nil filled
      have wellFormed : Numeral.WellFormed ⟨first :: rest, some digits, exponent⟩ :=
        ⟨areDigits, fun _ same => Option.some.inj same ▸ places, scale, .inl filled⟩
      exact form_of_numeral wellFormed (by simp [Numeral.spelling, Numeral.fractionSpelling])
  | fraction =>
      simp only [regex, matches'_mul, matches'_char, Language.mem_mul, mem_digits,
        mem_optional] at found
      obtain ⟨_, ⟨_, rfl, digits, places, rfl⟩, _, ⟨exponent, scale, rfl⟩, rfl⟩ := found
      have wellFormed : Numeral.WellFormed ⟨[], some digits, exponent⟩ :=
        ⟨by simp [Text.IsDigits], fun _ same => Option.some.inj same ▸ places, scale,
          .inr (by simp)⟩
      exact form_of_numeral wellFormed rfl
  | scaled =>
      simp only [regex, matches'_mul, Language.mem_mul, mem_digits, mem_exponent] at found
      obtain ⟨whole, ⟨areDigits, filled⟩, _, ⟨exponent, scale, rfl⟩, rfl⟩ := found
      have wellFormed : Numeral.WellFormed ⟨whole, none, some exponent⟩ :=
        ⟨areDigits, by simp, fun _ same => Option.some.inj same ▸ scale, .inl filled⟩
      exact form_of_numeral wellFormed
        (by simp [Numeral.spelling, Numeral.fractionSpelling, Numeral.exponentSpelling])
  | integer =>
      obtain ⟨areDigits, filled⟩ := mem_digits.1 found
      exact form_of_numeral (Numeral.wellFormed_ofDigits areDigits filled)
        (Numeral.spelling_ofDigits text).symm
  | identifier =>
      obtain ⟨c, rest, rfl, letter, others⟩ := mem_oneOf_then_star.1 found
      simp only [Text.mem_letterChars, Text.mem_nameChars] at letter others
      exact .identifier _ (by simpa [Text.isIdentifier, letter] using others)
  | operator op =>
      cases found
      exact .operator op
  | opening =>
      cases found
      exact .opening
  | closing =>
      cases found
      exact .closing

theorem matches_identifier {name : Text} (identifier : Text.isIdentifier name = true) :
    Pattern.identifier.Matches name := by
  cases name with
  | nil => contradiction
  | cons c rest =>
      simp only [Text.isIdentifier, Bool.and_eq_true, List.all_eq_true] at identifier
      refine mem_oneOf_then_star.2 ⟨c, rest, rfl, ?_⟩
      simpa only [Text.mem_letterChars, Text.mem_nameChars] using identifier

end Pattern

namespace Text

def isMark (c : Char) : Bool := c = 'e' || c = 'E'

/-- The number behind the mark of an exponent; zero if nothing stands there. -/
def scaleValue (text : Text) : Int :=
  let (negative, digits) := Integer.splitSign text
  if negative then -(digitsValue digits) else digitsValue digits

/-- The decimal number that digits with a point and an exponent stand for. Either may be missing. -/
def decimal (text : Text) : Decimal :=
  let mantissa := text.takeWhile (!isMark ·)
  let whole := mantissa.takeWhile (· ≠ '.')
  let places := (mantissa.dropWhile (· ≠ '.')).drop 1
  ⟨digitsValue (whole ++ places),
    scaleValue ((text.dropWhile (!isMark ·)).drop 1) - places.length⟩

example : decimal "12.50e-3".toList = ⟨1250, -5⟩ := by decide

end Text

namespace Pattern

def realToken? (text : Text) : Option Token :=
  let nearest := text.decimal.toBinary64
  if nearest.isFinite then some (.atom (.number (.real nearest))) else none

/-- The token for a text of the pattern, unless the value of the text is too large. -/
def token? (text : Text) : Pattern → Option Token
  | .pointed | .fraction | .scaled => realToken? text
  | .integer =>
      (Integer.ofInt? (Text.digitsValue text)).map fun n => .atom (.number (.integer n))
  | .identifier => some (.atom (.name text))
  | .operator op => some (.operator op)
  | .opening => some .opening
  | .closing => some .closing

end Pattern

theorem Exponent.scaleValue_eq {exponent : Exponent} (wellFormed : exponent.WellFormed) :
    Text.scaleValue (exponent.sign ++ exponent.digits) = exponent.value := by
  obtain ⟨mark, sign, digits⟩ := exponent
  obtain ⟨_, signed, areDigits, _⟩ := wellFormed
  dsimp only at signed areDigits ⊢
  rcases signed with rfl | rfl | rfl
  · have unsigned : Integer.splitSign digits = (false, digits) :=
      Integer.splitSign_unsigned (areDigits.not_mem rfl) (areDigits.not_mem rfl)
    simp only [Text.scaleValue, value, List.nil_append, unsigned]
    rfl
  · rfl
  · rfl

namespace Numeral

section Decimal

variable {numeral : Numeral} (wellFormed : numeral.WellFormed)
include wellFormed

theorem mantissa_spelling :
    numeral.spelling.takeWhile (!Text.isMark ·) =
      numeral.whole ++ fractionSpelling numeral.fraction ∧
    numeral.spelling.dropWhile (!Text.isMark ·) = exponentSpelling numeral.exponent := by
  have digits {text : Text} (areDigits : Text.IsDigits text) :
      ∀ c ∈ text, (!Text.isMark c) = true := by
    intro c member
    have small :=
      ne_of_mem_of_not_mem member (areDigits.not_mem (show 'e'.isDigit = false from rfl))
    have capital :=
      ne_of_mem_of_not_mem member (areDigits.not_mem (show 'E'.isDigit = false from rfl))
    simp [Text.isMark, small, capital]
  have kept : ∀ c ∈ numeral.whole ++ fractionSpelling numeral.fraction,
      (!Text.isMark c) = true := by
    rw [List.forall_mem_append]
    refine ⟨digits wellFormed.whole, ?_⟩
    cases shape : numeral.fraction with
    | none => simp [fractionSpelling]
    | some places =>
        exact List.forall_mem_cons.2 ⟨rfl, digits (wellFormed.fraction places shape).1⟩
  have stops : ∀ c, (exponentSpelling numeral.exponent).head? = some c →
      (!Text.isMark c) = false := by
    intro c first
    cases shape : numeral.exponent with
    | none => simp [shape, exponentSpelling] at first
    | some exponent =>
        rw [shape] at first
        cases first
        rcases (wellFormed.exponent exponent shape).mark with same | same <;> rw [same] <;> rfl
  exact ⟨Text.takeWhile_run kept stops, Text.dropWhile_run kept stops⟩

omit wellFormed in
theorem fraction_spelling (areDigits : Text.IsDigits numeral.whole) :
    (numeral.whole ++ fractionSpelling numeral.fraction).takeWhile (· ≠ '.') = numeral.whole ∧
    ((numeral.whole ++ fractionSpelling numeral.fraction).dropWhile (· ≠ '.')).drop 1 =
      numeral.fraction.getD [] := by
  have kept : ∀ c ∈ numeral.whole, decide (c ≠ '.') = true := by
    intro c member
    have other :=
      ne_of_mem_of_not_mem member (areDigits.not_mem (show '.'.isDigit = false from rfl))
    simp [other]
  have stops : ∀ c, (fractionSpelling numeral.fraction).head? = some c →
      decide (c ≠ '.') = false := by
    intro c first
    cases shape : numeral.fraction with
    | none => simp [shape, fractionSpelling] at first
    | some places =>
        rw [shape] at first
        cases first
        rfl
  refine ⟨Text.takeWhile_run kept stops, ?_⟩
  rw [Text.dropWhile_run kept stops]
  cases numeral.fraction <;> rfl

theorem scale_spelling : Text.scaleValue ((exponentSpelling numeral.exponent).drop 1) =
    (numeral.exponent.map Exponent.value).getD 0 := by
  cases shape : numeral.exponent with
  | none => rfl
  | some exponent => exact Exponent.scaleValue_eq (wellFormed.exponent exponent shape)

/-- The digits of a numeral without its point, and the power of ten that scales them. -/
theorem decimal_spelling : Text.decimal numeral.spelling =
    ⟨Text.digitsValue (numeral.whole ++ numeral.fraction.getD []),
      (numeral.exponent.map Exponent.value).getD 0 - (numeral.fraction.getD []).length⟩ := by
  obtain ⟨mantissa, ending⟩ := mantissa_spelling wellFormed
  obtain ⟨whole, places⟩ := fraction_spelling wellFormed.whole
  simp only [Text.decimal, mantissa, ending, whole, places, scale_spelling wellFormed]

omit wellFormed in
/-- With a point or an exponent a numeral is a real number. -/
theorem token?_real (real : numeral.fraction ≠ none ∨ numeral.exponent ≠ none) (text : Text) :
    numeral.pattern.token? text = Pattern.realToken? text := by
  obtain ⟨whole, _ | places, _ | exponent⟩ := numeral
  · simp at real
  · rfl
  · cases whole <;> rfl
  · cases whole <;> rfl

theorem token?_spelling : numeral.pattern.token? numeral.spelling =
    numeral.value?.map fun n => .atom (.number n) := by
  by_cases real : numeral.fraction ≠ none ∨ numeral.exponent ≠ none
  · rw [token?_real real, value?_real real, Pattern.realToken?, decimal_spelling wellFormed]
    dsimp only
    split <;> rfl
  · obtain ⟨whole, fraction, exponent⟩ := numeral
    rw [not_or, not_not, not_not] at real
    obtain ⟨rfl, rfl⟩ := real
    have alone : spelling ⟨whole, none, none⟩ = whole := spelling_ofDigits whole
    have value : value? ⟨whole, none, none⟩ = _ := value?_ofDigits whole
    rw [alone, value, Option.map_map]
    rfl

end Decimal

end Numeral

end Pseudocode
