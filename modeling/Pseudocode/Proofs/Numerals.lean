import Pseudocode.Proofs.Lexing
import Pseudocode.Proofs.NumberTexts

/-!
Numerals at the head of a text. Scanning finds well-formed numerals only, and finds each of them
again in front of anything that could not continue it. So a numeral is one token of an expression,
with the value that the numeral has on its own.
-/

namespace Pseudocode

theorem Text.zeros_of_digitsValue {digits : Text} (areDigits : IsDigits digits)
    (zero : digitsValue digits = 0) : digits = List.replicate digits.length '0' := by
  induction digits with
  | nil => rfl
  | cons c rest ih =>
      have lead : digitsValue [c] = c.toNat - '0'.toNat := by
        rw [digitsValue, Nat.ofDigitChars_cons]
        exact Nat.zero_add _
      have range := Char.isDigit_iff_toNat.1 (areDigits c List.mem_cons_self)
      rw [← List.singleton_append, digitsValue_append, Nat.add_eq_zero_iff, Nat.mul_eq_zero,
        lead] at zero
      have power : 10 ^ rest.length ≠ 0 := Nat.ne_of_gt (Nat.pow_pos (by decide))
      have first : c = '0' := Char.toNat_inj.1 (by omega)
      have others := ih (fun d member => areDigits d (List.mem_cons_of_mem c member)) zero.2
      rw [first, List.length_cons, List.replicate_succ, ← others]

namespace Exponent

structure WellFormed (exponent : Exponent) : Prop where
  mark : exponent.mark = 'e' ∨ exponent.mark = 'E'
  sign : exponent.sign = [] ∨ exponent.sign = ['+'] ∨ exponent.sign = ['-']
  digits : Text.IsDigits exponent.digits
  filled : exponent.digits ≠ []

theorem splitSign_sign (text : Text) :
    (splitSign text).1 = [] ∨ (splitSign text).1 = ['+'] ∨ (splitSign text).1 = ['-'] := by
  unfold splitSign
  split <;> simp

theorem splitSign_digit {sign rest : Text} {c : Char}
    (sign? : sign = [] ∨ sign = ['+'] ∨ sign = ['-']) (digit : c.isDigit = true) :
    splitSign (sign ++ c :: rest) = (sign, c :: rest) := by
  rcases sign? with rfl | rfl | rfl
  · rw [List.nil_append, splitSign]
    · rintro _ shape
      cases shape
      contradiction
    · rintro _ shape
      cases shape
      contradiction
  · rfl
  · rfl

theorem scan_wellFormed {text rest : Text} {exponent : Exponent}
    (found : scan text = some (exponent, rest)) : exponent.WellFormed := by
  cases text with
  | nil => simp [scan] at found
  | cons mark tail =>
      simp only [scan, Option.ite_none_right_eq_some, Bool.and_eq_true, Bool.not_eq_true',
        List.isEmpty_eq_false_iff] at found
      obtain ⟨⟨mark, digits⟩, same⟩ := found
      cases same
      exact ⟨by simpa using mark, splitSign_sign tail, List.all_eq_true.1 List.all_takeWhile,
        digits⟩

section Spelled

variable {rest : Text}

theorem scan_append {exponent : Exponent} (wellFormed : exponent.WellFormed)
    (stops : ∀ c, rest.head? = some c → c.isDigit = false) :
    scan (exponent.spelling ++ rest) = some (exponent, rest) := by
  obtain ⟨mark, sign, digits⟩ := exponent
  obtain ⟨marked, signed, areDigits, filled⟩ := wellFormed
  dsimp only at marked signed areDigits filled
  obtain ⟨c, others, rfl⟩ := List.exists_cons_of_ne_nil filled
  have shape : (Exponent.mk mark sign (c :: others)).spelling ++ rest =
      mark :: (sign ++ c :: (others ++ rest)) := by simp [spelling]
  have split : splitSign (sign ++ c :: (others ++ rest)) = (sign, c :: (others ++ rest)) :=
    splitSign_digit signed (areDigits c List.mem_cons_self)
  have taken := Text.takeWhile_run areDigits stops
  have left := Text.dropWhile_run areDigits stops
  rw [List.cons_append] at taken left
  rw [shape, scan]
  simp only [split, taken, left, List.isEmpty_cons, Bool.not_false, Bool.and_true]
  rcases marked with rfl | rfl <;> rfl

theorem scan_none (stops : ∀ c, rest.head? = some c → c ≠ 'e' ∧ c ≠ 'E') : scan rest = none := by
  cases rest with
  | nil => rfl
  | cons c tail =>
      obtain ⟨small, capital⟩ := stops c rfl
      simp [scan, small, capital]

end Spelled

end Exponent

namespace Numeral

structure WellFormed (numeral : Numeral) : Prop where
  whole : Text.IsDigits numeral.whole
  fraction : ∀ digits, numeral.fraction = some digits → Text.IsDigits digits ∧ digits ≠ []
  exponent : ∀ exponent, numeral.exponent = some exponent → exponent.WellFormed
  filled : numeral.whole ≠ [] ∨ numeral.fraction ≠ none

/-- The numeral of an integer. -/
def ofDigits (digits : Text) : Numeral := ⟨digits, none, none⟩

theorem spelling_ofDigits (digits : Text) : (ofDigits digits).spelling = digits := by
  simp [spelling, ofDigits, fractionSpelling, exponentSpelling]

theorem wellFormed_ofDigits {digits : Text} (areDigits : Text.IsDigits digits)
    (filled : digits ≠ []) : (ofDigits digits).WellFormed where
  whole := areDigits
  fraction := fun _ none => nomatch none
  exponent := fun _ none => nomatch none
  filled := .inl filled

theorem value?_ofDigits (digits : Text) :
    (ofDigits digits).value? = (Integer.ofInt? (Text.digitsValue digits)).map .integer := rfl

theorem value?_real {numeral : Numeral}
    (real : numeral.fraction ≠ none ∨ numeral.exponent ≠ none) :
    numeral.value? =
      let decimal : Decimal :=
        ⟨Text.digitsValue (numeral.whole ++ numeral.fraction.getD []),
          (numeral.exponent.map Exponent.value).getD 0 - (numeral.fraction.getD []).length⟩
      if decimal.toBinary64.isFinite then some (.real decimal.toBinary64) else none := by
  obtain ⟨whole, _ | _, _ | _⟩ := numeral
  · simp at real
  all_goals rfl

theorem ofDigits_or_real (numeral : Numeral) :
    numeral = .ofDigits numeral.whole ∨ numeral.fraction ≠ none ∨ numeral.exponent ≠ none := by
  obtain ⟨whole, _ | _, _ | _⟩ := numeral
  · exact .inl rfl
  all_goals simp

theorem value?_integer {numeral : Numeral} {m : Integer}
    (value : numeral.value? = some (.integer m)) :
    numeral = .ofDigits numeral.whole ∧ m.val = Text.digitsValue numeral.whole := by
  rcases ofDigits_or_real numeral with whole | real
  · rw [whole, value?_ofDigits] at value
    obtain ⟨n, found, same⟩ := Option.map_eq_some_iff.1 value
    cases same
    exact ⟨whole, Integer.ofInt?_eq_some.1 found⟩
  · rw [value?_real real] at value
    obtain ⟨_, same⟩ := Option.ite_none_right_eq_some.1 value
    cases same

theorem value?_decimal {numeral : Numeral} {x : Binary64}
    (value : numeral.value? = some (.real x)) :
    ∃ decimal : Decimal, decimal.toBinary64 = x ∧ x.isFinite = true := by
  rcases ofDigits_or_real numeral with whole | real
  · rw [whole, value?_ofDigits] at value
    obtain ⟨_, _, same⟩ := Option.map_eq_some_iff.1 value
    cases same
  · rw [value?_real real] at value
    obtain ⟨finite, same⟩ := Option.ite_none_right_eq_some.1 value
    cases same
    exact ⟨_, rfl, finite⟩

theorem scanFraction_digits {text digits : Text} (found : (scanFraction text).1 = some digits) :
    Text.IsDigits digits ∧ digits ≠ [] := by
  unfold scanFraction at found
  split at found
  · simp only [apply_ite Prod.fst, Option.ite_none_left_eq_some, List.isEmpty_iff] at found
    obtain ⟨filled, same⟩ := found
    cases same
    exact ⟨List.all_eq_true.1 List.all_takeWhile, filled⟩
  · contradiction

theorem scanExponent_wellFormed {text : Text} {exponent : Exponent}
    (found : (scanExponent text).1 = some exponent) : exponent.WellFormed := by
  unfold scanExponent at found
  cases scanned : Exponent.scan text with
  | none => simp [scanned] at found
  | some taken =>
      rw [scanned] at found
      cases found
      exact Exponent.scan_wellFormed scanned

theorem unfilled_iff (whole : Text) (fraction : Option Text) :
    (whole.isEmpty && fraction.isNone) = true ↔ ¬ (whole ≠ [] ∨ fraction ≠ none) := by
  rw [Bool.and_eq_true, List.isEmpty_iff, Option.isNone_iff_eq_none, not_or, Decidable.not_not,
    Decidable.not_not]

theorem scan_wellFormed {text rest : Text} {numeral : Numeral}
    (found : scan text = some (numeral, rest)) : numeral.WellFormed := by
  simp only [scan, Option.ite_none_left_eq_some, unfilled_iff, Decidable.not_not] at found
  obtain ⟨filled, same⟩ := found
  cases same
  exact ⟨List.all_eq_true.1 List.all_takeWhile, fun _ => scanFraction_digits,
    fun _ => scanExponent_wellFormed, filled⟩

/-- The characters that may continue a numeral. -/
def continues (c : Char) : Bool := c.isDigit || c = '.' || c = 'e' || c = 'E'

theorem continues_of_space {c : Char} (space : isSpace c = true) : continues c = false := by
  simp only [isSpace, Bool.or_eq_true, decide_eq_true_eq] at space
  rcases space with (rfl | rfl) | rfl <;> rfl

section Spelled

variable {rest : Text} (stops : ∀ c, rest.head? = some c → continues c = false)
include stops

theorem head_exponent {exponent : Option Exponent}
    (wellFormed : ∀ found, exponent = some found → found.WellFormed) :
    ∀ c, (exponentSpelling exponent ++ rest).head? = some c → c.isDigit = false ∧ c ≠ '.' := by
  intro c first
  cases exponent with
  | none =>
      have other := stops c first
      simp only [continues, Bool.or_eq_false_iff, decide_eq_false_iff_not] at other
      exact ⟨other.1.1.1, other.1.1.2⟩
  | some exponent =>
      cases first
      rcases (wellFormed exponent rfl).mark with small | capital
      · simp [small]
      · simp [capital]

theorem scanExponent_append {exponent : Option Exponent}
    (wellFormed : ∀ found, exponent = some found → found.WellFormed) :
    scanExponent (exponentSpelling exponent ++ rest) = (exponent, rest) := by
  have others : ∀ c, rest.head? = some c → c.isDigit = false ∧ c ≠ 'e' ∧ c ≠ 'E' := by
    intro c first
    have other := stops c first
    simp only [continues, Bool.or_eq_false_iff, decide_eq_false_iff_not] at other
    exact ⟨other.1.1.1, other.1.2, other.2⟩
  cases exponent with
  | none =>
      have nothing := Exponent.scan_none fun c first => (others c first).2
      simp [exponentSpelling, scanExponent, nothing]
  | some exponent =>
      have found := Exponent.scan_append (wellFormed exponent rfl) fun c first => (others c first).1
      simp only [exponentSpelling, scanExponent, found]

omit stops in
theorem scanFraction_append {fraction : Option Text}
    (digits : ∀ found, fraction = some found → Text.IsDigits found ∧ found ≠ [])
    (ends : ∀ c, rest.head? = some c → c.isDigit = false ∧ c ≠ '.') :
    scanFraction (fractionSpelling fraction ++ rest) = (fraction, rest) := by
  cases fraction with
  | none =>
      rw [fractionSpelling, List.nil_append, scanFraction]
      rintro tail rfl
      exact (ends '.' rfl).2 rfl
  | some found =>
      obtain ⟨areDigits, filled⟩ := digits found rfl
      have stop : ∀ c, rest.head? = some c → c.isDigit = false := fun c first => (ends c first).1
      simp only [fractionSpelling, List.cons_append, scanFraction,
        Text.takeWhile_run areDigits stop, Text.dropWhile_run areDigits stop]
      rw [if_neg (by simpa using filled)]

/-- A numeral is found again, whole, in front of what does not continue it. -/
theorem scan_append {numeral : Numeral} (wellFormed : numeral.WellFormed) :
    scan (numeral.spelling ++ rest) = some (numeral, rest) := by
  obtain ⟨whole, fraction, exponent⟩ := numeral
  obtain ⟨areDigits, places, scale, filled⟩ := wellFormed
  dsimp only at areDigits places scale filled
  have ends := head_exponent stops scale
  have stop : ∀ c, (fractionSpelling fraction ++ (exponentSpelling exponent ++ rest)).head? =
      some c → c.isDigit = false := by
    intro c first
    cases fraction with
    | none => exact (ends c first).1
    | some digits =>
        cases first
        rfl
  have nonempty : ¬ (whole.isEmpty && fraction.isNone) = true := by
    rwa [unfilled_iff, Decidable.not_not]
  simp only [spelling, List.append_assoc, scan, Text.takeWhile_run areDigits stop,
    Text.dropWhile_run areDigits stop, scanFraction_append places ends, nonempty,
    scanExponent_append stops scale, Bool.false_eq_true, ↓reduceIte]

end Spelled

def starts (c : Char) : Bool := c.isDigit || c = '.'

section Characters

variable {numeral : Numeral} (wellFormed : numeral.WellFormed)
include wellFormed

theorem spelling_starts : ∃ c others, numeral.spelling = c :: others ∧ starts c = true := by
  obtain ⟨whole, fraction, exponent⟩ := numeral
  obtain ⟨areDigits, _, _, filled⟩ := wellFormed
  cases whole with
  | cons c others =>
      exact ⟨c, _, rfl, by simp [starts, areDigits c List.mem_cons_self]⟩
  | nil =>
      cases fraction with
      | none => simp at filled
      | some digits => exact ⟨'.', _, rfl, rfl⟩

theorem mem_spelling : ∀ c ∈ numeral.spelling, Text.isPlain c = true ∨ c = '+' := by
  have digits : ∀ {text : Text}, Text.IsDigits text → ∀ c ∈ text, Text.isPlain c = true ∨ c = '+' :=
    fun areDigits c member => .inl (Text.plain_of_digit (areDigits c member))
  unfold spelling
  rw [List.forall_mem_append, List.forall_mem_append]
  refine ⟨⟨digits wellFormed.whole, ?_⟩, ?_⟩
  · cases shape : numeral.fraction with
    | none => simp [fractionSpelling]
    | some places =>
        exact List.forall_mem_cons.2 ⟨.inl rfl, digits (wellFormed.fraction places shape).1⟩
  · cases shape : numeral.exponent with
    | none => simp [exponentSpelling]
    | some exponent =>
        obtain ⟨marked, signed, areDigits, _⟩ := wellFormed.exponent exponent shape
        rw [exponentSpelling, Exponent.spelling, List.cons_append, List.forall_mem_cons,
          List.forall_mem_append]
        refine ⟨?_, ?_, digits areDigits⟩
        · rcases marked with same | same <;> rw [same] <;> exact .inl rfl
        · rcases signed with same | same | same <;> rw [same] <;> simp
          rfl

end Characters

end Numeral

section Starting

variable {c : Char}

theorem letter_of_digit (digit : c.isDigit = true) : Text.isLetter c = false := by
  have letters : c.isAlpha = (decide ('A'.val ≤ c.val ∧ c.val ≤ 'Z'.val) ||
      (decide ('a'.val ≤ c.val) && decide (c.val ≤ 'z'.val))) := rfl
  have same : c.val.toNat = c.toNat := rfl
  have range := Char.isDigit_iff_toNat.1 digit
  have other : c ≠ '_' := by
    rintro rfl
    contradiction
  simp [Text.isLetter, letters, other, UInt32.le_iff_toNat_le, same]
  simp at range
  omega

theorem symbol?_of_digit (digit : c.isDigit = true) : Lexeme.symbol? c = none := by
  have apart : ∀ d : Char, d.isDigit = false → c ≠ d := by
    rintro d other rfl
    rw [digit] at other
    contradiction
  simp [Lexeme.symbol?, Operator.ofSymbol?, Operator.symbol, apart '(' rfl, apart ')' rfl,
    (apart '+' rfl).symm, (apart '-' rfl).symm, (apart '*' rfl).symm, (apart '/' rfl).symm]

/-- What a numeral starts with starts no other lexeme. -/
theorem starts_only_numerals (starts : Numeral.starts c = true) :
    Text.isLetter c = false ∧ Lexeme.symbol? c = none ∧ isSpace c = false := by
  rw [Numeral.starts, Bool.or_eq_true, decide_eq_true_eq] at starts
  rcases starts with digit | rfl
  · exact ⟨letter_of_digit digit, symbol?_of_digit digit,
      not_space_of_plain (Text.plain_of_digit digit)⟩
  · exact ⟨rfl, rfl, rfl⟩

end Starting

section Lexing

variable {numeral : Numeral} {rest : Text} (wellFormed : numeral.WellFormed)
  (stops : ∀ c, rest.head? = some c → Numeral.continues c = false)
include wellFormed stops

theorem lex_numeral : lex (numeral.spelling ++ rest) = match numeral.value? with
    | none => .error (.badToken numeral.spelling)
    | some number => (lex rest).map (.atom (.number number) :: ·) := by
  obtain ⟨c, others, shape, starts⟩ := Numeral.spelling_starts wellFormed
  obtain ⟨letter, symbol, space⟩ := starts_only_numerals starts
  have found := Numeral.scan_append stops wellFormed
  rw [shape, List.cons_append] at found
  have scanned : Lexeme.scan c (others ++ rest) =
      some (⟨numeral.spelling, numeral.value?.map fun n => .atom (.number n)⟩, rest) := by
    simp only [Lexeme.scan, letter, symbol, found, Bool.false_eq_true, ↓reduceIte, Option.map_some]
  rw [shape, List.cons_append, lex_scanned space scanned, ← shape]
  cases numeral.value? with
  | none => rfl
  | some number => rfl

end Lexing

end Pseudocode
