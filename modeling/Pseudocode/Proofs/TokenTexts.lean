import Pseudocode.Proofs.Composition

/-!
Tokens written out, and lexed again. A token is quoted in messages with a text of its own; such
texts with a space between them are read back as the tokens they stand for. A space ends every
token, so each text is read as if it stood alone, and what is left to see is that it is one token of
the right kind. The text of a real number always has a point or an exponent, which tells it from an
integer; the exponent belongs to the numeral, so that it is not taken for a name.
-/

namespace Pseudocode

def Binary64.isUnsigned : Binary64 → Bool
  | .finite negative _ _ => !negative
  | .infinite _ | .nan => false

/-- An expression has no negative numbers: the sign in front of one is a token of its own. -/
def Number.isUnsigned : Number → Bool
  | .integer n => decide (0 ≤ n.val)
  | .real x => x.isUnsigned

def Token.isPrintable : Token → Bool
  | .atom (.number number) => number.isUnsigned
  | .atom (.name name) => Text.isIdentifier name
  | .operator _ | .opening | .closing => true

theorem Decimal.toBinary64_isUnsigned {decimal : Decimal}
    (finite : decimal.toBinary64.isFinite = true) : decimal.toBinary64.isUnsigned = true := by
  obtain ⟨digits, exponent⟩ := decimal
  rw [toBinary64_eq] at finite ⊢
  obtain ⟨fits, shape⟩ := Binary64.nearest_of_isFinite finite
  rw [shape]
  rfl

theorem Numeral.value?_isUnsigned {numeral : Numeral} {number : Number}
    (meant : numeral.value? = some number) : number.isUnsigned = true := by
  cases number with
  | integer n =>
      obtain ⟨_, value⟩ := value?_integer meant
      rw [Number.isUnsigned, value]
      exact decide_eq_true (Int.natCast_nonneg _)
  | real x =>
      obtain ⟨_, rfl, finite⟩ := value?_decimal meant
      exact Decimal.toBinary64_isUnsigned finite

theorem lex_isPrintable {text : Text} {tokens : List Token} (lexed : lex text = .ok tokens) :
    ∀ token ∈ tokens, token.isPrintable = true := by
  refine forall_lex ?_ lexed
  intro c rest after lexeme token scanned meant
  cases token with
  | atom atom =>
      rcases Lexeme.scan_atom scanned meant with
        ⟨name, identifier, rfl⟩ | ⟨numeral, number, value, rfl⟩
      · exact identifier
      · exact Numeral.value?_isUnsigned value
  | operator | opening | closing => rfl

/-- A numeral with this text and this value. -/
def Numeral.Writes (numeral : Numeral) (text : Text) (number : Number) : Prop :=
  numeral.WellFormed ∧ numeral.spelling = text ∧ numeral.value? = some number

theorem Integer.numeral_writes {n : Integer} (nonnegative : 0 ≤ n.val) :
    (Numeral.ofDigits (Text.ofNat n.val.natAbs)).Writes n.text (.integer n) := by
  refine ⟨Numeral.wellFormed_ofDigits (Text.digits_ofNat _) (Text.ofNat_ne_nil _), ?_, ?_⟩
  · rw [Numeral.spelling_ofDigits, Integer.text, if_neg (Int.not_lt.2 nonnegative)]
  · have value : n.val = (n.val.natAbs : Int) := (Int.natAbs_of_nonneg nonnegative).symm
    rw [Numeral.value?_ofDigits, Text.digitsValue_ofNat, Integer.ofInt?_eq_some.2 value]
    rfl

section Reals

variable {units : Nat} {fits : Representable units}

theorem Pointed.numeral_writes {pointed : Pointed}
    (meant : pointed.decimal.toBinary64 = .finite false units fits) :
    Numeral.Writes ⟨pointed.whole, some pointed.fraction, none⟩ pointed.text
      (.real (.finite false units fits)) := by
  refine ⟨⟨pointed.wholeDigits, ?_, by simp, .inr (by simp)⟩, ?_, value?_of_decimal meant⟩
  · rintro _ ⟨⟩
    exact ⟨pointed.fractionDigits, pointed.places⟩
  · simp [Numeral.spelling, Numeral.fractionSpelling, Numeral.exponentSpelling, text]

namespace Decimal.Expansion

variable (expansion : Expansion)

/-- The exponent in scientific form. -/
def scale : Exponent where
  mark := 'e'
  sign := if expansion.lead < 0 then ['-'] else []
  digits := Text.ofNat expansion.lead.natAbs

theorem scale_wellFormed : expansion.scale.WellFormed := by
  refine ⟨.inl rfl, ?_, Text.digits_ofNat _, Text.ofNat_ne_nil _⟩
  unfold scale
  split
  · exact .inr (.inr rfl)
  · exact .inl rfl

theorem scale_value : expansion.scale.value = expansion.lead := by
  have digits : Text.digitsValue expansion.scale.digits = expansion.lead.natAbs :=
    Text.digitsValue_ofNat _
  by_cases small : expansion.lead < 0
  · have sign : expansion.scale.sign = ['-'] := if_pos small
    rw [Exponent.value, if_pos sign, digits]
    omega
  · have sign : expansion.scale.sign = [] := if_neg small
    have unsigned : expansion.scale.sign ≠ ['-'] := by simp [sign]
    rw [Exponent.value, if_neg unsigned, digits]
    omega

/-- The digits behind the first. -/
def places : Option Text :=
  if (expansion.digits.drop 1).isEmpty then none else some (expansion.digits.drop 1)

theorem getD_places : expansion.places.getD [] = expansion.digits.drop 1 := by
  unfold places
  by_cases none : (expansion.digits.drop 1).isEmpty = true
  · rw [if_pos none]
    exact (List.isEmpty_iff.1 none).symm
  · rw [if_neg none]
    rfl

/-- The numeral in scientific form; with a single digit it has no point. -/
def numeral : Numeral := ⟨expansion.digits.take 1, expansion.places, some expansion.scale⟩

theorem spelling_numeral : expansion.numeral.spelling = expansion.scientific := by
  have fraction : Numeral.fractionSpelling expansion.places =
      if (expansion.digits.drop 1).isEmpty then [] else '.' :: expansion.digits.drop 1 := by
    unfold places
    split <;> rfl
  change expansion.digits.take 1 ++ Numeral.fractionSpelling expansion.places ++
    expansion.scale.spelling = _
  rw [fraction, scientific, Exponent.spelling]
  simp [scale]

variable {expansion} (digits : Text.IsDigits expansion.digits) (filled : expansion.digits ≠ [])
include digits filled

theorem wellFormed_numeral : expansion.numeral.WellFormed := by
  refine ⟨fun c member => digits c (List.mem_of_mem_take member), ?_, ?_, .inl ?_⟩
  · intro found same
    change expansion.places = some found at same
    simp only [places, Option.ite_none_left_eq_some, List.isEmpty_iff] at same
    obtain ⟨others, same⟩ := same
    cases same
    exact ⟨fun c member => digits c (List.mem_of_mem_drop member), others⟩
  · rintro _ ⟨⟩
    exact expansion.scale_wellFormed
  · simpa [numeral] using filled

omit digits in
theorem value?_numeral {units : Nat} {fits : Representable units}
    (meant : expansion.decimal.toBinary64 = .finite false units fits) :
    expansion.numeral.value? = some (.real (.finite false units fits)) := by
  have length := List.length_pos_iff.2 filled
  have exponent : expansion.lead - (expansion.digits.drop 1).length =
      expansion.lead + 1 - expansion.digits.length := by
    rw [List.length_drop]
    omega
  unfold decimal at meant
  rw [Numeral.value?_real (.inr (by simp [numeral]))]
  simp only [numeral, getD_places, List.take_append_drop, Option.map_some, Option.getD_some,
    scale_value, exponent, meant]
  rfl

theorem numeral_writes {units : Nat} {fits : Representable units}
    (meant : expansion.decimal.toBinary64 = .finite false units fits) :
    expansion.numeral.Writes expansion.scientific (.real (.finite false units fits)) :=
  ⟨wellFormed_numeral digits filled, expansion.spelling_numeral, value?_numeral filled meant⟩

theorem laidOut_writes (layout : Binary64.Layout) {units : Nat} {fits : Representable units}
    (meant : expansion.decimal.toBinary64 = .finite false units fits) :
    ∃ numeral : Numeral, numeral.Writes
      (if layout.positional expansion.lead then expansion.positional else expansion.scientific)
      (.real (.finite false units fits)) := by
  split
  · obtain ⟨pointed, spelled, same⟩ := positional_pointed digits filled
    rw [← spelled]
    exact ⟨_, pointed.numeral_writes (same.trans meant)⟩
  · exact ⟨_, numeral_writes digits filled meant⟩

end Decimal.Expansion

/-- However a real number is laid out, it has a point, an exponent, or both. -/
theorem Binary64.Layout.magnitude_writes (layout : Layout) (fits : Representable units) :
    ∃ numeral : Numeral, numeral.Writes (layout.magnitude units fits)
      (.real (.finite false units fits)) := by
  by_cases zero : units = 0
  · subst zero
    have none : Text.digitsValue (['0'] ++ ['0']) = 0 := Text.digitsValue_zeros 2
    have meant : (Pointed.mk ['0'] ['0'] (Text.digits_zeros 1) (Text.digits_zeros 1)
        (by simp)).decimal.toBinary64 = .finite false 0 fits := by
      rw [Pointed.decimal, Decimal.toBinary64, if_pos none]
      rfl
    exact ⟨_, Pointed.numeral_writes meant⟩
  · have meant : (Decimal.shortest units fits).expansion.decimal.toBinary64 =
        .finite false units fits := by
      rw [Decimal.toBinary64_expansion, Decimal.toBinary64_shortest]
    have written := Decimal.Expansion.laidOut_writes (Decimal.expansion_digits _)
      (shortest_digits fits zero) layout meant
    rwa [magnitude, if_neg zero]

end Reals

theorem Number.quotedText_writes {number : Number} (unsigned : number.isUnsigned = true) :
    ∃ numeral : Numeral, numeral.Writes number.quotedText number := by
  cases number with
  | integer n => exact ⟨_, Integer.numeral_writes (of_decide_eq_true unsigned)⟩
  | real x =>
      cases x with
      | finite negative units fits =>
          cases negative with
          | false =>
              simp only [quotedText, Binary64.quotedText, Binary64.Layout.text, Binary64.withSign,
                Bool.false_eq_true, ↓reduceIte]
              exact Binary64.quoted.magnitude_writes fits
          | true => contradiction
      | infinite | nan => contradiction

section Spaced

variable {rest : Text} (spaced : ∀ c, rest.head? = some c → c = ' ')
include spaced

theorem lex_writes {numeral : Numeral} {text : Text} {number : Number}
    (writes : numeral.Writes text number) :
    lex (text ++ rest) = (lex rest).map (.atom (.number number) :: ·) := by
  obtain ⟨wellFormed, rfl, value⟩ := writes
  have stops : ∀ c, rest.head? = some c → Numeral.continues c = false := by
    intro c head
    rw [spaced c head]
    rfl
  rw [lex_numeral wellFormed stops, value]

/-- A token is read off the head of a text as soon as nothing or a space stands behind it. -/
theorem lex_text {token : Token} (printable : token.isPrintable = true) :
    lex (token.text ++ rest) = (lex rest).map (token :: ·) := by
  cases token with
  | atom atom =>
      cases atom with
      | number number =>
          obtain ⟨numeral, writes⟩ := Number.quotedText_writes printable
          exact lex_writes spaced writes
      | name name =>
          apply lex_name printable
          intro c head
          rw [spaced c head]
          rfl
  | operator op => exact lex_operator op rest
  | opening => exact lex_opening rest
  | closing => exact lex_closing rest

end Spaced

/-- Tokens written out, with a space between them. -/
def spacedText (tokens : List Token) : Text := [' '].intercalate (tokens.map Token.text)

theorem lex_spacedText {tokens : List Token}
    (printable : ∀ token ∈ tokens, token.isPrintable = true) :
    lex (spacedText tokens) = .ok tokens := by
  induction tokens with
  | nil => rw [spacedText, List.map_nil, List.intercalate_nil, lex]
  | cons token others ih =>
      obtain ⟨first, later⟩ := List.forall_mem_cons.1 printable
      by_cases last : others = []
      · have nothing : ∀ c, ([] : Text).head? = some c → c = ' ' := by simp
        have alone := lex_text nothing first
        rw [List.append_nil, lex] at alone
        rw [last, spacedText, List.map_singleton, List.intercalate_singleton, alone]
        rfl
      · have space : ∀ c, (' ' :: spacedText others).head? = some c → c = ' ' := by simp
        have behind := lex_text space first
        have filled : others.map Token.text ≠ [] := by simpa using last
        rw [lex_space rfl, ih later] at behind
        rw [spacedText, List.map_cons, List.intercalate_cons_of_ne_nil filled, List.append_assoc]
        exact behind

/-- Tokens that are written out are read back exactly if the numbers among them have no sign and
are finite and the names are identifiers. All tokens that lexing gives are of this kind, so that
writing them out and lexing again changes nothing. -/
theorem written_tokens_read_back (tokens : List Token) :
    (lex (spacedText tokens) = .ok tokens ↔ ∀ token ∈ tokens, token.isPrintable = true) ∧
    ∀ source, lex source = .ok tokens → lex (spacedText tokens) = .ok tokens :=
  ⟨⟨lex_isPrintable, lex_spacedText⟩, fun _ lexed => lex_spacedText (lex_isPrintable lexed)⟩

theorem sixteen_inRange : -2 ^ (63 : Nat) ≤ (16 : Int) ∧ (16 : Int) < 2 ^ (63 : Nat) := by decide

/-- A real number that is written like the integer behind it but for the mark of its exponent, and
a name that is such a mark. -/
def assorted : List Token :=
  [.atom (.number (.real (.ofBits 0x4341C37937E08000))), .operator .sub,
    .atom (.number (.integer ⟨16, sixteen_inRange⟩)), .atom (.name ['e']), .opening,
    .atom (.number (.real (.ofBits 1))), .operator .div,
    .atom (.number (.real (.ofBits 0x4000000000000000))), .closing]

theorem assorted_read_back :
    spacedText assorted = "1e16 - 16 e ( 5e-324 / 2.0 )".toList ∧
      lex "1e16 - 16 e ( 5e-324 / 2.0 )".toList = .ok assorted := by
  have written : spacedText assorted = "1e16 - 16 e ( 5e-324 / 2.0 )".toList := by decide +kernel
  have printable : assorted.all Token.isPrintable = true := by decide +kernel
  have back := (written_tokens_read_back assorted).1.2 (List.all_eq_true.1 printable)
  rw [written] at back
  exact ⟨written, back⟩

end Pseudocode
