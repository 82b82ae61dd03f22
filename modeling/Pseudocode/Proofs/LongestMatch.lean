import Mathlib
import Pseudocode.Proofs.Loading
import Pseudocode.Proofs.Patterns

/-!
Lexing as a rule: pass over the spaces, take the longest beginning of the text that any pattern
matches, and go on behind it. The scan of a single token looks ahead only as far as it has to. It
takes digits, then a fraction if there is one, then an exponent if there is one; and a match that
starts at the same place can nowhere reach beyond what these three have taken.
-/

namespace Pseudocode

section ScannedNumerals

/-- Digits that follow an exponent belong to it. -/
theorem Exponent.scan_covers {exponent : Exponent} (wellFormed : exponent.WellFormed)
    (tail : Text) :
    ∃ longer, scan (exponent.spelling ++ tail) = some (longer, tail.dropWhile Char.isDigit) := by
  obtain ⟨mark, sign, digits⟩ := exponent
  obtain ⟨marked, signed, areDigits, filled⟩ := wellFormed
  have more : Text.IsDigits (tail.takeWhile Char.isDigit) := List.all_eq_true.1 List.all_takeWhile
  have longer : WellFormed ⟨mark, sign, digits ++ tail.takeWhile Char.isDigit⟩ :=
    ⟨marked, signed, areDigits.append more, List.append_ne_nil_of_left_ne_nil filled _⟩
  have stops : ∀ c, (tail.dropWhile Char.isDigit).head? = some c → c.isDigit = false := by
    intro c first
    have other := List.head?_dropWhile_not Char.isDigit tail
    rwa [first] at other
  have shape : (Exponent.mk mark sign digits).spelling ++ tail =
      (Exponent.mk mark sign (digits ++ tail.takeWhile Char.isDigit)).spelling ++
        tail.dropWhile Char.isDigit := by
    simp [spelling, List.takeWhile_append_dropWhile]
  rw [shape]
  exact ⟨_, scan_append longer stops⟩

namespace Numeral

theorem scanExponent_suffix (text : Text) : (scanExponent text).2 <:+ text :=
  ⟨_, scanExponent_spelling text⟩

theorem scanFraction_suffix (text : Text) : (scanFraction text).2 <:+ text :=
  ⟨_, scanFraction_spelling text⟩

theorem scanFraction_covers {digits : Text} (areDigits : Text.IsDigits digits)
    (filled : digits ≠ []) (tail : Text) :
    (scanFraction ('.' :: (digits ++ tail))).1 ≠ none ∧
      (scanFraction ('.' :: (digits ++ tail))).2 = tail.dropWhile Char.isDigit := by
  have taken : ((digits ++ tail).takeWhile Char.isDigit).isEmpty = false := by
    rw [List.takeWhile_append_of_pos areDigits]
    simp [filled]
  simp only [scanFraction, taken, Bool.false_eq_true, ↓reduceIte]
  exact ⟨by simp, List.dropWhile_append_of_pos areDigits⟩

theorem scan_filled {text : Text}
    (filled : text.takeWhile Char.isDigit ≠ [] ∨
      (scanFraction (text.dropWhile Char.isDigit)).1 ≠ none) :
    ∃ numeral, scan text =
      some (numeral, (scanExponent (scanFraction (text.dropWhile Char.isDigit)).2).2) := by
  have found : ¬ ((text.takeWhile Char.isDigit).isEmpty &&
      (scanFraction (text.dropWhile Char.isDigit)).1.isNone) = true := by
    rwa [unfilled_iff, not_not]
  simp only [scan, found]
  exact ⟨_, rfl⟩

/-- Where scanning a text starts with digits and goes on with their fraction and exponent. -/
theorem scan_split {whole rest : Text} (areDigits : Text.IsDigits whole)
    (stops : ∀ c, rest.head? = some c → c.isDigit = false)
    (filled : whole ≠ [] ∨ (scanFraction rest).1 ≠ none) :
    ∃ numeral, scan (whole ++ rest) = some (numeral, (scanExponent (scanFraction rest).2).2) := by
  have taken := Text.takeWhile_run areDigits stops
  have left := Text.dropWhile_run areDigits stops
  have found : (whole ++ rest).takeWhile Char.isDigit ≠ [] ∨
      (scanFraction ((whole ++ rest).dropWhile Char.isDigit)).1 ≠ none := by
    rwa [taken, left]
  obtain ⟨numeral, scanned⟩ := scan_filled found
  rw [left] at scanned
  exact ⟨numeral, scanned⟩

/-- Whatever follows a numeral, scanning takes the whole of it and perhaps more. -/
theorem scan_covers {numeral : Numeral} (wellFormed : numeral.WellFormed) (tail : Text) :
    ∃ longer rest, scan (numeral.spelling ++ tail) = some (longer, rest) ∧ rest <:+ tail := by
  obtain ⟨whole, fraction, exponent⟩ := numeral
  obtain ⟨areDigits, places, scale, filled⟩ := wellFormed
  dsimp only at areDigits places scale filled
  simp only [spelling, List.append_assoc]
  cases exponent with
  | some found =>
      have marked := (scale found rfl).mark
      have ends : ∀ c, (found.spelling ++ tail).head? = some c → c.isDigit = false ∧ c ≠ '.' := by
        rintro c ⟨⟩
        rcases marked with same | same <;> simp [same]
      have fractional := scanFraction_append places ends
      have stops : ∀ c, (fractionSpelling fraction ++ (found.spelling ++ tail)).head? = some c →
          c.isDigit = false := by
        intro c first
        cases fraction with
        | none => exact (ends c first).1
        | some digits =>
            cases first
            rfl
      obtain ⟨longer, scanned⟩ := scan_split areDigits stops (by rwa [fractional])
      obtain ⟨_, exponential⟩ := Exponent.scan_covers (scale found rfl) tail
      rw [fractional, scanExponent, exponential] at scanned
      exact ⟨longer, _, scanned, List.dropWhile_suffix _⟩
  | none =>
      simp only [exponentSpelling, List.nil_append]
      cases fraction with
      | some digits =>
          obtain ⟨filled, left⟩ :=
            scanFraction_covers (places digits rfl).1 (places digits rfl).2 tail
          have stops : ∀ c, ('.' :: (digits ++ tail)).head? = some c → c.isDigit = false := by
            rintro c ⟨⟩
            rfl
          obtain ⟨longer, scanned⟩ := scan_split areDigits stops (.inr filled)
          rw [left] at scanned
          exact ⟨longer, _, scanned, (scanExponent_suffix _).trans (List.dropWhile_suffix _)⟩
      | none =>
          -- The digits may go on in what follows, and so may the point and the exponent.
          have taken : (whole ++ tail).takeWhile Char.isDigit ≠ [] := by
            rw [List.takeWhile_append_of_pos areDigits]
            exact List.append_ne_nil_of_left_ne_nil (by simpa using filled) _
          obtain ⟨longer, scanned⟩ := scan_filled (.inl taken)
          rw [List.dropWhile_append_of_pos areDigits] at scanned
          exact ⟨longer, _, scanned, (scanExponent_suffix _).trans
            ((scanFraction_suffix _).trans (List.dropWhile_suffix _))⟩

theorem spelling_inj {one other : Numeral} (first : one.WellFormed) (second : other.WellFormed)
    (same : one.spelling = other.spelling) : one = other := by
  have nothing : ∀ c, ([] : Text).head? = some c → continues c = false := by simp
  have found := scan_append nothing first
  rw [same, scan_append nothing second] at found
  exact (Prod.mk.inj (Option.some.inj found)).1.symm

end Numeral

end ScannedNumerals

namespace Lexeme

theorem symbol?_matches {c : Char} {token : Token} (symbol : symbol? c = some token) :
    ∃ pattern : Pattern, pattern.Matches [c] ∧ pattern.token? [c] = some token := by
  unfold symbol? at symbol
  by_cases opens : c = '('
  · rw [if_pos opens] at symbol
    cases symbol
    exact ⟨.opening, by rw [opens]; rfl, rfl⟩
  rw [if_neg opens] at symbol
  by_cases closes : c = ')'
  · rw [if_pos closes] at symbol
    cases symbol
    exact ⟨.closing, by rw [closes]; rfl, rfl⟩
  rw [if_neg closes] at symbol
  obtain ⟨op, known, rfl⟩ := Option.map_eq_some_iff.1 symbol
  have same := List.find?_some known
  exact ⟨.operator op, by rw [← of_decide_eq_true same]; rfl, rfl⟩

/-- What is scanned matches a pattern, and has the token of that pattern. -/
theorem scan_matches {c : Char} {rest after : Text} {lexeme : Lexeme}
    (found : scan c rest = some (lexeme, after)) :
    ∃ pattern : Pattern, pattern.Matches lexeme.spelling ∧
      pattern.token? lexeme.spelling = lexeme.token? := by
  rcases scan_cases found with
    ⟨_, rfl, letter, rfl, _⟩ | ⟨_, symbol, rfl, _⟩ | ⟨numeral, scanned, rfl⟩
  · refine ⟨.identifier, Pattern.matches_identifier ?_, rfl⟩
    simp [Text.isIdentifier, letter]
  · exact symbol?_matches symbol
  · have wellFormed := Numeral.scan_wellFormed scanned
    exact ⟨numeral.pattern, Numeral.matches_spelling wellFormed,
      Numeral.token?_spelling wellFormed⟩

theorem scan_numeral {c : Char} (starts : Numeral.starts c = true) (rest : Text) :
    scan c rest = (Numeral.scan (c :: rest)).map fun (numeral, after) =>
      (⟨numeral.spelling, numeral.value?.map fun n => .atom (.number n)⟩, after) := by
  obtain ⟨letter, symbol, _⟩ := starts_only_numerals starts
  simp only [scan, letter, symbol, Bool.false_eq_true, ↓reduceIte]

/-- A text is scanned as a whole, perhaps with more behind it, whatever follows; and where nothing
more is taken, `token?` is what comes of it. -/
structure Covered (token? : Option Token) (c : Char) (rest : Text) : Prop where
  visible : isSpace c = false
  scanned (tail : Text) : ∃ lexeme after, scan c (rest ++ tail) = some (lexeme, after) ∧
    after <:+ tail ∧ (lexeme.spelling = c :: rest → lexeme.token? = token?)

theorem covered_numeral {numeral : Numeral} (wellFormed : numeral.WellFormed) {c : Char}
    {rest : Text} (shape : c :: rest = numeral.spelling) :
    Covered (numeral.pattern.token? numeral.spelling) c rest := by
  obtain ⟨first, others, spelled, starts⟩ := Numeral.spelling_starts wellFormed
  rw [spelled, List.cons.injEq] at shape
  obtain ⟨rfl, rfl⟩ := shape
  refine ⟨(starts_only_numerals starts).2.2, fun tail => ?_⟩
  obtain ⟨longer, after, scanned, suffix⟩ := Numeral.scan_covers wellFormed tail
  have read := scan_numeral starts (rest ++ tail)
  rw [← List.cons_append, ← spelled, scanned] at read
  refine ⟨_, after, read, suffix, fun alone => ?_⟩
  have same : longer = numeral :=
    Numeral.spelling_inj (Numeral.scan_wellFormed scanned) wellFormed (alone.trans spelled.symm)
  rw [same, Numeral.token?_spelling wellFormed]

theorem covered_name {c : Char} {rest : Text} (identifier : Text.isIdentifier (c :: rest) = true) :
    Covered (some (.atom (.name (c :: rest)))) c rest := by
  have plain := Text.plain_of_identifier identifier
  simp only [Text.isIdentifier, Bool.and_eq_true, List.all_eq_true] at identifier
  obtain ⟨letter, others⟩ := identifier
  refine ⟨not_space_of_plain (plain c List.mem_cons_self), fun tail => ?_⟩
  have scanned : scan c (rest ++ tail) = some (⟨_, _⟩, _) := if_pos letter
  refine ⟨_, _, scanned, ?_, ?_⟩
  · rw [List.dropWhile_append_of_pos others]
    exact List.dropWhile_suffix _
  · exact congrArg fun name => some (Token.atom (.name name))

theorem covered_symbol {c : Char} {token : Token} (visible : isSpace c = false)
    (scanned : ∀ tail, scan c tail = some (⟨[c], some token⟩, tail)) :
    Covered (some token) c [] :=
  ⟨visible, fun tail => ⟨_, tail, scanned tail, List.suffix_rfl, fun _ => rfl⟩⟩

theorem covered_of_matches {pattern : Pattern} {c : Char} {rest : Text}
    (found : pattern.Matches (c :: rest)) : Covered (pattern.token? (c :: rest)) c rest := by
  have form := Pattern.form_of_matches found
  generalize shape : c :: rest = text at form
  cases form with
  | numeral numeral wellFormed => exact covered_numeral wellFormed shape
  | identifier name identifier =>
      subst shape
      exact covered_name identifier
  | operator op =>
      cases shape
      cases op <;> exact covered_symbol rfl fun _ => rfl
  | opening =>
      cases shape
      exact covered_symbol rfl fun _ => rfl
  | closing =>
      cases shape
      exact covered_symbol rfl fun _ => rfl

end Lexeme

section LongestMatches

/-- The longest beginning of the text that any pattern matches. -/
structure Longest (pattern : Pattern) (lexeme text : Text) : Prop where
  leads : lexeme <+: text
  matched : pattern.Matches lexeme
  longest : ∀ (other : Pattern) (front : Text), other.Matches front → front <+: text →
    front.length ≤ lexeme.length

theorem Pattern.Matches.filled {pattern : Pattern} {text : Text} (found : pattern.Matches text) :
    ∃ c rest, text = c :: rest := by
  cases form_of_matches found with
  | numeral numeral wellFormed =>
      obtain ⟨c, rest, shape, _⟩ := Numeral.spelling_starts wellFormed
      exact ⟨c, rest, shape⟩
  | identifier _ identifier =>
      cases text with
      | nil => contradiction
      | cons c rest => exact ⟨c, rest, rfl⟩
  | operator | opening | closing => exact ⟨_, [], rfl⟩

namespace Lexeme

/-- No match reaches beyond the lexeme that is scanned. -/
theorem scan_bounds {c : Char} {rest after : Text} {lexeme : Lexeme}
    (found : scan c rest = some (lexeme, after)) {pattern : Pattern} {front : Text}
    (matched : pattern.Matches front) (leads : front <+: c :: rest) :
    front.length ≤ lexeme.spelling.length := by
  obtain ⟨first, others, rfl⟩ := matched.filled
  obtain ⟨tail, whole⟩ := leads
  rw [List.cons_append, List.cons.injEq] at whole
  obtain ⟨rfl, rfl⟩ := whole
  obtain ⟨_, _, scanned, suffix, _⟩ := (covered_of_matches matched).scanned tail
  rw [found] at scanned
  cases scanned
  have lengths := congrArg List.length (scan_spelling found).1
  have bound := suffix.length_le
  simp only [List.length_append, List.length_cons] at lengths ⊢
  omega

theorem scan_longest {c : Char} {rest after : Text} {lexeme : Lexeme}
    (found : scan c rest = some (lexeme, after)) :
    ∃ pattern, Longest pattern lexeme.spelling (c :: rest) ∧
      pattern.token? lexeme.spelling = lexeme.token? := by
  obtain ⟨pattern, matched, token⟩ := scan_matches found
  exact ⟨pattern, ⟨⟨after, (scan_spelling found).1⟩, matched, fun _ _ => scan_bounds found⟩, token⟩

theorem scan_none {c : Char} {rest : Text} (missing : scan c rest = none) (pattern : Pattern)
    (front : Text) (leads : front <+: c :: rest) : ¬ pattern.Matches front := by
  intro matched
  obtain ⟨first, others, rfl⟩ := matched.filled
  obtain ⟨tail, whole⟩ := leads
  rw [List.cons_append, List.cons.injEq] at whole
  obtain ⟨rfl, rfl⟩ := whole
  obtain ⟨_, _, scanned, _⟩ := (covered_of_matches matched).scanned tail
  rw [missing] at scanned
  contradiction

/-- The longest match is what is scanned, and its token is the one of its pattern. -/
theorem scan_of_longest {pattern : Pattern} {c : Char} {rest tail : Text}
    (longest : Longest pattern (c :: rest) (c :: rest ++ tail)) :
    scan c (rest ++ tail) = some (⟨c :: rest, pattern.token? (c :: rest)⟩, tail) := by
  obtain ⟨⟨spelling, token?⟩, after, scanned, suffix, alone⟩ :=
    (covered_of_matches longest.matched).scanned tail
  obtain ⟨other, ⟨leads, matched, _⟩, _⟩ := scan_longest scanned
  have bound := longest.longest other _ matched leads
  have lengths := congrArg List.length (scan_spelling scanned).1
  have same : after = tail := suffix.eq_of_length_le (by simp at lengths bound ⊢; omega)
  subst same
  have shape : spelling = c :: rest := List.append_cancel_right (scan_spelling scanned).1
  have token := alone shape
  simp only at token
  rw [scanned, shape, token]

end Lexeme

end LongestMatches

section WholeTexts

/-- Takes tokens off the head of a text, each of them the longest match behind some spaces, and
leaves the rest. -/
inductive Munches : Text → List Token → Text → Prop where
  | nothing (text : Text) : Munches text [] text
  | token {spaces lexeme rest left : Text} {pattern : Pattern} {token : Token}
      {tokens : List Token} (blank : spaces.IsSpaces)
      (longest : Longest pattern lexeme (lexeme ++ rest))
      (value : pattern.token? lexeme = some token) (others : Munches rest tokens left) :
      Munches (spaces ++ (lexeme ++ rest)) (token :: tokens) left

/-- No token can be taken off the head of a text, and this is to blame: a match without a token,
or a character with which no match starts. -/
inductive Breaks : Text → Text → Prop where
  | rejected {spaces lexeme rest : Text} {pattern : Pattern}
      (blank : spaces.IsSpaces)
      (longest : Longest pattern lexeme (lexeme ++ rest))
      (value : pattern.token? lexeme = none) : Breaks (spaces ++ (lexeme ++ rest)) lexeme
  | unmatched {spaces rest : Text} {c : Char} (blank : spaces.IsSpaces)
      (visible : c ∉ Text.spaceChars)
      (none : ∀ (pattern : Pattern) (front : Text), front <+: c :: rest → ¬ pattern.Matches front) :
      Breaks (spaces ++ c :: rest) [c]

theorem lex_spaces {spaces : Text} (blank : spaces.IsSpaces) (rest : Text) :
    lex (spaces ++ rest) = lex rest := by
  induction spaces with
  | nil => rfl
  | cons c others ih =>
      obtain ⟨first, later⟩ := List.forall_mem_cons.1 blank
      rw [List.cons_append, lex_space ((Text.mem_spaceChars c).1 first), ih later]

theorem lex_longest {pattern : Pattern} {lexeme rest : Text}
    (longest : Longest pattern lexeme (lexeme ++ rest)) :
    lex (lexeme ++ rest) = match pattern.token? lexeme with
      | none => .error (.badToken lexeme)
      | some token => (lex rest).map (token :: ·) := by
  obtain ⟨c, others, rfl⟩ := longest.matched.filled
  exact lex_scanned (Lexeme.covered_of_matches longest.matched).visible
    (Lexeme.scan_of_longest longest)

theorem Munches.lex_eq {source left : Text} {tokens : List Token}
    (munched : Munches source tokens left) : lex source = (lex left).map (tokens ++ ·) := by
  induction munched with
  | nothing text =>
      cases lex text <;> rfl
  | token blank longest value _ ih =>
      rw [lex_spaces blank, lex_longest longest, value, ih]
      cases lex _ <;> rfl

theorem lex_unscanned {c : Char} {rest : Text} (visible : isSpace c = false)
    (missing : Lexeme.scan c rest = none) : lex (c :: rest) = .error (.badToken [c]) := by
  rw [lex_visible visible, missing]

theorem Breaks.lex_eq {text offending : Text} (breaks : Breaks text offending) :
    lex text = .error (.badToken offending) := by
  cases breaks with
  | rejected blank longest value => rw [lex_spaces blank, lex_longest longest, value]
  | @unmatched spaces rest c blank visible none =>
      rw [Text.mem_spaceChars, Bool.not_eq_true] at visible
      rw [lex_spaces blank]
      apply lex_unscanned visible
      cases scanned : Lexeme.scan c rest with
      | none => rfl
      | some found =>
          obtain ⟨pattern, longest, _⟩ := Lexeme.scan_longest scanned
          exact absurd longest.matched (none pattern _ longest.leads)

/-- Tokens can be taken until only spaces are left, or until the text breaks off. -/
theorem munches_or_breaks (source : Text) : ∃ tokens left, Munches source tokens left ∧
    (left.IsSpaces ∨ ∃ offending, Breaks left offending) := by
  induction size : source.length using Nat.strong_induction_on generalizing source with
  | _ length ih =>
  have blank : Text.IsSpaces (source.takeWhile isSpace) := fun c member =>
    (Text.mem_spaceChars c).2 (List.all_eq_true.1 List.all_takeWhile c member)
  have whole : source.takeWhile isSpace ++ source.dropWhile isSpace = source :=
    List.takeWhile_append_dropWhile
  cases core : source.dropWhile isSpace with
  | nil =>
      rw [core, List.append_nil] at whole
      exact ⟨[], source, .nothing source, .inl (whole ▸ blank)⟩
  | cons c rest =>
      have visible : c ∉ Text.spaceChars := by
        have other := List.head?_dropWhile_not isSpace source
        rw [core] at other
        rwa [Text.mem_spaceChars, Bool.not_eq_true]
      rw [core] at whole
      cases scanned : Lexeme.scan c rest with
      | none =>
          refine ⟨[], source, .nothing source, .inr ⟨[c], ?_⟩⟩
          rw [← whole]
          exact .unmatched blank visible fun pattern front => Lexeme.scan_none scanned pattern front
      | some found =>
          obtain ⟨lexeme, after⟩ := found
          obtain ⟨pattern, longest, token⟩ := Lexeme.scan_longest scanned
          obtain ⟨spelled, _⟩ := Lexeme.scan_spelling scanned
          rw [← spelled] at longest whole
          cases value : pattern.token? lexeme.spelling with
          | none =>
              refine ⟨[], source, .nothing source, .inr ⟨lexeme.spelling, ?_⟩⟩
              rw [← whole]
              exact .rejected blank longest value
          | some token =>
              have shorter : after.length < length := by
                have bound := Lexeme.scan_shorter scanned
                have lengths := congrArg List.length whole
                rw [spelled, List.length_append, size] at lengths
                omega
              obtain ⟨tokens, left, munched, ended⟩ := ih _ shorter after rfl
              refine ⟨token :: tokens, left, ?_, ended⟩
              rw [← whole]
              exact .token blank longest value munched

theorem lex_of_spaces {left : Text} (blank : left.IsSpaces) : lex left = .ok [] := by
  have nothing := lex_spaces blank []
  rwa [List.append_nil, lex] at nothing

theorem lex_ok_iff {source : Text} {tokens : List Token} : lex source = .ok tokens ↔
    ∃ spaces, Munches source tokens spaces ∧ spaces.IsSpaces := by
  constructor
  · intro lexed
    obtain ⟨found, left, munched, blank | ⟨offending, breaks⟩⟩ := munches_or_breaks source
    · have same := munched.lex_eq
      rw [lex_of_spaces blank, lexed] at same
      cases same
      exact ⟨left, by simpa using munched, blank⟩
    · have failed := munched.lex_eq
      rw [breaks.lex_eq, lexed] at failed
      cases failed
  · rintro ⟨spaces, munched, blank⟩
    rw [munched.lex_eq, lex_of_spaces blank]
    exact congrArg Except.ok (List.append_nil tokens)

theorem lex_error_iff {source : Text} {cause : BadExpression} : lex source = .error cause ↔
    ∃ text tokens left, cause = .badToken text ∧ Munches source tokens left ∧ Breaks left text := by
  constructor
  · intro failed
    obtain ⟨tokens, left, munched, blank | ⟨offending, breaks⟩⟩ := munches_or_breaks source
    · rw [lex_ok_iff.2 ⟨left, munched, blank⟩] at failed
      cases failed
    · have same := munched.lex_eq
      rw [breaks.lex_eq, failed] at same
      cases same
      exact ⟨offending, tokens, left, rfl, munched, breaks⟩
  · rintro ⟨text, tokens, left, rfl, munched, breaks⟩
    rw [munched.lex_eq, breaks.lex_eq]
    rfl

end WholeTexts

/-- Lexing takes the longest match of any pattern, again and again, and passes over spaces. It gives
the tokens exactly if they are those of such matches and nothing but spaces is left. Otherwise the
expression is invalid, and blamed on what stands where this comes to an end: the whole of the
longest match there if its value is too large, or the one character with which no match starts. -/
theorem lex_takes_longest (source : Text) :
    (∀ tokens, lex source = .ok tokens ↔
      ∃ spaces, Munches source tokens spaces ∧ spaces.IsSpaces) ∧
    ∀ fault, (lex source).mapError Fault.badExpression = .error fault ↔
      ∃ text tokens left, fault = .badExpression (.badToken text) ∧
        Munches source tokens left ∧ Breaks left text := by
  refine ⟨fun _ => lex_ok_iff, fun fault => ?_⟩
  rw [mapError_eq_error]
  constructor
  · rintro ⟨cause, failed, rfl⟩
    obtain ⟨text, tokens, left, rfl, munched, breaks⟩ := lex_error_iff.1 failed
    exact ⟨text, tokens, left, rfl, munched, breaks⟩
  · rintro ⟨text, tokens, left, rfl, munched, breaks⟩
    exact ⟨.badToken text, lex_error_iff.2 ⟨text, tokens, left, rfl, munched, breaks⟩, rfl⟩

-- An exponent without digits is none, so the number ends before the letter.
example : lex "1e+x".toList = .ok
    [.atom (.number (.integer ⟨1, by decide⟩)), .atom (.name ['e']), .operator .add,
      .atom (.name ['x'])] := by cbv

end Pseudocode
