import Pseudocode.Fault

/-!
Tokens of an expression. After any spaces the longest numeral, identifier or symbol
at the head of the text is the next token. A numeral whose value is too large spoils
the text as a whole numeral; a character that starts no token spoils it alone.
-/

namespace Pseudocode

namespace Operator

def ofSymbol? (c : Char) : Option Operator :=
  [Operator.add, .sub, .mul, .div].find? fun op => op.symbol = c

end Operator

/-- A stretch of text that is one token, or would be if its value were not too large. -/
structure Lexeme where
  spelling : Text
  token? : Option Token

namespace Lexeme

def symbol? (c : Char) : Option Token :=
  if c = '(' then some .opening
  else if c = ')' then some .closing
  else (Operator.ofSymbol? c).map .operator

/-- The longest lexeme at the head of a text that starts with `c`, and what follows. -/
def scan (c : Char) (rest : Text) : Option (Lexeme × Text) :=
  if Text.isLetter c then
    let name := c :: rest.takeWhile Text.isNameChar
    some (⟨name, some (.atom (.name name))⟩, rest.dropWhile Text.isNameChar)
  else match symbol? c with
    | some token => some (⟨[c], some token⟩, rest)
    | none =>
        (Numeral.scan (c :: rest)).map fun (numeral, after) =>
          (⟨numeral.spelling, numeral.value?.map fun n => .atom (.number n)⟩, after)

/-- A lexeme is a name, a symbol or a numeral. -/
theorem scan_cases {c : Char} {rest after : Text} {lexeme : Lexeme}
    (found : scan c rest = some (lexeme, after)) :
    (∃ name, name = c :: rest.takeWhile Text.isNameChar ∧ Text.isLetter c = true ∧
      lexeme = ⟨name, some (.atom (.name name))⟩ ∧ after = rest.dropWhile Text.isNameChar) ∨
    (∃ token, symbol? c = some token ∧ lexeme = ⟨[c], some token⟩ ∧ after = rest) ∨
    ∃ numeral, Numeral.scan (c :: rest) = some (numeral, after) ∧
      lexeme = ⟨numeral.spelling, numeral.value?.map fun n => .atom (.number n)⟩ := by
  unfold scan at found
  by_cases letter : Text.isLetter c = true
  · rw [if_pos letter] at found
    cases found
    exact .inl ⟨_, rfl, letter, rfl, rfl⟩
  · rw [if_neg letter] at found
    cases symbol : symbol? c with
    | some token =>
        rw [symbol] at found
        cases found
        exact .inr (.inl ⟨token, rfl, rfl, rfl⟩)
    | none =>
        rw [symbol] at found
        obtain ⟨⟨numeral, tail⟩, scanned, shape⟩ := Option.map_eq_some_iff.1 found
        cases shape
        exact .inr (.inr ⟨numeral, scanned, rfl⟩)

theorem scan_spelling {c : Char} {rest after : Text} {lexeme : Lexeme}
    (found : scan c rest = some (lexeme, after)) :
    lexeme.spelling ++ after = c :: rest ∧ lexeme.spelling ≠ [] := by
  rcases scan_cases found with ⟨_, rfl, _, rfl, rfl⟩ | ⟨_, _, rfl, rfl⟩ | ⟨numeral, scanned, rfl⟩
  · simp [List.takeWhile_append_dropWhile]
  · simp
  · exact ⟨Numeral.scan_spelling scanned, Numeral.scan_nonempty scanned⟩

theorem scan_shorter {c : Char} {rest after : Text} {lexeme : Lexeme}
    (found : scan c rest = some (lexeme, after)) : after.length < (c :: rest).length := by
  obtain ⟨whole, nonempty⟩ := scan_spelling found
  have lengths := congrArg List.length whole
  have positive := List.length_pos_iff.2 nonempty
  simp only [List.length_append] at lengths
  omega

end Lexeme

def lex : Text → Except BadExpression (List Token)
  | [] => .ok []
  | c :: rest =>
      if isSpace c then lex rest
      else match _found : Lexeme.scan c rest with
        | none => .error (.badToken [c])
        | some (lexeme, after) =>
            match lexeme.token? with
            | none => .error (.badToken lexeme.spelling)
            | some token => (lex after).map (token :: ·)
termination_by text => text.length
decreasing_by
  · simp
  · exact Lexeme.scan_shorter _found

end Pseudocode
