import Pseudocode.Expr.Lexer
import Pseudocode.Proofs.Trimming

/-!
Lexing, one token at a time: what the text of a token at the head of a source becomes, whatever
follows it. A name has to be followed by a character that cannot continue it. And the other way
round, what a token is that lexing has given: a name, the value of a numeral, or a symbol.
-/

namespace Pseudocode

theorem lex_space {c : Char} (space : isSpace c = true) (rest : Text) :
    lex (c :: rest) = lex rest := by
  rw [lex]
  simp [space]

theorem lex_visible {c : Char} (visible : isSpace c = false) (rest : Text) :
    lex (c :: rest) = match Lexeme.scan c rest with
      | none => .error (.badToken [c])
      | some (lexeme, after) =>
          match lexeme.token? with
          | none => .error (.badToken lexeme.spelling)
          | some token => (lex after).map (token :: ·) := by
  rw [lex, if_neg (by simp [visible])]
  grind

theorem lex_scanned {c : Char} {rest after : Text} {lexeme : Lexeme}
    (visible : isSpace c = false) (scanned : Lexeme.scan c rest = some (lexeme, after)) :
    lex (c :: rest) = match lexeme.token? with
      | none => .error (.badToken lexeme.spelling)
      | some token => (lex after).map (token :: ·) := by
  rw [lex_visible visible, scanned]

theorem lex_lexeme {c : Char} {rest after : Text} {spelling : Text} {token : Token}
    (visible : isSpace c = false)
    (scanned : Lexeme.scan c rest = some (⟨spelling, some token⟩, after)) :
    lex (c :: rest) = (lex after).map (token :: ·) :=
  lex_scanned visible scanned

theorem lex_operator (op : Operator) (rest : Text) :
    lex (op.symbol :: rest) = (lex rest).map (.operator op :: ·) := by
  cases op <;> exact lex_lexeme rfl rfl

theorem not_space_of_plain {c : Char} (plain : Text.isPlain c = true) : isSpace c = false := by
  have space := Text.ne_of_plain plain (show Text.isPlain ' ' = false from rfl)
  have tab := Text.ne_of_plain plain (show Text.isPlain '\t' = false from rfl)
  have feed := Text.ne_of_plain plain (show Text.isPlain '\x0c' = false from rfl)
  simp [isSpace, space, tab, feed]

theorem blank_of_space {c : Char} (space : isSpace c = true) : Text.isBlank c = true := by
  simp only [isSpace, Bool.or_eq_true, decide_eq_true_eq] at space
  rcases space with (rfl | rfl) | rfl <;> decide

theorem lex_name {name rest : Text} (identifier : Text.isIdentifier name = true)
    (stops : ∀ c, rest.head? = some c → Text.isNameChar c = false) :
    lex (name ++ rest) = (lex rest).map (.atom (.name name) :: ·) := by
  have plain := Text.plain_of_identifier identifier
  cases name with
  | nil => contradiction
  | cons first others =>
      simp only [Text.isIdentifier, Bool.and_eq_true, List.all_eq_true] at identifier
      obtain ⟨letter, name⟩ := identifier
      have taken := Text.takeWhile_run name stops
      have left := Text.dropWhile_run name stops
      have scanned : Lexeme.scan first (others ++ rest) =
          some (⟨first :: others, some (.atom (.name (first :: others)))⟩, rest) := by
        simp only [Lexeme.scan, letter, ↓reduceIte, taken, left]
      exact lex_lexeme (not_space_of_plain (plain first List.mem_cons_self)) scanned

namespace Lexeme

theorem symbol?_ne_atom (c : Char) (atom : Atom) : symbol? c ≠ some (.atom atom) := by
  unfold symbol?
  split
  · simp
  · split
    · simp
    · simp

theorem scan_atom {c : Char} {rest after : Text} {lexeme : Lexeme} {atom : Atom}
    (scanned : scan c rest = some (lexeme, after)) (meant : lexeme.token? = some (.atom atom)) :
    (∃ name, Text.isIdentifier name = true ∧ atom = .name name) ∨
      ∃ numeral number, Numeral.value? numeral = some number ∧ atom = .number number := by
  rcases scan_cases scanned with
    ⟨name, rfl, letter, rfl, _⟩ | ⟨token, symbol, rfl, _⟩ | ⟨numeral, _, rfl⟩
  · cases meant
    refine .inl ⟨_, ?_, rfl⟩
    rw [Text.isIdentifier, letter, Bool.true_and]
    exact List.all_takeWhile
  · cases meant
    exact absurd symbol (symbol?_ne_atom c atom)
  · obtain ⟨number, value, same⟩ := Option.map_eq_some_iff.1 meant
    cases same
    exact .inr ⟨numeral, number, value, rfl⟩

end Lexeme

/-- What holds of the token of every lexeme holds of all tokens of a text. -/
theorem forall_lex {property : Token → Prop}
    (each : ∀ {c rest after lexeme token}, Lexeme.scan c rest = some (lexeme, after) →
      lexeme.token? = some token → property token)
    {text : Text} {tokens : List Token} (lexed : lex text = .ok tokens) :
    ∀ token ∈ tokens, property token := by
  fun_induction lex text generalizing tokens with
  | case1 =>
      cases lexed
      simp
  | case2 c rest space ih => exact ih lexed
  | case3 => contradiction
  | case4 => contradiction
  | case5 c rest visible lexeme after scanned token meant ih =>
      cases later : lex after with
      | error cause =>
          rw [later] at lexed
          cases lexed
      | ok others =>
          rw [later] at lexed
          cases lexed
          exact List.forall_mem_cons.2 ⟨each scanned meant, ih later⟩

end Pseudocode
