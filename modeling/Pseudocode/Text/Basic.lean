/-!
Program text as lists of characters: blanks, trimming, cutting at a character,
identifiers. A blank is any character with the Unicode property `White_Space`,
so a no-break space is trimmed like a space and a zero-width space is not.
-/

namespace Pseudocode

abbrev Text := List Char

namespace Text

/-- The ranges of `White_Space`, both ends included, in ascending order. -/
def blankRanges : List (Nat × Nat) :=
  [(0x09, 0x0D), (0x20, 0x20), (0x85, 0x85), (0xA0, 0xA0), (0x1680, 0x1680),
   (0x2000, 0x200A), (0x2028, 0x2029), (0x202F, 0x202F), (0x205F, 0x205F), (0x3000, 0x3000)]

def isBlank (c : Char) : Bool :=
  blankRanges.any fun range => range.1 ≤ c.toNat && c.toNat ≤ range.2

def trimStart (text : Text) : Text := text.dropWhile isBlank

/-- Drops the longest tail whose characters all satisfy `drop`. -/
def trimTail (drop : Char → Bool) (text : Text) : Text :=
  (text.reverse.dropWhile drop).reverse

def trimEnd (text : Text) : Text := trimTail isBlank text

def trim (text : Text) : Text := trimEnd (trimStart text)

/-- What follows `lead`, if the text starts with it. -/
def after? : (lead text : Text) → Option Text
  | [], text => some text
  | _ :: _, [] => none
  | c :: lead, d :: text => if c = d then after? lead text else none

def startsWith (text lead : Text) : Bool := (after? lead text).isSome

/-- The text without its last character, if that character is `last`. -/
def before? (last : Char) (text : Text) : Option Text :=
  if text.getLast? = some last then some text.dropLast else none

def cut? (mark : Char) : Text → Option (Text × Text)
  | [] => none
  | c :: rest =>
      if c = mark then some ([], rest)
      else (cut? mark rest).map fun parts => (c :: parts.1, parts.2)

/-- The parts between all occurrences of `mark`; there is always at least one. -/
def parts (mark : Char) : Text → List Text
  | [] => [[]]
  | c :: rest =>
      if c = mark then [] :: parts mark rest
      else match parts mark rest with
        | [] => [[c]]
        | first :: others => (c :: first) :: others

def isLetter (c : Char) : Bool := c.isAlpha || c = '_'

def isNameChar (c : Char) : Bool := c.isAlphanum || c = '_'

/-- A letter or underscore, then letters, digits and underscores, all of them ASCII. -/
def isIdentifier : Text → Bool
  | [] => false
  | first :: rest => isLetter first && rest.all isNameChar

/-- Equality that takes an ASCII letter and its capital for the same. -/
def sameLetters (left right : Text) : Bool :=
  left.map Char.toLower = right.map Char.toLower

def ofNat (n : Nat) : Text := Nat.toDigits 10 n

def digitsValue (digits : Text) : Nat := Nat.ofDigitChars 10 digits 0

theorem after?_eq_some {lead text rest : Text} :
    after? lead text = some rest ↔ text = lead ++ rest := by
  induction lead generalizing text with
  | nil => simp [after?, eq_comm]
  | cons c lead ih =>
      cases text with
      | nil => simp [after?]
      | cons d text =>
          by_cases same : c = d
          · simp [after?, same, ih]
          · simp [after?, same, Ne.symm same]

theorem before?_eq_some {last : Char} {text front : Text} :
    before? last text = some front ↔ text = front ++ [last] := by
  unfold before?
  constructor
  · intro found
    by_cases ends : text.getLast? = some last
    · rw [if_pos ends] at found
      cases found
      obtain ⟨front, rfl⟩ := List.getLast?_eq_some_iff.1 ends
      simp
    · rw [if_neg ends] at found
      contradiction
  · intro shape
    simp [shape]

theorem cut?_eq_some {mark : Char} {text left right : Text} :
    cut? mark text = some (left, right) ↔ text = left ++ mark :: right ∧ mark ∉ left := by
  induction text generalizing left with
  | nil => simp [cut?]
  | cons c rest ih =>
      by_cases same : c = mark
      · cases left with
        | nil => simp [cut?, same]
        | cons d left => simp [cut?, same]; intro _ _; simp_all
      · cases left with
        | nil => simp [cut?, same]
        | cons d left =>
            simp only [cut?, same, ↓reduceIte, Option.map_eq_some_iff, Prod.mk.injEq,
              List.cons.injEq, Prod.exists, List.cons_append, List.mem_cons, not_or]
            constructor
            · rintro ⟨front, back, found, ⟨rfl, rfl⟩, rfl⟩
              have shape := ih.1 found
              exact ⟨⟨rfl, shape.1⟩, Ne.symm same, shape.2⟩
            · rintro ⟨⟨rfl, shape⟩, _, absent⟩
              exact ⟨left, right, ih.2 ⟨shape, absent⟩, ⟨rfl, rfl⟩, rfl⟩

theorem cut?_of_absent {mark : Char} {text : Text} (absent : mark ∉ text) :
    cut? mark text = none := by
  cases cut : cut? mark text with
  | none => rfl
  | some sides =>
      obtain ⟨shape, _⟩ := cut?_eq_some.1 cut
      rw [shape] at absent
      simp at absent

theorem parts_ne_nil (mark : Char) (text : Text) : parts mark text ≠ [] := by
  cases text with
  | nil => simp [parts]
  | cons c rest =>
      simp only [parts]
      split
      · simp
      · split <;> simp

end Text

end Pseudocode
