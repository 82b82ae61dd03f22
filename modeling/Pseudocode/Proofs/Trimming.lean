import Pseudocode.Text.Basic

/-!
Trimming, and the characters that it leaves alone. A text that neither begins nor ends with a
blank is what trimming leaves of it, whatever blanks are put around it. Names and numbers are
such texts: they are spelled with plain characters, none of which is a blank or means anything
to the scans that cut a line into its parts.
-/

namespace Pseudocode.Text

/-- Neither the first nor the last character is a blank. -/
structure Snug (text : Text) : Prop where
  starts : ∀ c, text.head? = some c → isBlank c = false
  ends : ∀ c, text.getLast? = some c → isBlank c = false

theorem dropWhile_of_head {drop : Char → Bool} {text : Text}
    (kept : ∀ c, text.head? = some c → drop c = false) : text.dropWhile drop = text := by
  cases text with
  | nil => rfl
  | cons c rest => simp [kept c rfl]

section Runs

variable {keep : Char → Bool} {front rest : Text} (kept : ∀ c ∈ front, keep c = true)
  (stops : ∀ c, rest.head? = some c → keep c = false)
include kept stops

/-- A run of characters ends where the first other one stands. -/
theorem takeWhile_run : (front ++ rest).takeWhile keep = front := by
  rw [List.takeWhile_append_of_pos kept]
  cases rest with
  | nil => simp
  | cons c tail => simp [stops c rfl]

theorem dropWhile_run : (front ++ rest).dropWhile keep = rest := by
  rw [List.dropWhile_append_of_pos kept, dropWhile_of_head stops]

end Runs

theorem trimTail_append_of_all {drop : Char → Bool} {tail : Text} (text : Text)
    (dropped : ∀ c ∈ tail, drop c = true) :
    trimTail drop (text ++ tail) = trimTail drop text := by
  unfold trimTail
  rw [List.reverse_append, List.dropWhile_append_of_pos (by simpa using dropped)]

theorem trimTail_of_last {drop : Char → Bool} {text : Text}
    (kept : ∀ c, text.getLast? = some c → drop c = false) : trimTail drop text = text := by
  unfold trimTail
  rw [dropWhile_of_head (by simpa using kept), List.reverse_reverse]

theorem trimTail_append (drop : Char → Bool) (text : Text) :
    ∃ tail, trimTail drop text ++ tail = text ∧ ∀ c ∈ tail, drop c = true := by
  refine ⟨(text.reverse.takeWhile drop).reverse, ?_, ?_⟩
  · unfold trimTail
    rw [← List.reverse_append, List.takeWhile_append_dropWhile, List.reverse_reverse]
  · intro c member
    exact List.all_eq_true.1 List.all_takeWhile c (List.mem_reverse.1 member)

theorem mem_of_trimTail {drop : Char → Bool} {text : Text} {c : Char}
    (member : c ∈ trimTail drop text) : c ∈ text := by
  obtain ⟨tail, whole, _⟩ := trimTail_append drop text
  rw [← whole]
  exact List.mem_append_left tail member

theorem mem_of_trim {text : Text} {c : Char} (member : c ∈ trim text) : c ∈ text :=
  (List.dropWhile_suffix isBlank).mem (mem_of_trimTail member)

theorem trimStart_append (text : Text) : text.takeWhile isBlank ++ trimStart text = text :=
  List.takeWhile_append_dropWhile

theorem mem_trim {text : Text} {c : Char} (member : c ∈ text) (visible : isBlank c = false) :
    c ∈ trim text := by
  obtain ⟨tail, whole, blanks⟩ := trimTail_append isBlank (trimStart text)
  rw [← trimStart_append text, ← whole, List.mem_append, List.mem_append] at member
  rcases member with before | kept | behind
  · rw [List.all_eq_true.1 List.all_takeWhile c before] at visible
    contradiction
  · exact kept
  · rw [blanks c behind] at visible
    contradiction

theorem trimStart_snug {lead text : Text} (blanks : ∀ c ∈ lead, isBlank c = true)
    (starts : ∀ c, text.head? = some c → isBlank c = false) :
    trimStart (lead ++ text) = text :=
  dropWhile_run blanks starts

theorem trimEnd_snug {text tail : Text} (blanks : ∀ c ∈ tail, isBlank c = true)
    (ends : ∀ c, text.getLast? = some c → isBlank c = false) :
    trimEnd (text ++ tail) = text := by
  unfold trimEnd
  rw [trimTail_append_of_all _ blanks, trimTail_of_last ends]

/-- Trimming takes the blanks around a text and nothing else. -/
theorem trim_between {lead core tail : Text} (before : ∀ c ∈ lead, isBlank c = true)
    (after : ∀ c ∈ tail, isBlank c = true) (snug : Snug core) :
    trim (lead ++ core ++ tail) = core := by
  cases core with
  | nil =>
      have nothing : trimStart (lead ++ [] ++ tail) = [] := by
        have blanks : ∀ c ∈ lead ++ tail, isBlank c = true :=
          List.forall_mem_append.2 ⟨before, after⟩
        rw [List.append_nil, ← List.append_nil (lead ++ tail), trimStart,
          List.dropWhile_append_of_pos blanks]
        rfl
      unfold trim
      rw [nothing]
      rfl
  | cons c rest =>
      unfold trim
      rw [List.append_assoc, trimStart_snug before, trimEnd_snug after snug.ends]
      intro d first
      exact snug.starts d first

theorem blank_of_mem_space (c : Char) (member : c ∈ [' ']) : isBlank c = true := by
  rw [List.mem_singleton.1 member]
  decide

section Spaces

variable {core : Text} (snug : Snug core)
include snug

theorem trim_snug : trim core = core := by
  have trimmed := trim_between (by simp : ∀ c ∈ [], isBlank c = true)
    (by simp : ∀ c ∈ [], isBlank c = true) snug
  rwa [List.nil_append, List.append_nil] at trimmed

theorem trim_space_before : trim (' ' :: core) = core := by
  have trimmed := trim_between blank_of_mem_space (by simp : ∀ c ∈ [], isBlank c = true) snug
  rwa [List.append_nil] at trimmed

theorem trim_space_after : trim (core ++ [' ']) = core :=
  trim_between (by simp : ∀ c ∈ [], isBlank c = true) blank_of_mem_space snug

theorem trim_space_around : trim (' ' :: (core ++ [' '])) = core :=
  trim_between blank_of_mem_space blank_of_mem_space snug

end Spaces

/-- The characters of names and numbers. -/
def isPlain (c : Char) : Bool := isNameChar c || c = '.' || c = '-'

theorem plain_of_nameChar {c : Char} (nameChar : isNameChar c = true) : isPlain c = true := by
  simp [isPlain, nameChar]

theorem nameChar_of_digit {c : Char} (digit : c.isDigit = true) : isNameChar c = true := by
  simp [isNameChar, Char.isAlphanum, digit]

theorem ne_of_plain {c d : Char} (plain : isPlain c = true) (special : isPlain d = false) :
    c ≠ d := by
  rintro rfl
  rw [plain] at special
  contradiction

/-- No character of the class is beyond the small letters, or below the minus sign. -/
theorem plain_range {c : Char} (plain : isPlain c = true) : 45 ≤ c.toNat ∧ c.toNat ≤ 122 := by
  have letters : c.isAlpha = (decide ('A'.val ≤ c.val ∧ c.val ≤ 'Z'.val) ||
      (decide ('a'.val ≤ c.val) && decide (c.val ≤ 'z'.val))) := rfl
  simp only [isPlain, isNameChar, Char.isAlphanum, Bool.or_eq_true, decide_eq_true_eq] at plain
  rcases plain with (((alpha | digit) | rfl) | rfl) | rfl
  · simp [letters, UInt32.le_iff_toNat_le] at alpha
    have same : c.val.toNat = c.toNat := rfl
    omega
  · have range := Char.isDigit_iff_toNat.1 digit
    simp at range
    omega
  · decide
  · decide
  · decide

theorem blank_of_plain {c : Char} (plain : isPlain c = true) : isBlank c = false := by
  have range := plain_range plain
  simp [isBlank, blankRanges]
  omega

theorem snug_of_plain {text : Text} (plain : ∀ c ∈ text, isPlain c = true) : Snug text where
  starts := fun c first => blank_of_plain (plain c (List.mem_of_mem_head? first))
  ends := fun c last => blank_of_plain (plain c (List.mem_of_getLast? last))

theorem plain_of_identifier {name : Text} (identifier : isIdentifier name = true) :
    ∀ c ∈ name, isPlain c = true := by
  cases name with
  | nil => contradiction
  | cons first rest =>
      simp only [isIdentifier, Bool.and_eq_true, List.all_eq_true] at identifier
      intro c member
      apply plain_of_nameChar
      rcases List.mem_cons.1 member with rfl | later
      · have letter := identifier.1
        simp only [isLetter, Bool.or_eq_true, decide_eq_true_eq] at letter
        simp only [isNameChar, Char.isAlphanum, Bool.or_eq_true, decide_eq_true_eq]
        rcases letter with alpha | same
        · exact .inl (.inl alpha)
        · exact .inr same
      · exact identifier.2 c later

theorem not_mem_of_plain {text : Text} {d : Char} (plain : ∀ c ∈ text, isPlain c = true)
    (special : isPlain d = false) : d ∉ text :=
  fun member => ne_of_plain (plain d member) special rfl

end Pseudocode.Text
