import Pseudocode.Proofs.Declaring
import Pseudocode.Proofs.Moves
import Pseudocode.Proofs.Reading

/-!
Printed numbers, read back. The text of a number holds no blank, so the reader takes it as one word
as soon as any blank follows it, and leaves that blank and all behind it. A word is read by the
rules for literals of its type, and for these the text of a number is its literal.
-/

namespace Pseudocode

namespace Text

theorem splitLine_front {front : Text} (oneLine : '\n' ∉ front) (rest : Text) :
    splitLine (front ++ rest) = (front ++ (splitLine rest).1, (splitLine rest).2) := by
  induction front with
  | nil => rfl
  | cons c others ih =>
      rw [List.mem_cons, not_or] at oneLine
      rw [List.cons_append, splitLine, if_neg (Ne.symm oneLine.1), ih oneLine.2]
      rfl

theorem splitLine_cons (c : Char) (rest : Text) :
    ∃ line, (splitLine (c :: rest)).1 = c :: line := by
  simp only [splitLine]
  split
  · exact ⟨[], rfl⟩
  · exact ⟨_, rfl⟩

end Text

namespace Reader

/-- A word that the current line starts with is taken up to the blank behind it. -/
theorem nextWord_word {word line later : Text} {c : Char} (filled : word ≠ [])
    (visible : ∀ d ∈ word, Text.isBlank d = false) (blank : Text.isBlank c = true) :
    (holding (word ++ c :: line) later).nextWord =
      (.ok (some word), holding (c :: line) later) := by
  have kept : ∀ d ∈ word, (!Text.isBlank d) = true := by
    intro d member
    rw [visible d member]
    rfl
  have stops : ∀ d, (c :: line).head? = some d → (!Text.isBlank d) = false := by
    rintro d ⟨⟩
    rw [blank]
    rfl
  have taken := Text.takeWhile_run kept stops
  have left := Text.dropWhile_run kept stops
  obtain ⟨d, others, rfl⟩ := List.exists_cons_of_ne_nil filled
  have shown : Text.trimStart (d :: (others ++ c :: line)) = d :: (others ++ c :: line) := by
    apply Text.dropWhile_of_head
    rintro e ⟨⟩
    exact visible d List.mem_cons_self
  rw [List.cons_append] at taken left ⊢
  rw [nextWord_pending shown, taken, left]

theorem nextWord_front {word : Text} {c : Char} (filled : word ≠ [])
    (visible : ∀ d ∈ word, Text.isBlank d = false) (blank : Text.isBlank c = true) (rest : Text) :
    ∃ after, (ofBytes (Text.toUtf8 (word ++ c :: rest))).nextWord = (.ok (some word), after) ∧
      after.remaining? = some (c :: rest) := by
  have oneLine : '\n' ∉ word := by
    intro member
    have shown := visible _ member
    contradiction
  obtain ⟨line, starts⟩ := Text.splitLine_cons c rest
  have whole := Text.splitLine_append (c :: rest)
  rw [starts] at whole
  refine ⟨holding (c :: line) (Text.splitLine (c :: rest)).2, ?_, by
    rw [remaining?_holding, whole]⟩
  have filledLine : word ++ c :: rest ≠ [] := by simp
  change (holding [] (word ++ c :: rest)).nextWord = _
  rw [nextWord_fill rfl filledLine, Text.splitLine_front oneLine, starts]
  exact nextWord_word filled visible blank

end Reader

namespace Number

variable {number : Number} (finite : (Value.number number).IsFinite)
include finite

theorem literal?_text : number.kind.literal? number.text = some (.number number) :=
  Value.literal?_reads finite rfl

theorem text_ne_nil : number.text ≠ [] := Value.literal_ne_nil finite rfl

omit finite in
/-- From the input a number is read as from a declaration. -/
theorem ofInput_eq_literal? {text : Text}
    (meant : number.kind.literal? text = some (.number number)) :
    number.kind.ofInput text = .ok (.number number) := by
  rw [Kind.ofInput_eq_ok]
  cases number with
  | integer n => exact meant
  | real x => exact meant

omit finite in
theorem nextText_kind (number : Number) (reader : Reader) :
    reader.nextText number.kind = reader.nextWord := by
  cases number <;> rfl

theorem nextValue_text {c : Char} (blank : Text.isBlank c = true) (rest : Text) :
    ∃ after, (Reader.ofBytes (Text.toUtf8 (number.text ++ c :: rest))).nextValue number.kind =
        (.ok (.number number), after) ∧ after.remaining? = some (c :: rest) := by
  have visible : ∀ d ∈ number.text, Text.isBlank d = false :=
    fun d member => Text.blank_of_plain (number.plain_text d member)
  obtain ⟨after, taken, left⟩ := Reader.nextWord_front (text_ne_nil finite) visible blank rest
  refine ⟨after, ?_, left⟩
  rw [← nextText_kind number] at taken
  simp only [Reader.nextValue, taken, ofInput_eq_literal? (literal?_text finite)]

end Number

/-- The text of a number, as it is printed, is read back as that number, from the front of any
input in which a blank follows it, and as a literal of its type. -/
theorem printed_number_read_back {number : Number} (finite : (Value.number number).IsFinite)
    {c : Char} (blank : Text.isBlank c = true) (rest : Text) :
    (∃ after, (Reader.ofBytes (Text.toUtf8 ((Value.number number).text ++ c :: rest))).nextValue
        (Value.number number).kind = (.ok (.number number), after) ∧
      after.remaining? = some (c :: rest)) ∧
    (Value.number number).kind.literal? (Value.number number).text = some (.number number) :=
  ⟨Number.nextValue_text finite blank rest, Number.literal?_text finite⟩

theorem minusZero_read_back :
    ∃ after, (Reader.ofBytes (Text.toUtf8 "-0.0\t1".toList)).nextValue .real =
        (.ok (.real (.zero true)), after) ∧ after.remaining? = some "\t1".toList := by
  have spelled : (Value.number (.real (.zero true))).text = "-0.0".toList := by decide +kernel
  have back := @printed_number_read_back (.real (.zero true)) rfl '\t' rfl ['1']
  rw [spelled] at back
  exact back.1

end Pseudocode
