import Pseudocode.Proofs.Comments
import Pseudocode.Proofs.Encoding
import Pseudocode.Proofs.Reading

/-!
What is left of a source. Quotes and comments are described character by character, with no more
memory than the character before; the first comment of a line is then the one at which a scan over
its bytes stops, so that the line is always cut between two characters. The lines that are left are
those whose text before the comment is not blank, and a source written with nothing but these, each
on its own line, has the same lines left.
-/

namespace Pseudocode

namespace Text

section CommentsByCharacter

/-- Whether quotes are open behind a text. A double quote opens or closes them, but one right after
a backslash does not close them. -/
def quotedAfter : (quoted : Bool) → (previous : Option Char) → Text → Bool
  | quoted, _, [] => quoted
  | quoted, previous, c :: rest =>
      let escaped := quoted && previous = some '\\'
      quotedAfter (if c = '"' && !escaped then !quoted else quoted) (some c) rest

/-- A comment begins between the two texts. The flag and the character say what stands before. -/
def CommentAt (quoted : Bool) (previous : Option Char) (front back : Text) : Prop :=
  quotedAfter quoted previous front = false ∧ ∃ note, back = '/' :: '/' :: note

/-- The line up to its first comment, or all of it. -/
structure BeforeComment (line front : Text) : Prop where
  cut : ∃ back, line = front ++ back ∧ (back = [] ∨ CommentAt false none front back)
  first : ∀ shorter later, line = shorter ++ later → CommentAt false none shorter later →
    front.length ≤ shorter.length

theorem opensComment_iff {rest : Text} :
    opensComment rest = true ↔ ∃ note, rest = '/' :: '/' :: note := by
  rw [opensComment, startsWith, Option.isSome_iff_exists]
  simp only [after?_eq_some]
  rfl

/-- No backslash that has been passed takes the next quote. -/
def Unescaped (quoted : Bool) (previous : Option Char) (text : Text) : Prop :=
  quoted = true → previous = some '\\' → text.head? ≠ some '"'

section Steps

variable {quoted : Bool} {previous : Option Char} {c : Char}

theorem unescaped_quote (text : Text) : Unescaped quoted (some '"') text := by
  intro _ backslash
  contradiction

theorem unescaped_passed {text : Text}
    (inside : quoted = true → c = '\\' → text.head? ≠ some '"') : Unescaped quoted (some c) text :=
  fun held backslash => inside held (Option.some.inj backslash)

theorem quotedAfter_other (other : c ≠ '"') (text : Text) :
    quotedAfter quoted previous (c :: text) = quotedAfter quoted (some c) text := by
  simp [quotedAfter, other]

theorem quotedAfter_escaped (text : Text) :
    quotedAfter true previous ('\\' :: '"' :: text) = quotedAfter true (some '"') text := by
  simp [quotedAfter]

theorem Unescaped.quotedAfter_quote {rest : Text}
    (unescaped : Unescaped quoted previous ('"' :: rest)) (text : Text) :
    quotedAfter quoted previous ('"' :: text) = quotedAfter (!quoted) (some '"') text := by
  have free : (quoted && previous = some '\\') = false := by
    rw [Bool.and_eq_false_iff, decide_eq_false_iff_not]
    cases quoted with
    | false => exact .inl rfl
    | true => exact .inr fun backslash => unescaped rfl backslash rfl
  simp [quotedAfter, free]

end Steps

/-- Where the scan stops, no quotes are open. -/
theorem scanOpen_stops {stop : Text → Bool} {quoted : Bool} {previous : Option Char} {line : Text}
    {found : Text × Text} (unescaped : Unescaped quoted previous line)
    (scanned : scanOpen stop quoted line = some found) :
    quotedAfter quoted previous found.1 = false ∧ stop found.2 = true := by
  induction quoted, line using scanOpen_induction stop generalizing previous found with
  | ended quoted =>
      rw [scanOpen] at scanned
      contradiction
  | escaped ih =>
      rw [scanOpen_escaped] at scanned
      obtain ⟨later, read, rfl⟩ := Option.map_eq_some_iff.1 scanned
      obtain ⟨closed, stops⟩ := ih (unescaped_quote _) read
      exact ⟨(quotedAfter_escaped later.1).trans closed, stops⟩
  | quote ih =>
      rw [scanOpen_quote] at scanned
      obtain ⟨later, read, rfl⟩ := Option.map_eq_some_iff.1 scanned
      obtain ⟨closed, stops⟩ := ih (unescaped_quote _) read
      exact ⟨(unescaped.quotedAfter_quote later.1).trans closed, stops⟩
  | accepted other stops =>
      rw [scanOpen_accepted other stops] at scanned
      cases scanned
      exact ⟨rfl, stops⟩
  | passed other inside outside ih =>
      rw [scanOpen_passed other inside outside] at scanned
      obtain ⟨later, read, rfl⟩ := Option.map_eq_some_iff.1 scanned
      obtain ⟨closed, stops⟩ := ih (unescaped_passed inside) read
      exact ⟨(quotedAfter_other other later.1).trans closed, stops⟩

/-- Where the scan stops, a comment begins. -/
theorem commentAt_of_scanOpen {quoted : Bool} {previous : Option Char} {line : Text}
    {found : Text × Text} (unescaped : Unescaped quoted previous line)
    (scanned : scanOpen opensComment quoted line = some found) :
    CommentAt quoted previous found.1 found.2 := by
  obtain ⟨closed, opens⟩ := scanOpen_stops unescaped scanned
  exact ⟨closed, opensComment_iff.1 opens⟩

/-- The scan passes no comment. -/
theorem CommentAt.stops_scan {quoted : Bool} {previous : Option Char} {line front back : Text}
    (unescaped : Unescaped quoted previous line) (shape : line = front ++ back)
    (comment : CommentAt quoted previous front back) :
    ∃ found, scanOpen opensComment quoted line = some found ∧ found.1.length ≤ front.length := by
  obtain ⟨closed, note, begins⟩ := comment
  induction quoted, line using scanOpen_induction opensComment generalizing previous front with
  | ended quoted =>
      rw [begins] at shape
      simp at shape
  | escaped ih =>
      rcases front with _ | ⟨_, _ | ⟨_, others⟩⟩
      · contradiction
      · cases shape
        contradiction
      · cases shape
        rw [quotedAfter_escaped] at closed
        obtain ⟨found, scanned, size⟩ := ih (unescaped_quote _) rfl closed
        refine ⟨_, by rw [scanOpen_escaped, scanned]; rfl, ?_⟩
        simpa [extend] using size
  | quote ih =>
      cases front with
      | nil =>
          rw [begins] at shape
          cases shape
      | cons _ others =>
          cases shape
          rw [unescaped.quotedAfter_quote] at closed
          obtain ⟨found, scanned, size⟩ := ih (unescaped_quote _) rfl closed
          refine ⟨_, by rw [scanOpen_quote, scanned]; rfl, ?_⟩
          simpa [extend] using size
  | accepted other opens => exact ⟨_, scanOpen_accepted other opens, Nat.zero_le _⟩
  | @passed quoted c rest other inside outside ih =>
      cases front with
      | nil =>
          have opens : opensComment (c :: rest) = true :=
            opensComment_iff.2 ⟨note, shape.trans begins⟩
          rw [outside closed] at opens
          contradiction
      | cons _ others =>
          cases shape
          rw [quotedAfter_other other] at closed
          obtain ⟨found, scanned, size⟩ := ih (unescaped_passed inside) rfl closed
          refine ⟨_, by rw [scanOpen_passed other inside outside, scanned]; rfl, ?_⟩
          simpa [extend] using size

theorem unescaped_none (text : Text) : Unescaped false none text := by
  intro _ backslash
  contradiction

theorem beforeComment_withoutComment (line : Text) : BeforeComment line (withoutComment line) := by
  rw [withoutComment_eq]
  cases scanned : scanOpen opensComment false line with
  | none =>
      refine ⟨⟨[], (List.append_nil line).symm, .inl rfl⟩, ?_⟩
      intro shorter later shape comment
      obtain ⟨found, again, _⟩ := comment.stops_scan (unescaped_none line) shape
      rw [scanned] at again
      contradiction
  | some found =>
      refine ⟨⟨found.2, (scanOpen_append scanned).symm, .inr ?_⟩, ?_⟩
      · exact commentAt_of_scanOpen (unescaped_none line) scanned
      · intro shorter later shape comment
        obtain ⟨found, again, size⟩ := comment.stops_scan (unescaped_none line) shape
        rw [scanned] at again
        cases again
        exact size

theorem BeforeComment.le {line front other : Text} (one : BeforeComment line front)
    (two : BeforeComment line other) : front.length ≤ other.length := by
  obtain ⟨back, shape, ended | comment⟩ := two.cut
  · obtain ⟨behind, whole, _⟩ := one.cut
    rw [ended, List.append_nil] at shape
    rw [← shape, whole]
    simp
  · exact one.first other back shape comment

theorem BeforeComment.unique {line front other : Text} (one : BeforeComment line front)
    (two : BeforeComment line other) : front = other := by
  obtain ⟨back, whole, _⟩ := one.cut
  obtain ⟨behind, again, _⟩ := two.cut
  exact (List.append_inj (whole.symm.trans again) (Nat.le_antisymm (one.le two) (two.le one))).1

theorem withoutComment_eq_iff {line front : Text} :
    withoutComment line = front ↔ BeforeComment line front := by
  constructor
  · rintro rfl
    exact beforeComment_withoutComment line
  · exact (beforeComment_withoutComment line).unique

end CommentsByCharacter

section CommentsByByte

def quoteByte : UInt8 := 34

def backslashByte : UInt8 := 92

def slashByte : UInt8 := 47

/-- The index of the first comment, from an index on. -/
def commentFrom? (bytes : Bytes) (quoted : Bool) (index : Nat) : Option Nat :=
  if inside : index < bytes.length then
    if bytes[index] = backslashByte ∧ quoted = true ∧ bytes[index + 1]? = some quoteByte then
      commentFrom? bytes quoted (index + 2)
    else if bytes[index] = quoteByte then commentFrom? bytes (!quoted) (index + 1)
    else if bytes[index] = slashByte ∧ quoted = false ∧ bytes[index + 1]? = some slashByte then
      some index
    else commentFrom? bytes quoted (index + 1)
  else none
termination_by bytes.length - index

/-- Cuts a line at the index of its comment; `none` if it cannot be cut there. -/
def cutComment? (line : Text) : Option Text :=
  match commentFrom? (toUtf8 line) false 0 with
  | some index => (cutAtByte? index line).map Prod.fst
  | none => some line

section Bytes

variable {front rest wide : Bytes} {byte : UInt8} {quoted : Bool}

theorem commentFrom?_length (quoted : Bool) (bytes : Bytes) :
    commentFrom? bytes quoted bytes.length = none := by
  rw [commentFrom?, dif_neg (Nat.lt_irrefl _)]

theorem commentFrom?_step (front : Bytes) (byte : UInt8) (rest : Bytes) (quoted : Bool) :
    commentFrom? (front ++ byte :: rest) quoted front.length =
      if byte = backslashByte ∧ quoted = true ∧ rest.head? = some quoteByte then
        commentFrom? (front ++ byte :: rest) quoted (front.length + 2)
      else if byte = quoteByte then
        commentFrom? (front ++ byte :: rest) (!quoted) (front.length + 1)
      else if byte = slashByte ∧ quoted = false ∧ rest.head? = some slashByte then
        some front.length
      else commentFrom? (front ++ byte :: rest) quoted (front.length + 1) := by
  have inside : front.length < (front ++ byte :: rest).length := by simp
  have next : (front ++ byte :: rest)[front.length + 1]? = rest.head? := by
    rw [List.getElem?_append_right (by omega), List.head?_eq_getElem?]
    simp
  rw [commentFrom?, dif_pos inside, next, List.getElem_append_right (Nat.le_refl _)]
  simp

/-- Bytes that belong to no ASCII character mean nothing. -/
theorem commentFrom?_wide (high : ∀ byte ∈ wide, 128 ≤ byte.toNat) :
    commentFrom? (front ++ (wide ++ rest)) quoted front.length =
      commentFrom? (front ++ (wide ++ rest)) quoted (front.length + wide.length) := by
  induction wide generalizing front with
  | nil => rfl
  | cons byte others ih =>
      obtain ⟨first, later⟩ := List.forall_mem_cons.1 high
      have other : ∀ ascii : UInt8, ascii.toNat < 128 → byte ≠ ascii := by
        rintro ascii small rfl
        omega
      have step := @ih (front ++ [byte]) later
      rw [List.append_assoc, List.singleton_append] at step
      rw [List.cons_append, commentFrom?_step, if_neg fun held => other _ (by decide) held.1,
        if_neg (other _ (by decide)), if_neg fun held => other _ (by decide) held.1]
      rw [List.length_append, List.length_singleton] at step
      rw [step, List.length_cons, Nat.add_right_comm, Nat.add_assoc]

end Bytes

theorem head?_of_ascii {rest : Text} {d : Char} {byte : UInt8} (ascii : byte.toNat < 128)
    (code : d.toNat = byte.toNat) (head : (toUtf8 rest).head? = some byte) :
    rest.head? = some d := by
  cases rest with
  | nil => contradiction
  | cons c others =>
      have filled : String.utf8EncodeChar c ≠ [] := by simp
      obtain ⟨first, later, shape⟩ := List.exists_cons_of_ne_nil filled
      rw [toUtf8_cons, shape, List.cons_append, List.head?_cons, Option.some.injEq] at head
      have member : byte ∈ String.utf8EncodeChar c := by rw [shape, head]; exact List.mem_cons_self
      rw [eq_of_ascii ascii code member]
      rfl

end CommentsByByte

section Characters

variable (used : Text)

theorem commentFrom?_escaped (rest : Text) :
    commentFrom? (toUtf8 (used ++ '\\' :: '"' :: rest)) true (byteLength used) =
      commentFrom? (toUtf8 (used ++ '\\' :: '"' :: rest)) true
        (byteLength (used ++ ['\\', '"'])) := by
  rw [byteLength_append, toUtf8_append]
  exact (commentFrom?_step (toUtf8 used) _ _ true).trans (if_pos ⟨rfl, rfl, rfl⟩)

theorem commentFrom?_quote (rest : Text) (quoted : Bool) :
    commentFrom? (toUtf8 (used ++ '"' :: rest)) quoted (byteLength used) =
      commentFrom? (toUtf8 (used ++ '"' :: rest)) (!quoted) (byteLength (used ++ ['"'])) := by
  have other : quoteByte ≠ backslashByte := by decide
  rw [byteLength_append, toUtf8_append]
  exact (commentFrom?_step (toUtf8 used) _ _ quoted).trans
    ((if_neg fun held => other held.1).trans (if_pos rfl))

theorem commentFrom?_accepted (note : Text) :
    commentFrom? (toUtf8 (used ++ '/' :: '/' :: note)) false (byteLength used) =
      some (byteLength used) := by
  rw [toUtf8_append]
  exact commentFrom?_step (toUtf8 used) _ _ false

theorem commentFrom?_passed {quoted : Bool} {c : Char} {rest : Text} (other : c ≠ '"')
    (inside : quoted = true → c = '\\' → rest.head? ≠ some '"')
    (outside : quoted = false → opensComment (c :: rest) = false) :
    commentFrom? (toUtf8 (used ++ c :: rest)) quoted (byteLength used) =
      commentFrom? (toUtf8 (used ++ c :: rest)) quoted (byteLength (used ++ [c])) := by
  rw [byteLength_append, byteLength_cons, byteLength_nil, Nat.add_zero,
    ← String.length_utf8EncodeChar, toUtf8_append, toUtf8_cons]
  by_cases one : c.utf8Size = 1
  · obtain ⟨byte, single⟩ : ∃ byte, String.utf8EncodeChar c = [byte] :=
      ⟨_, String.utf8EncodeChar_eq_singleton one⟩
    have stands : ∀ {d : Char} {ascii : UInt8}, ascii.toNat < 128 → d.toNat = ascii.toNat →
        byte = ascii → c = d := by
      rintro d ascii small code rfl
      exact eq_of_ascii small code (by rw [single]; exact List.mem_singleton_self byte)
    rw [single, List.singleton_append, List.length_singleton]
    change commentFrom? _ quoted (toUtf8 used).length =
      commentFrom? _ quoted ((toUtf8 used).length + 1)
    rw [commentFrom?_step, if_neg, if_neg, if_neg]
    · rintro ⟨slash, closed, next⟩
      obtain rfl : c = '/' := stands (by decide) (by decide) slash
      obtain ⟨note, rfl⟩ := List.head?_eq_some_iff.1
        (head?_of_ascii (d := '/') (by decide) (by decide) next)
      have opens : opensComment ('/' :: '/' :: note) = true := opensComment_iff.2 ⟨note, rfl⟩
      rw [outside closed] at opens
      contradiction
    · intro quote
      exact other (stands (by decide) (by decide) quote)
    · rintro ⟨backslash, held, next⟩
      exact inside held (stands (by decide) (by decide) backslash)
        (head?_of_ascii (by decide) (by decide) next)
  · exact commentFrom?_wide (high_of_wide one)

end Characters

theorem map_extend (used lead : Text) (found? : Option (Text × Text)) :
    ((found?.map (extend lead)).map fun found => byteLength (used ++ found.1)) =
      found?.map fun found => byteLength (used ++ lead ++ found.1) := by
  rw [Option.map_map]
  simp only [Function.comp_def, extend, List.append_assoc]

/-- The scan over the bytes stops in front of the same character. -/
theorem commentFrom?_toUtf8 (used text : Text) (quoted : Bool) :
    commentFrom? (toUtf8 (used ++ text)) quoted (byteLength used) =
      (scanOpen opensComment quoted text).map fun found => byteLength (used ++ found.1) := by
  induction quoted, text using scanOpen_induction opensComment generalizing used with
  | ended quoted =>
      rw [List.append_nil]
      exact commentFrom?_length quoted (toUtf8 used)
  | escaped ih =>
      have later := ih (used ++ ['\\', '"'])
      rw [List.append_assoc] at later
      rw [commentFrom?_escaped, scanOpen_escaped, map_extend]
      exact later
  | quote ih =>
      have later := ih (used ++ ['"'])
      rw [List.append_assoc] at later
      rw [commentFrom?_quote, scanOpen_quote, map_extend]
      exact later
  | accepted other opens =>
      obtain ⟨note, shape⟩ := opensComment_iff.1 opens
      rw [scanOpen_accepted other opens, shape, commentFrom?_accepted]
      simp
  | @passed quoted c rest other inside outside ih =>
      have later := ih (used ++ [c])
      rw [List.append_assoc] at later
      rw [commentFrom?_passed used other inside outside, scanOpen_passed other inside outside,
        map_extend]
      exact later

/-- The line is cut between two characters, in front of its comment. -/
theorem cutComment?_eq (line : Text) : cutComment? line = some (withoutComment line) := by
  have scanned := commentFrom?_toUtf8 [] line false
  rw [List.nil_append, byteLength_nil] at scanned
  rw [cutComment?, scanned, withoutComment_eq]
  cases found : scanOpen opensComment false line with
  | none => rfl
  | some sides =>
      have cut : cutAtByte? (byteLength sides.1) line = some sides :=
        cutAtByte?_eq_some.2 ⟨(scanOpen_append found).symm, rfl⟩
      simp [cut]

theorem scanOpen_of_withoutComment {line front tail : Text}
    (shape : withoutComment line = front ++ tail) : scanOpen opensComment false front = none := by
  obtain ⟨⟨back, whole, _⟩, first⟩ := withoutComment_eq_iff.1 shape
  cases scanned : scanOpen opensComment false front with
  | none => rfl
  | some found =>
      obtain ⟨closed, note, begins⟩ := commentAt_of_scanOpen (unescaped_none front) scanned
      have parted : front = found.1 ++ '/' :: '/' :: note := by
        rw [← begins, scanOpen_append scanned]
      -- The comment would also be one in the line itself, before the end of its first part.
      have earlier := first found.1 ('/' :: '/' :: note ++ (tail ++ back))
        (by rw [whole, parted]; simp) ⟨closed, note ++ (tail ++ back), rfl⟩
      rw [parted] at earlier
      simp only [List.length_append, List.length_cons] at earlier
      omega

theorem bare_strip {line : Text} (filled : strip line ≠ []) : Bare (strip line) := by
  obtain ⟨tail, whole, _⟩ := trimTail_append isBlank (withoutComment line)
  have last := List.getLast?_eq_some_getLast filled
  exact ⟨scanOpen_of_withoutComment whole.symm, _, last, getLast?_trimTail last⟩

/-- The lines among the pieces between line feeds: the last one counts only if there is something in
it, and the others lose the carriage return before their line feed. -/
def endedLines : List Text → List Text
  | [] => []
  | [last] => if last.isEmpty then [] else [last]
  | line :: next :: rest => (before? '\r' line).getD line :: endedLines (next :: rest)

def textLines (source : Text) : List Text := endedLines (source.splitOn '\n')

theorem strip_return (line : Text) : strip ((before? '\r' line).getD line) = strip line := by
  cases ends : before? '\r' line with
  | none => rfl
  | some front =>
      rw [before?_eq_some.1 ends]
      exact (strip_append_blanks front (List.forall_mem_singleton.2 (by decide))).symm

end Text

theorem meaningful_cons (number : Nat) (text : Text) (rest : List Line) :
    meaningful (⟨number, text⟩ :: rest) =
      if (Text.strip text).isEmpty then meaningful rest
      else ⟨number, Text.strip text⟩ :: meaningful rest := by
  change List.filter _ (_ :: _) = _
  rw [List.filter_cons]
  change (if (!(Text.strip text).isEmpty) = true then _ else _) = _
  cases (Text.strip text).isEmpty <;> rfl

theorem meaningful_endedLines (first : Nat) (pieces : List Text) :
    meaningful (numbered first (Text.endedLines pieces)) = meaningful (numbered first pieces) := by
  fun_induction Text.endedLines pieces generalizing first with
  | case1 => rfl
  | case2 last empty =>
      rw [List.isEmpty_iff.1 empty]
      rfl
  | case3 last filled => rfl
  | case4 line next rest ih =>
      rw [numbered_cons, numbered_cons, meaningful_cons, meaningful_cons, Text.strip_return, ih]

theorem sourceLines_eq_textLines (source : Text) :
    sourceLines source = meaningful (numbered 1 (Text.textLines source)) := by
  rw [sourceLines_eq, Text.textLines, Text.parts_eq_splitOn, meaningful_endedLines]

theorem mem_numbered {first number : Nat} {text : Text} {texts : List Text} :
    ⟨number, text⟩ ∈ numbered first texts ↔
      ∃ index, number = first + index ∧ texts[index]? = some text := by
  constructor
  · intro member
    obtain ⟨⟨_, _⟩, indexed, ⟨⟩⟩ := List.mem_map.1 member
    obtain ⟨low, found⟩ := List.mk_mem_zipIdx_iff_le_and_getElem?_sub.1 indexed
    exact ⟨number - first, by omega, found⟩
  · rintro ⟨index, rfl, found⟩
    refine List.mem_map.2 ⟨(text, first + index), ?_, rfl⟩
    exact List.mk_mem_zipIdx_iff_le_and_getElem?_sub.2 ⟨by omega, by simpa using found⟩

theorem mem_meaningful {first number : Nat} {text : Text} {texts : List Text} :
    ⟨number, text⟩ ∈ meaningful (numbered first texts) ↔
      ∃ index line, number = first + index ∧ texts[index]? = some line ∧
        text = Text.strip line ∧ text ≠ [] := by
  rw [meaningful, map_stripped_numbered, List.mem_filter, mem_numbered]
  simp only [List.getElem?_map, Option.map_eq_some_iff, Bool.not_eq_true',
    List.isEmpty_eq_false_iff]
  constructor
  · rintro ⟨⟨index, place, line, found, rfl⟩, filled⟩
    exact ⟨index, line, place, found, rfl, filled⟩
  · rintro ⟨index, line, place, found, rfl, filled⟩
    exact ⟨⟨index, place, line, found, rfl⟩, filled⟩

/-- Lines that begin with a comment are left out before the others are cut. `none` if some line
cannot be cut at the index that is found in it. -/
def bytewiseLines? (source : Text) : Option (List Line) := do
  let candidates := (numbered 1 (Text.textLines source)).filter fun line =>
    !Text.startsWith (Text.trimStart line.text) ['/', '/']
  let stripped ← candidates.mapM fun line =>
    (Text.cutComment? line.text).map fun text => { line with text := Text.trimEnd text }
  some (stripped.filter fun line => !line.text.isEmpty)

/-- A line that begins with a comment has nothing left anyway. -/
theorem meaningful_filter (lines : List Line) :
    meaningful (lines.filter fun line => !Text.startsWith (Text.trimStart line.text) ['/', '/']) =
      meaningful lines := by
  induction lines with
  | nil => rfl
  | cons line rest ih =>
      cases comment : Text.startsWith (Text.trimStart line.text) ['/', '/'] with
      | true =>
          have remark : Text.isRemark line.text = true := by simp [Text.isRemark, comment]
          rw [meaningful_cons_remark remark line.number rest, ← ih]
          simp [comment]
      | false =>
          rw [List.filter_cons_of_pos (by simp [comment]), meaningful_cons, meaningful_cons, ih]

theorem bytewiseLines?_eq (source : Text) : bytewiseLines? source = some (sourceLines source) := by
  have cut : (fun line : Line => (Text.cutComment? line.text).map fun text =>
      { line with text := Text.trimEnd text }) = fun line => pure line.stripped := by
    funext line
    rw [Text.cutComment?_eq]
    rfl
  rw [bytewiseLines?, cut, sourceLines_eq_textLines, ← meaningful_filter]
  simp only [List.mapM_pure]
  rfl

section WrittenAgain

/-- The lines with as many empty ones between them as their numbers tell. -/
def laidOut : (next : Nat) → List Line → List Text
  | _, [] => []
  | next, line :: rest =>
      List.replicate (line.number - next) [] ++ line.text :: laidOut (line.number + 1) rest

/-- Each line in its place, and ended by a line feed. -/
def layOut (lines : List Line) : Text := (laidOut 1 lines).flatMap (· ++ ['\n'])

theorem meaningful_empty (first count : Nat) :
    meaningful (numbered first (List.replicate count [])) = [] := by
  induction count generalizing first with
  | zero => rfl
  | succ count ih =>
      rw [List.replicate_succ, numbered_cons, meaningful_cons_remark rfl]
      exact ih (first + 1)

theorem meaningful_cons_bare {line : Line} (bare : Text.Bare line.text) (rest : List Line) :
    meaningful (line :: rest) = line :: meaningful rest := by
  have stripped : line.stripped = line := bare.stripped line.number
  have filled : (!line.text.isEmpty) = true := by simpa using bare.ne_nil
  rw [meaningful, List.map_cons, stripped]
  exact List.filter_cons_of_pos filled

theorem meaningful_laidOut {next : Nat} {lines : List Line}
    (increasing : (lines.map Line.number).Pairwise (· < ·))
    (later : ∀ line ∈ lines, next ≤ line.number) (bare : ∀ line ∈ lines, Text.Bare line.text) :
    meaningful (numbered next (laidOut next lines)) = lines := by
  induction lines generalizing next with
  | nil => rfl
  | cons line rest ih =>
      rw [List.map_cons, List.pairwise_cons] at increasing
      obtain ⟨first, _⟩ := List.forall_mem_cons.1 later
      obtain ⟨own, others⟩ := List.forall_mem_cons.1 bare
      have place : next + (line.number - next) = line.number := by omega
      have behind : ∀ other ∈ rest, line.number + 1 ≤ other.number :=
        fun other member => increasing.1 _ (List.mem_map_of_mem member)
      rw [laidOut, numbered_append, meaningful_append, meaningful_empty, List.nil_append,
        List.length_replicate, place, numbered_cons, meaningful_cons_bare own,
        ih increasing.2 behind others]

theorem bare_sourceLines {source : Text} {line : Line} (member : line ∈ sourceLines source) :
    Text.Bare line.text := by
  rw [sourceLines_eq_textLines] at member
  obtain ⟨_, text, _, _, stripped, filled⟩ := mem_meaningful.1 member
  rw [stripped] at filled ⊢
  exact Text.bare_strip filled

theorem oneLine_laidOut {next : Nat} {lines : List Line}
    (oneLine : ∀ line ∈ lines, '\n' ∉ line.text) : ∀ text ∈ laidOut next lines, '\n' ∉ text := by
  induction lines generalizing next with
  | nil => simp [laidOut]
  | cons line rest ih =>
      obtain ⟨own, others⟩ := List.forall_mem_cons.1 oneLine
      rw [laidOut, List.forall_mem_append, List.forall_mem_cons]
      refine ⟨?_, own, ih others⟩
      intro text member
      rw [List.eq_of_mem_replicate member]
      exact List.not_mem_nil

theorem sourceLines_layOut (source : Text) :
    sourceLines (layOut (sourceLines source)) = sourceLines source := by
  have single : ∀ text ∈ laidOut 1 (sourceLines source), '\n' ∉ text :=
    oneLine_laidOut fun _ member => oneLine_sourceLines member
  have positive : ∀ line ∈ sourceLines source, 1 ≤ line.number := by
    intro line member
    rw [sourceLines_eq_textLines] at member
    obtain ⟨index, _, place, _⟩ := mem_meaningful.1 member
    omega
  have behind : meaningful (numbered (1 + (laidOut 1 (sourceLines source)).length) [[]]) = [] :=
    meaningful_empty _ 1
  rw [sourceLines_eq, layOut, Text.parts_lines single, numbered_append, meaningful_append, behind,
    List.append_nil]
  exact meaningful_laidOut (numbers_sourceLines source) positive fun _ => bare_sourceLines

end WrittenAgain

/-- What is left of a source, in increasing order of its lines: the lines in which something can be
seen before the first comment, without the blanks behind it. A scan over the bytes of each line
finds the same and always cuts between two characters, and to leave out the lines that begin with a
comment beforehand changes nothing. What is left stays when it is written again, line for line. -/
theorem sourceLines_exact_and_stable (source : Text) :
    ((sourceLines source).map Line.number).Pairwise (· < ·) ∧
    (∀ number text, ⟨number, text⟩ ∈ sourceLines source ↔
      ∃ index line front, number = index + 1 ∧ (Text.textLines source)[index]? = some line ∧
        Text.BeforeComment line front ∧ text = Text.trimEnd front ∧ text ≠ []) ∧
    bytewiseLines? source = some (sourceLines source) ∧
    sourceLines (layOut (sourceLines source)) = sourceLines source := by
  refine ⟨numbers_sourceLines source, ?_, bytewiseLines?_eq source, sourceLines_layOut source⟩
  intro number text
  rw [sourceLines_eq_textLines, mem_meaningful]
  constructor
  · rintro ⟨index, line, place, found, stripped, filled⟩
    refine ⟨index, line, Text.withoutComment line, by omega, found, ?_, stripped, filled⟩
    exact Text.beforeComment_withoutComment line
  · rintro ⟨index, line, front, place, found, before, trimmed, filled⟩
    rw [← Text.withoutComment_eq_iff.2 before] at trimmed
    exact ⟨index, line, by omega, found, trimmed, filled⟩

-- An escaped quote, slashes inside quotes, a single slash before the comment, and a return.
example : sourceLines "w(\"\\\"//é\") / // n\r\n\n  // x\ny".toList =
    [⟨1, "w(\"\\\"//é\") /".toList⟩, ⟨4, ['y']⟩] := by decide +kernel

end Pseudocode
