import Pseudocode.Reader
import Pseudocode.Proofs.SourceLines

/-!
What is read is what was there. Words and lines are taken from the same buffer, in any order of
requests; each request takes a piece from the front of what is left, and drops only blanks on
either side of it. So the visible characters of the pieces, in their order, and those of what is
still left are the visible characters of the input. The argument is about the text that a reader
has before it: what is left of the current line, then the lines that are not taken in yet.
-/

namespace Pseudocode

namespace Text

/-- The text up to and including its first line feed, and the text after it. -/
def splitLine : Text → Text × Text
  | [] => ([], [])
  | c :: rest =>
      if c = '\n' then ([c], rest)
      else (c :: (splitLine rest).1, (splitLine rest).2)

theorem splitLine_append (text : Text) : (splitLine text).1 ++ (splitLine text).2 = text := by
  induction text with
  | nil => rfl
  | cons c rest ih =>
      simp only [splitLine]
      split
      · rfl
      · simp [ih]

theorem splitLine_ne_nil {text : Text} (some : text ≠ []) : (splitLine text).1 ≠ [] := by
  cases text with
  | nil => contradiction
  | cons c rest =>
      simp only [splitLine]
      split <;> simp

theorem splitLine_shorter {text : Text} (some : text ≠ []) :
    (splitLine text).2.length < text.length := by
  have lengths := congrArg List.length (splitLine_append text)
  have first := List.length_pos_iff.2 (splitLine_ne_nil some)
  rw [List.length_append] at lengths
  omega

/-- A line feed stands at the end or nowhere. -/
def SingleLine (text : Text) : Prop := ∀ front back, text = front ++ '\n' :: back → back = []

theorem singleLine_nil : SingleLine [] := by
  intro front back shape
  simp at shape

theorem SingleLine.suffix {text tail : Text} (single : SingleLine text) (suffix : tail <:+ text) :
    SingleLine tail := by
  obtain ⟨lead, whole⟩ := suffix
  intro front back shape
  apply single (lead ++ front) back
  rw [← whole, shape, List.append_assoc]

theorem splitLine_single (text : Text) : SingleLine (splitLine text).1 := by
  induction text with
  | nil => exact singleLine_nil
  | cons c rest ih =>
      intro front back shape
      by_cases feed : c = '\n'
      · rw [splitLine, if_pos feed] at shape
        cases front with
        | nil => simp_all
        | cons d others => simp at shape
      · rw [splitLine, if_neg feed] at shape
        cases front with
        | nil => simp [feed] at shape
        | cons d others =>
            rw [List.cons_append, List.cons.injEq] at shape
            exact ih others back shape.2

theorem high_of_mark {mark : UInt8} (high : 128 ≤ mark.toNat) (byte : UInt8) :
    128 ≤ (byte ||| mark).toNat := by
  rw [UInt8.toNat_or]
  exact Nat.le_trans high Nat.right_le_or

/-- No byte of a character that takes more than one is an ASCII character. -/
theorem high_of_wide {c : Char} (wide : c.utf8Size ≠ 1) :
    ∀ byte ∈ String.utf8EncodeChar c, 128 ≤ byte.toNat := by
  rcases c.utf8Size_eq with one | two | three | four
  · contradiction
  · rw [String.utf8EncodeChar_eq_cons_cons two, List.forall_mem_cons, List.forall_mem_singleton]
    exact ⟨high_of_mark (by decide) _, high_of_mark (by decide) _⟩
  · rw [String.utf8EncodeChar_eq_cons_cons_cons three, List.forall_mem_cons, List.forall_mem_cons,
      List.forall_mem_singleton]
    exact ⟨high_of_mark (by decide) _, high_of_mark (by decide) _, high_of_mark (by decide) _⟩
  · rw [String.utf8EncodeChar_eq_cons_cons_cons_cons four, List.forall_mem_cons,
      List.forall_mem_cons, List.forall_mem_cons, List.forall_mem_singleton]
    exact ⟨high_of_mark (by decide) _, high_of_mark (by decide) _, high_of_mark (by decide) _,
      high_of_mark (by decide) _⟩

/-- An ASCII byte stands in the text only for the character with its code. -/
theorem eq_of_ascii {c d : Char} {byte : UInt8} (ascii : byte.toNat < 128)
    (code : d.toNat = byte.toNat) (member : byte ∈ String.utf8EncodeChar c) : c = d := by
  by_cases one : c.utf8Size = 1
  · rw [String.utf8EncodeChar_eq_singleton one, List.mem_singleton] at member
    have small := UInt32.le_iff_toNat_le.1 (Char.utf8Size_eq_one_iff.1 one)
    have same : byte.toNat = c.val.toNat % 256 := congrArg UInt8.toNat member
    change c.val.toNat ≤ 127 at small
    apply Char.toNat_inj.1
    change c.val.toNat = d.toNat
    omega
  · have high := high_of_wide one _ member
    omega

theorem eq_of_lineFeed {c : Char} (member : Reader.lineFeed ∈ String.utf8EncodeChar c) :
    c = '\n' :=
  eq_of_ascii (by decide) (by decide) member

theorem toUtf8_ne_nil {text : Text} (some : text ≠ []) : toUtf8 text ≠ [] := by
  cases text with
  | nil => contradiction
  | cons c rest =>
      rw [toUtf8_cons, ← List.length_pos_iff, List.length_append, String.length_utf8EncodeChar]
      have wide := c.utf8Size_pos
      omega

end Text

namespace Reader

theorem takeLine_front {front : Bytes} (absent : lineFeed ∉ front) (rest : Bytes) :
    takeLine (front ++ rest) = (front ++ (takeLine rest).1, (takeLine rest).2) := by
  induction front with
  | nil => rfl
  | cons byte others ih =>
      rw [List.mem_cons, not_or] at absent
      rw [List.cons_append, takeLine, if_neg (Ne.symm absent.1), ih absent.2]
      rfl

theorem takeLine_toUtf8 (text : Text) :
    takeLine (Text.toUtf8 text) =
      (Text.toUtf8 (Text.splitLine text).1, Text.toUtf8 (Text.splitLine text).2) := by
  induction text with
  | nil => rfl
  | cons c rest ih =>
      by_cases feed : c = '\n'
      · subst feed
        rfl
      · rw [Text.splitLine, if_neg feed, Text.toUtf8_cons,
          takeLine_front (fun member => feed (Text.eq_of_lineFeed member)), ih]
        rfl

section Requests

variable {reader : Reader} {c : Char} {rest : Text}

theorem nextWord_visible (visible : Text.trimStart reader.pending = c :: rest) :
    reader.nextWord = (.ok (some ((c :: rest).takeWhile (!Text.isBlank ·))),
      { reader with pending := (c :: rest).dropWhile (!Text.isBlank ·) }) := by
  rw [nextWord, visible]

theorem nextWord_used (blank : Text.trimStart reader.pending = []) (used : reader.unread = []) :
    reader.nextWord = (.ok none, ⟨[], []⟩) := by
  obtain ⟨pending, unread⟩ := reader
  subst used
  rw [nextWord]
  simp only [blank]

/-- A line that is not UTF-8 is dropped. -/
theorem nextWord_dropped (blank : Text.trimStart reader.pending = []) (filled : reader.unread ≠ [])
    (garbled : Text.ofUtf8? (takeLine reader.unread).1 = none) :
    reader.nextWord = (.error .notUtf8, ⟨[], (takeLine reader.unread).2⟩) := by
  obtain ⟨pending, unread⟩ := reader
  cases unread with
  | nil => contradiction
  | cons byte rest =>
      rw [nextWord]
      simp only [blank, garbled]

theorem nextWord_refill {text : Text} (blank : Text.trimStart reader.pending = [])
    (filled : reader.unread ≠ []) (decoded : Text.ofUtf8? (takeLine reader.unread).1 = some text) :
    reader.nextWord = nextWord ⟨text, (takeLine reader.unread).2⟩ := by
  obtain ⟨pending, unread⟩ := reader
  cases unread with
  | nil => contradiction
  | cons byte rest =>
      rw [nextWord]
      simp only [blank, decoded]

theorem nextLine_visible (visible : Text.trimStart reader.pending = c :: rest) :
    reader.nextLine =
      (.ok (some (Text.trimTail isLineEnd (c :: rest))), { reader with pending := [] }) := by
  rw [nextLine, visible]

theorem nextLine_used (blank : Text.trimStart reader.pending = []) (used : reader.unread = []) :
    reader.nextLine = (.ok none, ⟨[], []⟩) := by
  rw [nextLine, blank, used]

theorem nextLine_dropped (blank : Text.trimStart reader.pending = []) (filled : reader.unread ≠ [])
    (garbled : Text.ofUtf8? (takeLine reader.unread).1 = none) :
    reader.nextLine = (.error .notUtf8, ⟨[], (takeLine reader.unread).2⟩) := by
  obtain ⟨byte, bytes, unread⟩ := List.exists_cons_of_ne_nil filled
  rw [unread] at garbled ⊢
  simp only [nextLine, blank, unread, garbled]

theorem nextLine_refill {text : Text} (blank : Text.trimStart reader.pending = [])
    (filled : reader.unread ≠ []) (decoded : Text.ofUtf8? (takeLine reader.unread).1 = some text) :
    reader.nextLine =
      (.ok (some (Text.trimTail isLineEnd text)), ⟨[], (takeLine reader.unread).2⟩) := by
  obtain ⟨byte, bytes, unread⟩ := List.exists_cons_of_ne_nil filled
  rw [unread] at decoded ⊢
  simp only [nextLine, blank, unread, decoded]

end Requests

/-- Induction along the lines that a request for a word takes in: the current line holds a word, or
nothing is left, or the next line is no text, or it is one and the search goes on in it. -/
theorem refill_induction {motive : Reader → Prop}
    (visible : ∀ {reader : Reader} {c : Char} {rest : Text},
      Text.trimStart reader.pending = c :: rest → motive reader)
    (used : ∀ {reader : Reader}, Text.trimStart reader.pending = [] → reader.unread = [] →
      motive reader)
    (dropped : ∀ {reader : Reader}, Text.trimStart reader.pending = [] → reader.unread ≠ [] →
      Text.ofUtf8? (takeLine reader.unread).1 = none → motive reader)
    (refill : ∀ {reader : Reader} {text : Text}, Text.trimStart reader.pending = [] →
      reader.unread ≠ [] → Text.ofUtf8? (takeLine reader.unread).1 = some text →
      motive ⟨text, (takeLine reader.unread).2⟩ → motive reader)
    (reader : Reader) : motive reader := by
  cases trimmed : Text.trimStart reader.pending with
  | cons c rest => exact visible trimmed
  | nil =>
      by_cases filled : reader.unread = []
      · exact used trimmed filled
      · cases decoded : Text.ofUtf8? (takeLine reader.unread).1 with
        | none => exact dropped trimmed filled decoded
        | some text =>
            refine refill trimmed filled decoded ?_
            exact refill_induction visible used dropped refill ⟨text, (takeLine reader.unread).2⟩
termination_by reader.unread.length
decreasing_by
  obtain ⟨byte, rest, unread⟩ := List.exists_cons_of_ne_nil filled
  rw [unread]
  exact takeLine_shorter byte rest

/-- A reader in the middle of a text: what is left of the current line, and what comes after. -/
def holding (pending later : Text) : Reader := ⟨pending, Text.toUtf8 later⟩

/-- All that is still unread, if it is a text. -/
def remaining? (reader : Reader) : Option Text :=
  (Text.ofUtf8? reader.unread).map (reader.pending ++ ·)

theorem remaining?_holding (pending later : Text) :
    (holding pending later).remaining? = some (pending ++ later) := by
  simp [remaining?, holding, Text.ofUtf8?_toUtf8]

theorem decoded_holding (pending later : Text) :
    Text.ofUtf8? (takeLine (holding pending later).unread).1 = some (Text.splitLine later).1 := by
  rw [holding, takeLine_toUtf8, Text.ofUtf8?_toUtf8]

section Words

variable {pending later rest : Text} {c : Char}

theorem nextWord_pending (visible : Text.trimStart pending = c :: rest) :
    (holding pending later).nextWord =
      (.ok (some ((c :: rest).takeWhile (!Text.isBlank ·))),
        holding ((c :: rest).dropWhile (!Text.isBlank ·)) later) :=
  nextWord_visible visible

theorem nextWord_end (blank : Text.trimStart pending = []) :
    (holding pending []).nextWord = (.ok none, holding [] []) :=
  nextWord_used blank rfl

theorem nextWord_fill (blank : Text.trimStart pending = []) (more : later ≠ []) :
    (holding pending later).nextWord =
      (holding (Text.splitLine later).1 (Text.splitLine later).2).nextWord := by
  have line := takeLine_toUtf8 later
  rw [nextWord_refill blank (Text.toUtf8_ne_nil more) (decoded_holding pending later)]
  simp only [holding, line]

theorem nextLine_pending (visible : Text.trimStart pending = c :: rest) :
    (holding pending later).nextLine =
      (.ok (some (Text.trimTail isLineEnd (c :: rest))), holding [] later) :=
  nextLine_visible visible

theorem nextLine_end (blank : Text.trimStart pending = []) :
    (holding pending []).nextLine = (.ok none, holding [] []) :=
  nextLine_used blank rfl

theorem nextLine_fill (blank : Text.trimStart pending = []) (more : later ≠ []) :
    (holding pending later).nextLine =
      (.ok (some (Text.trimTail isLineEnd (Text.splitLine later).1)),
        holding [] (Text.splitLine later).2) := by
  have line := takeLine_toUtf8 later
  rw [nextLine_refill blank (Text.toUtf8_ne_nil more) (decoded_holding pending later)]
  simp only [holding, line]

end Words

end Reader

namespace Text

/-- The characters that are no blanks. -/
def visible (text : Text) : Text := text.filter (!isBlank ·)

theorem visible_append (front back : Text) :
    visible (front ++ back) = visible front ++ visible back := List.filter_append ..

theorem visible_blank {text : Text} (blank : ∀ c ∈ text, isBlank c = true) :
    visible text = [] := by
  simpa [visible] using blank

theorem blank_of_trimStart {text : Text} (nothing : trimStart text = []) :
    ∀ c ∈ text, isBlank c = true := by
  have whole := trimStart_append text
  rw [nothing, List.append_nil] at whole
  rw [← whole]
  exact List.all_eq_true.1 List.all_takeWhile

theorem trimStart_cons {text rest : Text} {c : Char} (trimmed : trimStart text = c :: rest) :
    ∃ skipped, text = skipped ++ c :: rest ∧ (∀ d ∈ skipped, isBlank d = true) ∧
      isBlank c = false := by
  refine ⟨text.takeWhile isBlank, ?_, List.all_eq_true.1 List.all_takeWhile, ?_⟩
  · rw [← trimmed, trimStart_append]
  · have stops := List.head?_dropWhile_not isBlank text
    unfold trimStart at trimmed
    simpa [trimmed] using stops

theorem getLast?_trimTail {drop : Char → Bool} {text : Text} {c : Char}
    (last : (trimTail drop text).getLast? = some c) : drop c = false := by
  have stops := List.head?_dropWhile_not drop text.reverse
  rw [trimTail, List.getLast?_reverse] at last
  simpa [last] using stops

theorem SingleLine.not_mem_trimTail {text : Text} (single : SingleLine text) :
    '\n' ∉ trimTail Reader.isLineEnd text := by
  intro member
  obtain ⟨front, back, shape⟩ := List.append_of_mem member
  obtain ⟨tail, whole, _⟩ := trimTail_append Reader.isLineEnd text
  have nothing : back ++ tail = [] := by
    apply single front
    rw [← whole, shape, List.append_assoc, List.cons_append]
  have last : (trimTail Reader.isLineEnd text).getLast? = some '\n' := by
    rw [shape, (List.append_eq_nil_iff.1 nothing).1, List.getLast?_concat]
  have kept := getLast?_trimTail last
  contradiction

end Text

namespace Reader

inductive Request where
  | word
  | line
  deriving DecidableEq

def take (reader : Reader) : Request → Reading × Reader
  | .word => reader.nextWord
  | .line => reader.nextLine

/-- What a request takes from the front of a text, and what it leaves. Nothing but blanks stands
before the piece that is taken and between that piece and what is left. -/
inductive Takes (request : Request) : Text → Option Text → Text → Prop where
  | ended {left : Text} (blank : ∀ c ∈ left, Text.isBlank c = true) : Takes request left none []
  | piece {skipped item dropped rest : Text}
      (before : ∀ c ∈ skipped, Text.isBlank c = true)
      (behind : ∀ c ∈ dropped, Text.isBlank c = true)
      (progress : item ++ dropped ≠ [])
      (oneLine : '\n' ∉ item)
      (word : request = .word → item ≠ [] ∧ ∀ c ∈ item, Text.isBlank c = false) :
      Takes request (skipped ++ (item ++ dropped ++ rest)) (some item) rest

namespace Takes

variable {request : Request} {left rest : Text} {item? : Option Text}

theorem skip {front : Text} (blank : ∀ c ∈ front, Text.isBlank c = true)
    (takes : Takes request left item? rest) : Takes request (front ++ left) item? rest := by
  cases takes with
  | ended others => exact .ended (List.forall_mem_append.2 ⟨blank, others⟩)
  | piece before behind progress oneLine word =>
      rw [← List.append_assoc]
      exact .piece (List.forall_mem_append.2 ⟨blank, before⟩) behind progress oneLine word

theorem visible (takes : Takes request left item? rest) :
    Text.visible (item?.getD []) ++ Text.visible rest = Text.visible left := by
  cases takes with
  | ended blank => exact (Text.visible_blank blank).symm
  | piece before behind _ _ _ =>
      simp [Text.visible_append, Text.visible_blank before, Text.visible_blank behind]

theorem suffix (takes : Takes request left item? rest) : rest <:+ left := by
  cases takes with
  | ended _ => exact List.nil_suffix
  | @piece skipped item dropped _ _ _ _ _ _ =>
      exact ⟨skipped ++ (item ++ dropped), List.append_assoc ..⟩

theorem inside {item : Text} (takes : Takes request left (some item) rest) : item <:+: left := by
  cases takes with
  | @piece skipped _ dropped _ _ _ _ _ _ =>
      exact ⟨skipped, dropped ++ rest, by simp only [List.append_assoc]⟩

theorem oneLine {item : Text} (takes : Takes request left (some item) rest) : '\n' ∉ item := by
  cases takes with
  | piece _ _ _ oneLine _ => exact oneLine

/-- Nothing can be taken from nothing. -/
theorem of_nil (takes : Takes request [] item? rest) : item? = none ∧ rest = [] := by
  generalize nothing : ([] : Text) = left at takes
  cases takes with
  | ended _ => exact ⟨rfl, nothing⟩
  | piece _ _ progress _ _ =>
      have empty := (List.append_eq_nil_iff.1 (List.append_eq_nil_iff.1 nothing.symm).2).1
      exact absurd empty progress

end Takes

variable {pending later : Text}

theorem takes_word_of_pending {c : Char} {rest : Text}
    (visible : Text.trimStart pending = c :: rest) :
    Takes .word (pending ++ later) (some ((c :: rest).takeWhile (!Text.isBlank ·)))
      ((c :: rest).dropWhile (!Text.isBlank ·) ++ later) := by
  obtain ⟨skipped, shape, before, first⟩ := Text.trimStart_cons visible
  have letters : ∀ d ∈ (c :: rest).takeWhile (!Text.isBlank ·), Text.isBlank d = false := by
    intro d member
    simpa using List.all_eq_true.1 List.all_takeWhile d member
  have some : (c :: rest).takeWhile (!Text.isBlank ·) ≠ [] := by simp [first]
  have whole : pending ++ later = skipped ++ ((c :: rest).takeWhile (!Text.isBlank ·) ++ [] ++
      ((c :: rest).dropWhile (!Text.isBlank ·) ++ later)) := by
    rw [List.append_nil, ← List.append_assoc (List.takeWhile ..),
      List.takeWhile_append_dropWhile, shape, List.append_assoc]
  rw [whole]
  refine .piece before (by simp) (by simpa using some) ?_ (fun _ => ⟨some, letters⟩)
  intro feed
  have blank := letters _ feed
  contradiction

theorem takes_line {line : Text} (single : Text.SingleLine line) (filled : line ≠ []) :
    Takes .line (line ++ later) (some (Text.trimTail isLineEnd line)) later := by
  obtain ⟨tail, whole, ends⟩ := Text.trimTail_append isLineEnd line
  have behind : ∀ c ∈ tail, Text.isBlank c = true := by
    intro c member
    have ending := ends c member
    simp only [isLineEnd, Bool.or_eq_true, decide_eq_true_eq] at ending
    rcases ending with rfl | rfl <;> decide
  have taken : Takes .line ([] ++ (Text.trimTail isLineEnd line ++ tail ++ later))
      (some (Text.trimTail isLineEnd line)) later :=
    .piece (by simp) behind (by rwa [whole]) single.not_mem_trimTail (by simp)
  rwa [List.nil_append, whole] at taken

/-- Blank lines are taken in until one holds a word; the text that follows gets shorter. -/
theorem take_word_takes (pending later : Text) (single : Text.SingleLine pending) :
    ∃ item? rest after, (holding pending later).nextWord = (.ok item?, holding rest after) ∧
      Text.SingleLine rest ∧ Takes .word (pending ++ later) item? (rest ++ after) := by
  cases trimmed : Text.trimStart pending with
  | cons c others =>
      refine ⟨_, _, _, nextWord_pending trimmed, ?_, takes_word_of_pending trimmed⟩
      obtain ⟨skipped, shape, _⟩ := Text.trimStart_cons trimmed
      exact single.suffix ((List.dropWhile_suffix _).trans ⟨skipped, shape.symm⟩)
  | nil =>
      have blank := Text.blank_of_trimStart trimmed
      by_cases more : later = []
      · subst more
        exact ⟨none, [], [], nextWord_end trimmed, Text.singleLine_nil,
          .ended (by rwa [List.append_nil])⟩
      · have shorter := Text.splitLine_shorter more
        obtain ⟨item?, rest, after, taken, line, takes⟩ :=
          take_word_takes (Text.splitLine later).1 (Text.splitLine later).2
            (Text.splitLine_single later)
        rw [Text.splitLine_append] at takes
        exact ⟨item?, rest, after, (nextWord_fill trimmed more).trans taken, line,
          takes.skip blank⟩
termination_by later.length

theorem take_line_takes (later : Text) {pending : Text} (single : Text.SingleLine pending) :
    ∃ item? rest after, (holding pending later).nextLine = (.ok item?, holding rest after) ∧
      Text.SingleLine rest ∧ Takes .line (pending ++ later) item? (rest ++ after) := by
  cases trimmed : Text.trimStart pending with
  | cons c others =>
      refine ⟨_, _, _, nextLine_pending trimmed, Text.singleLine_nil, ?_⟩
      obtain ⟨skipped, rfl, before, _⟩ := Text.trimStart_cons trimmed
      rw [List.append_assoc]
      exact (takes_line (single.suffix (List.suffix_append ..)) (by simp)).skip before
  | nil =>
      have blank := Text.blank_of_trimStart trimmed
      by_cases more : later = []
      · subst more
        exact ⟨none, [], [], nextLine_end trimmed, Text.singleLine_nil,
          .ended (by rwa [List.append_nil])⟩
      · refine ⟨_, _, _, nextLine_fill trimmed more, Text.singleLine_nil, ?_⟩
        have taken : Takes .line ((Text.splitLine later).1 ++ (Text.splitLine later).2) _ _ :=
          takes_line (Text.splitLine_single later) (Text.splitLine_ne_nil more)
        rw [Text.splitLine_append] at taken
        exact taken.skip blank

theorem take_takes (request : Request) (later : Text) {pending : Text}
    (single : Text.SingleLine pending) :
    ∃ item? rest after, (holding pending later).take request = (.ok item?, holding rest after) ∧
      Text.SingleLine rest ∧ Takes request (pending ++ later) item? (rest ++ after) := by
  cases request with
  | word => exact take_word_takes pending later single
  | line => exact take_line_takes later single

section ManyRequests

def takeAll (reader : Reader) : List Request → List Reading × Reader
  | [] => ([], reader)
  | request :: rest =>
      ((reader.take request).1 :: ((reader.take request).2.takeAll rest).1,
        ((reader.take request).2.takeAll rest).2)

/-- What requests take one after the other. -/
inductive TakesAll : List Request → Text → List (Option Text) → Text → Prop where
  | done {left : Text} : TakesAll [] left [] left
  | next {request : Request} {requests : List Request} {left middle rest : Text}
      {item? : Option Text} {items : List (Option Text)}
      (first : Takes request left item? middle) (others : TakesAll requests middle items rest) :
      TakesAll (request :: requests) left (item? :: items) rest

namespace TakesAll

variable {requests : List Request} {left rest : Text} {items : List (Option Text)}

theorem length (takes : TakesAll requests left items rest) : items.length = requests.length := by
  induction takes with
  | done => rfl
  | next _ _ ih => simp [ih]

theorem visible (takes : TakesAll requests left items rest) :
    Text.visible (items.flatMap (·.getD [])) ++ Text.visible rest = Text.visible left := by
  induction takes with
  | done => rfl
  | next first _ ih =>
      rw [List.flatMap_cons, Text.visible_append, List.append_assoc, ih, first.visible]

theorem words (takes : TakesAll requests left items rest) {word : Text}
    (member : (Request.word, some word) ∈ requests.zip items) :
    word ≠ [] ∧ ∀ c ∈ word, Text.isBlank c = false := by
  induction takes with
  | done => simp at member
  | next first _ ih =>
      rw [List.zip_cons_cons, List.mem_cons] at member
      rcases member with same | later
      · cases same
        cases first with
        | piece _ _ _ _ word => exact word rfl
      · exact ih later

theorem inside (takes : TakesAll requests left items rest) {item : Text}
    (member : some item ∈ items) : item <:+: left ∧ '\n' ∉ item := by
  induction takes with
  | done => contradiction
  | next first _ ih =>
      rcases List.mem_cons.1 member with rfl | later
      · exact ⟨first.inside, first.oneLine⟩
      · obtain ⟨inner, oneLine⟩ := ih later
        exact ⟨inner.trans first.suffix.isInfix, oneLine⟩

theorem of_nil (takes : TakesAll requests left items rest) (nothing : left = []) :
    (∀ item? ∈ items, item? = none) ∧ rest = [] := by
  induction takes with
  | done => exact ⟨by simp, nothing⟩
  | next first _ ih =>
      subst nothing
      obtain ⟨ended, empty⟩ := first.of_nil
      obtain ⟨others, last⟩ := ih empty
      exact ⟨List.forall_mem_cons.2 ⟨ended, others⟩, last⟩

/-- A request is turned down only when nothing visible is left, and then so are all later ones. -/
theorem ended (takes : TakesAll requests left items rest) :
    items.Pairwise (fun earlier later => earlier = none → later = none) ∧
      (none ∈ items → rest = []) := by
  induction takes with
  | done => exact ⟨.nil, by simp⟩
  | @next _ _ _ _ _ item? _ first others ih =>
      cases item? with
      | some item => exact ⟨.cons (by simp) ih.1, by simpa using ih.2⟩
      | none =>
          cases first with
          | ended _ =>
              obtain ⟨allNone, empty⟩ := others.of_nil rfl
              exact ⟨.cons (fun later member _ => allNone later member) ih.1, fun _ => empty⟩

end TakesAll

theorem takeAll_takes (requests : List Request) (later : Text) {pending : Text}
    (single : Text.SingleLine pending) :
    ∃ items rest after, (holding pending later).takeAll requests =
        (items.map .ok, holding rest after) ∧
      TakesAll requests (pending ++ later) items (rest ++ after) := by
  induction requests generalizing pending later with
  | nil => exact ⟨[], pending, later, rfl, .done⟩
  | cons request requests ih =>
      obtain ⟨item?, middle, between, taken, line, first⟩ := take_takes request later single
      obtain ⟨items, rest, after, readings, others⟩ := ih between line
      refine ⟨item? :: items, rest, after, ?_, .next first others⟩
      simp only [takeAll, taken, readings, List.map_cons]

end ManyRequests

end Reader

namespace Text

variable {mark : Char} {piece : Text} (absent : mark ∉ piece)
include absent

theorem leads_first_part (rest : Text) :
    ∃ first others, parts mark (piece ++ rest) = first :: others ∧ piece <+: first := by
  induction piece with
  | nil =>
      obtain ⟨first, others, shape⟩ := List.exists_cons_of_ne_nil (parts_ne_nil mark rest)
      exact ⟨first, others, shape, List.nil_prefix⟩
  | cons c piece ih =>
      rw [List.mem_cons, not_or] at absent
      obtain ⟨first, others, shape, leads⟩ := ih absent.2
      refine ⟨c :: first, others, ?_, List.cons_prefix_cons.2 ⟨rfl, leads⟩⟩
      simp only [List.cons_append, parts, Ne.symm absent.1, ↓reduceIte, shape]

theorem inside_part {text : Text} (inside : piece <:+: text) :
    ∃ part ∈ parts mark text, piece <:+: part := by
  obtain ⟨front, back, rfl⟩ := inside
  induction front with
  | nil =>
      obtain ⟨first, others, shape, leads⟩ := leads_first_part absent back
      rw [List.nil_append, shape]
      exact ⟨first, List.mem_cons_self, leads.isInfix⟩
  | cons c front ih =>
      -- Another character in front either ends a part of its own or lengthens the first one.
      obtain ⟨part, member, inside⟩ := ih
      simp only [List.cons_append, parts]
      by_cases same : c = mark
      · rw [if_pos same]
        exact ⟨part, List.mem_cons_of_mem _ member, inside⟩
      · rw [if_neg same]
        cases shape : parts mark (front ++ piece ++ back) with
        | nil => exact absurd shape (parts_ne_nil _ _)
        | cons first others =>
            rw [shape] at member
            rcases List.mem_cons.1 member with rfl | later
            · exact ⟨c :: part, List.mem_cons_self,
                inside.trans (List.suffix_cons c part).isInfix⟩
            · exact ⟨part, List.mem_cons_of_mem _ later, inside⟩

end Text

namespace Reader

/-- No input is lost, repeated or put in another order. Whatever words and lines are asked for,
the visible characters of all that is returned and of what is then still unread are those of the
input. Every word is a word, every piece comes from one line of the input, and the end is
reported only when nothing is left, from then on for good. -/
theorem takeAll_conserves (input : Text) (requests : List Request) :
    ∃ (items : List (Option Text)) (after : Reader) (left : Text),
      (ofBytes (Text.toUtf8 input)).takeAll requests = (items.map .ok, after) ∧
      items.length = requests.length ∧
      after.remaining? = some left ∧
      Text.visible (items.flatMap (·.getD [])) ++ Text.visible left = Text.visible input ∧
      (∀ word, (Request.word, some word) ∈ requests.zip items →
        word ≠ [] ∧ ∀ c ∈ word, Text.isBlank c = false) ∧
      (∀ item, some item ∈ items → ∃ line ∈ Text.parts '\n' input, item <:+: line) ∧
      items.Pairwise (fun earlier later => earlier = none → later = none) ∧
      (none ∈ items → left = []) := by
  obtain ⟨items, rest, after, taken, takes⟩ := takeAll_takes requests input Text.singleLine_nil
  refine ⟨items, holding rest after, rest ++ after, taken, takes.length,
    remaining?_holding rest after, takes.visible, fun _ => takes.words, ?_, takes.ended⟩
  intro item member
  obtain ⟨inner, oneLine⟩ := takes.inside member
  exact Text.inside_part oneLine inner

end Reader

end Pseudocode
