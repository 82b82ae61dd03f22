import Pseudocode.Proofs.ReadBack

/-!
The reader and the whole input. A reader goes from line to line and knows no more than the line it
is on; yet what it gives is said of the input as a whole. Asked for words only, it gives the words
of the input, and asked for lines only, its lines. After a word, a line is what the rest of the
word's line leaves to see, or else the line after it. The current line never ends in the middle of a
line of the input, which is why no word is cut in two where one line gives way to the next.
-/

namespace Pseudocode

namespace Text

/-- The longest pieces without blanks. -/
def words (text : Text) : List Text := (text.splitOnP isBlank).filter (!·.isEmpty)

theorem words_cons_blank {c : Char} (blank : isBlank c = true) (text : Text) :
    words (c :: text) = words text := by
  simp [words, List.splitOnP_cons_eq_if_modifyHead, blank]

theorem words_append_blank {blanks : Text} (blank : ∀ c ∈ blanks, isBlank c = true) (text : Text) :
    words (blanks ++ text) = words text := by
  induction blanks with
  | nil => rfl
  | cons c rest ih =>
      obtain ⟨first, others⟩ := List.forall_mem_cons.1 blank
      rw [List.cons_append, words_cons_blank first, ih others]

theorem words_blank {text : Text} (blank : ∀ c ∈ text, isBlank c = true) : words text = [] := by
  have none := words_append_blank blank []
  rwa [List.append_nil] at none

/-- A word ends at the first blank behind it, or with the text. -/
theorem words_append_word {word rest : Text} (filled : word ≠ [])
    (visible : ∀ c ∈ word, isBlank c = false)
    (stops : ∀ c, rest.head? = some c → isBlank c = true) :
    words (word ++ rest) = word :: words rest := by
  cases rest with
  | nil =>
      rw [List.append_nil, words, List.splitOnP_eq_singleton visible]
      simp [filled, words_blank]
  | cons c tail =>
      have blank := stops c rfl
      rw [words_cons_blank blank, words,
        List.splitOnP_append_cons_of_forall_mem visible c blank tail]
      simp [words, filled]

section WholeLines

/-- The pieces between line feeds; the last one counts only if there is something in it. -/
def linePieces (text : Text) : List Text :=
  if (text.splitOn '\n').getLast? = some [] then (text.splitOn '\n').dropLast
  else text.splitOn '\n'

/-- The lines of a text, each without the carriage returns at its end. -/
def lines (text : Text) : List Text := (linePieces text).map (trimTail (· = '\r'))

theorem linePieces_cons {front : Text} (oneLine : '\n' ∉ front) (rest : Text) :
    linePieces (front ++ '\n' :: rest) = front :: linePieces rest := by
  have some := List.splitOn_ne_nil '\n' rest
  unfold linePieces
  rw [List.splitOn_append_cons_self_of_not_mem oneLine, List.dropLast_cons_of_ne_nil some,
    List.getLast?_cons_of_ne_nil some]
  split <;> rfl

theorem linePieces_last {line : Text} (oneLine : '\n' ∉ line) (filled : line ≠ []) :
    linePieces line = [line] := by
  simp [linePieces, List.splitOn_eq_singleton oneLine, filled]

/-- The current line goes to the end of a line of the text: to a line feed, or to the end. -/
structure WholeLine (line later : Text) : Prop where
  single : SingleLine line
  ends : later = [] ∨ line.getLast? = some '\n'

theorem wholeLine_splitLine (text : Text) :
    WholeLine (splitLine text).1 (splitLine text).2 := by
  refine ⟨splitLine_single text, ?_⟩
  induction text with
  | nil => exact .inl rfl
  | cons c rest ih =>
      by_cases feed : c = '\n'
      · rw [splitLine, if_pos feed]
        exact .inr (by rw [feed]; rfl)
      · rw [splitLine, if_neg feed]
        exact ih.imp_right getLast?_of_cons

theorem SingleLine.cases {line : Text} (single : SingleLine line) :
    '\n' ∉ line ∨ ∃ front, line = front ++ ['\n'] ∧ '\n' ∉ front := by
  by_cases feed : '\n' ∈ line
  · obtain ⟨front, back, shape, absent⟩ := List.eq_append_cons_of_mem feed
    have nothing := single front back shape
    subst nothing
    exact .inr ⟨front, shape, absent⟩
  · exact .inl feed

theorem WholeLine.last_of_absent {line later : Text} (whole : WholeLine line later)
    (absent : '\n' ∉ line) : later = [] :=
  whole.ends.resolve_right fun ends => absent (List.mem_of_getLast? ends)

theorem WholeLine.splitLine_append {line later : Text} (whole : WholeLine line later) :
    splitLine (line ++ later) = (line, later) := by
  rcases whole.single.cases with absent | ⟨front, rfl, absent⟩
  · have last := whole.last_of_absent absent
    subst last
    rw [splitLine_front absent]
    simp [splitLine]
  · rw [List.append_assoc, splitLine_front absent]
    simp [splitLine]

theorem trimTail_line {line : Text} (absent : '\n' ∉ line) :
    trimTail Reader.isLineEnd line = trimTail (· = '\r') line := by
  obtain ⟨tail, whole, ends⟩ := trimTail_append Reader.isLineEnd line
  have returns : ∀ c ∈ tail, decide (c = '\r') = true := by
    intro c member
    have other : c ≠ '\n' := by
      rintro rfl
      exact absent (by rw [← whole]; exact List.mem_append_right _ member)
    simpa [Reader.isLineEnd, other] using ends c member
  have stays : trimTail (· = '\r') (trimTail Reader.isLineEnd line) =
      trimTail Reader.isLineEnd line := by
    apply trimTail_of_last
    intro c last
    have kept := getLast?_trimTail last
    simp only [Reader.isLineEnd, Bool.or_eq_false_iff] at kept
    exact kept.2
  calc trimTail Reader.isLineEnd line
    _ = trimTail (· = '\r') (trimTail Reader.isLineEnd line ++ tail) := by
        rw [trimTail_append_of_all _ returns, stays]
    _ = trimTail (· = '\r') line := by rw [whole]

/-- The current line is the first line of what is left, without its end of line. -/
theorem WholeLine.lines_append {line later : Text} (whole : WholeLine line later)
    (filled : line ≠ []) :
    lines (line ++ later) = trimTail Reader.isLineEnd line :: lines later := by
  rcases whole.single.cases with absent | ⟨front, rfl, absent⟩
  · have last := whole.last_of_absent absent
    subst last
    rw [List.append_nil, trimTail_line absent, lines, linePieces_last absent filled]
    rfl
  · have feed : ∀ c ∈ ['\n'], Reader.isLineEnd c = true := by simp [Reader.isLineEnd]
    rw [trimTail_append_of_all front feed, trimTail_line absent, List.append_assoc,
      List.singleton_append, lines, linePieces_cons absent]
    rfl

theorem lines_splitLine {text : Text} (filled : text ≠ []) :
    lines text = trimTail Reader.isLineEnd (splitLine text).1 :: lines (splitLine text).2 := by
  have first := (wholeLine_splitLine text).lines_append (splitLine_ne_nil filled)
  rwa [splitLine_append] at first

/-- The line that follows a word, given what follows it: the rest of its line, unless there is
nothing to see there, and then the next line. -/
def lineAfter? (following : Text) : Option Text :=
  if (splitLine following).1.all isBlank then (lines (splitLine following).2).head?
  else some (trimTail Reader.isLineEnd (trimStart (splitLine following).1))

end WholeLines

end Text

namespace Reader

theorem holding_inj {pending pending' later later' : Text}
    (same : holding pending later = holding pending' later') :
    pending = pending' ∧ later = later' := by
  rw [holding, holding, Reader.mk.injEq] at same
  refine ⟨same.1, ?_⟩
  have decoded := congrArg Text.ofUtf8? same.2
  rw [Text.ofUtf8?_toUtf8, Text.ofUtf8?_toUtf8] at decoded
  exact Option.some.inj decoded

/-- What is left of the current line goes to the end of a line, unless nothing is left of it. -/
def Aligned (pending later : Text) : Prop := pending = [] ∨ Text.WholeLine pending later

variable {pending later : Text}

theorem Aligned.single (aligned : Aligned pending later) : Text.SingleLine pending := by
  rcases aligned with rfl | whole
  · exact Text.singleLine_nil
  · exact whole.single

/-- Behind a word, the current line is not used up before the line of the text is. -/
theorem Aligned.behind_word {skipped word rest : Text}
    (aligned : Aligned (skipped ++ (word ++ rest)) later) (filled : word ≠ [])
    (visible : ∀ c ∈ word, Text.isBlank c = false) : Text.WholeLine rest later := by
  have whole := aligned.resolve_left (by simp [filled])
  refine ⟨whole.single.suffix ⟨skipped ++ word, List.append_assoc ..⟩, ?_⟩
  refine whole.ends.imp_right fun ends => ?_
  rw [List.getLast?_append, List.getLast?_append, Option.or_assoc, Option.or_eq_some_iff] at ends
  rcases ends with found | ⟨_, inFront⟩
  · exact found
  · have last := List.getLast?_eq_some_getLast filled
    rw [last, Option.some_or, Option.some.injEq] at inFront
    have shown := visible _ (List.getLast_mem filled)
    rw [inFront] at shown
    contradiction

section NextWord

/-- The first word of a text: blanks stand before it, and what is behind it begins with a blank, in
a current line that goes to the end of the word's line. -/
structure FirstWord (text word rest after : Text) : Prop where
  shape : ∃ skipped, text = skipped ++ (word ++ (rest ++ after)) ∧
    ∀ c ∈ skipped, Text.isBlank c = true
  filled : word ≠ []
  visible : ∀ c ∈ word, Text.isBlank c = false
  stops : ∀ c, (rest ++ after).head? = some c → Text.isBlank c = true
  whole : Text.WholeLine rest after

theorem FirstWord.skip {blanks text word rest after : Text}
    (blank : ∀ c ∈ blanks, Text.isBlank c = true) (first : FirstWord text word rest after) :
    FirstWord (blanks ++ text) word rest after := by
  obtain ⟨⟨skipped, rfl, before⟩, filled, visible, stops, whole⟩ := first
  refine ⟨⟨blanks ++ skipped, by rw [List.append_assoc], ?_⟩, filled, visible, stops, whole⟩
  exact List.forall_mem_append.2 ⟨blank, before⟩

theorem FirstWord.words {text word rest after : Text} (first : FirstWord text word rest after) :
    Text.words text = word :: Text.words (rest ++ after) := by
  obtain ⟨⟨skipped, rfl, before⟩, filled, visible, stops, _⟩ := first
  rw [Text.words_append_blank before, Text.words_append_word filled visible stops]

/-- A word in the current line. -/
theorem nextWord_current {c : Char} {others : Text} (aligned : Aligned pending later)
    (trimmed : Text.trimStart pending = c :: others) :
    ∃ word rest, (holding pending later).nextWord = (.ok (some word), holding rest later) ∧
      FirstWord (pending ++ later) word rest later := by
  obtain ⟨skipped, shape, before, shown⟩ := Text.trimStart_cons trimmed
  have parted := List.takeWhile_append_dropWhile (p := (!Text.isBlank ·)) (l := c :: others)
  have visible : ∀ d ∈ (c :: others).takeWhile (!Text.isBlank ·), Text.isBlank d = false := by
    intro d member
    simpa using List.all_eq_true.1 List.all_takeWhile d member
  have filled : (c :: others).takeWhile (!Text.isBlank ·) ≠ [] := by simp [shown]
  have stops := List.head?_dropWhile_not (!Text.isBlank ·) (c :: others)
  refine ⟨_, _, nextWord_pending trimmed, ?_⟩
  generalize (c :: others).takeWhile (!Text.isBlank ·) = word at *
  generalize (c :: others).dropWhile (!Text.isBlank ·) = rest at *
  rw [← parted] at shape
  subst shape
  have whole := aligned.behind_word filled visible
  refine ⟨⟨skipped, by simp only [List.append_assoc], before⟩, filled, visible, ?_, whole⟩
  intro d head
  cases rest with
  | nil =>
      rw [whole.ends.resolve_right (by simp)] at head
      contradiction
  | cons e tail =>
      cases head
      simpa using stops

/-- Blank lines are taken in until one holds a word; the text that follows gets shorter. -/
theorem nextWord_finds (pending later : Text) (aligned : Aligned pending later) :
    ((holding pending later).nextWord = (.ok none, holding [] []) ∧
      ∀ c ∈ pending ++ later, Text.isBlank c = true) ∨
    ∃ word rest after, (holding pending later).nextWord = (.ok (some word), holding rest after) ∧
      FirstWord (pending ++ later) word rest after := by
  cases trimmed : Text.trimStart pending with
  | cons c others =>
      obtain ⟨word, rest, taken, first⟩ := nextWord_current aligned trimmed
      exact .inr ⟨word, rest, later, taken, first⟩
  | nil =>
      have blank := Text.blank_of_trimStart trimmed
      by_cases more : later = []
      · subst more
        exact .inl ⟨nextWord_end trimmed, by rwa [List.append_nil]⟩
      · have shorter := Text.splitLine_shorter more
        have found := nextWord_finds (Text.splitLine later).1 (Text.splitLine later).2
          (.inr (Text.wholeLine_splitLine later))
        rw [← nextWord_fill trimmed more, Text.splitLine_append] at found
        refine found.imp ?_ ?_
        · rintro ⟨ended, others⟩
          exact ⟨ended, List.forall_mem_append.2 ⟨blank, others⟩⟩
        · rintro ⟨word, rest, after, taken, first⟩
          exact ⟨word, rest, after, taken, first.skip blank⟩
termination_by later.length

end NextWord

theorem nextWord_words (aligned : Aligned pending later) :
    ∃ rest after, (holding pending later).nextWord =
        (.ok (Text.words (pending ++ later)).head?, holding rest after) ∧
      Aligned rest after ∧
      Text.words (rest ++ after) = (Text.words (pending ++ later)).tail := by
  rcases nextWord_finds pending later aligned with ⟨ended, blank⟩ | found
  · rw [Text.words_blank blank]
    exact ⟨[], [], ended, .inl rfl, rfl⟩
  · obtain ⟨word, rest, after, taken, first⟩ := found
    rw [first.words]
    exact ⟨rest, after, taken, .inr first.whole, rfl⟩

theorem nextLine_lines (text : Text) :
    ∃ after, (holding [] text).nextLine = (.ok (Text.lines text).head?, holding [] after) ∧
      Text.lines after = (Text.lines text).tail := by
  by_cases filled : text = []
  · subst filled
    exact ⟨[], nextLine_end rfl, rfl⟩
  · rw [Text.lines_splitLine filled]
    exact ⟨(Text.splitLine text).2, nextLine_fill rfl filled, rfl⟩

/-- Where each request of a kind gives the first of the items that are left, requests of that kind
alone give the items in their order, and nothing behind the last. -/
theorem takeAll_replicate {request : Request} (items : Text → List Text)
    (valid : Text → Text → Prop)
    (single : ∀ {pending later}, valid pending later → ∃ rest after,
      (holding pending later).take request =
        (.ok (items (pending ++ later)).head?, holding rest after) ∧
      valid rest after ∧ items (rest ++ after) = (items (pending ++ later)).tail)
    (start : valid pending later) (count : Nat) :
    ((holding pending later).takeAll (List.replicate count request)).1 =
      (List.range count).map fun index => .ok (items (pending ++ later))[index]? := by
  induction count generalizing pending later with
  | zero => rfl
  | succ count ih =>
      obtain ⟨rest, after, taken, kept, left⟩ := single start
      rw [List.replicate_succ, takeAll, taken, List.range_succ_eq_map, List.map_cons,
        List.map_map, ih kept, left]
      simp [Function.comp_def, List.head?_eq_getElem?]

theorem takeAll_words (input : Text) (count : Nat) :
    ((ofBytes (Text.toUtf8 input)).takeAll (List.replicate count .word)).1 =
      (List.range count).map fun index => .ok (Text.words input)[index]? :=
  takeAll_replicate Text.words Aligned nextWord_words (.inl rfl) count

theorem takeAll_lines (input : Text) (count : Nat) :
    ((ofBytes (Text.toUtf8 input)).takeAll (List.replicate count .line)).1 =
      (List.range count).map fun index => .ok (Text.lines input)[index]? := by
  refine takeAll_replicate Text.lines (fun pending _ => pending = []) ?_ rfl count
  rintro _ later rfl
  obtain ⟨after, taken, left⟩ := nextLine_lines later
  exact ⟨[], after, taken, rfl, left⟩

section LineBehindWord

/-- The reader has given these items: it has used up the text up to the last of them, and its
current line goes to the end of a line. -/
structure HasGiven (input : Text) (items : List (Option Text)) (pending later : Text) : Prop where
  aligned : Aligned pending later
  used : ∃ front, input = front ++ (pending ++ later) ∧
    Text.visible front = Text.visible (items.flatMap (·.getD []))

theorem pending_of_nextLine (reader : Reader) : reader.nextLine.2.pending = [] := by
  unfold nextLine
  split
  · rfl
  · split
    · rfl
    · split <;> rfl

theorem take_aligned {request : Request} {item? : Reading} {rest after : Text}
    (aligned : Aligned pending later)
    (taken : (holding pending later).take request = (item?, holding rest after)) :
    Aligned rest after := by
  cases request with
  | word =>
      obtain ⟨_, _, again, kept, _⟩ := nextWord_words aligned
      obtain ⟨rfl, rfl⟩ := holding_inj (congrArg Prod.snd (taken.symm.trans again))
      exact kept
  | line =>
      have used := pending_of_nextLine (holding pending later)
      change (holding pending later).nextLine = _ at taken
      rw [taken] at used
      exact .inl used

theorem take_hasGiven {input : Text} {items : List (Option Text)} (request : Request)
    (given : HasGiven input items pending later) :
    ∃ item? rest after, (holding pending later).take request = (.ok item?, holding rest after) ∧
      HasGiven input (items ++ [item?]) rest after := by
  obtain ⟨item?, rest, after, taken, _, takes⟩ := take_takes request later given.aligned.single
  obtain ⟨front, whole, seen⟩ := given.used
  obtain ⟨piece, left⟩ := takes.suffix
  have shown := takes.visible
  rw [← left, Text.visible_append piece] at shown
  refine ⟨item?, rest, after, taken, take_aligned given.aligned taken, front ++ piece, ?_, ?_⟩
  · rw [whole, ← left, List.append_assoc]
  · rw [Text.visible_append, seen, ← List.append_cancel_right shown, List.flatMap_append,
      Text.visible_append]
    simp

theorem takeAll_hasGiven {input : Text} {earlier : List (Option Text)} (requests : List Request)
    (given : HasGiven input earlier pending later) :
    ∃ items rest after, (holding pending later).takeAll requests =
        (items.map .ok, holding rest after) ∧
      HasGiven input (earlier ++ items) rest after := by
  induction requests generalizing earlier pending later with
  | nil => exact ⟨[], pending, later, rfl, by rwa [List.append_nil]⟩
  | cons request requests ih =>
      obtain ⟨item?, middle, between, taken, next⟩ := take_hasGiven request given
      obtain ⟨items, rest, after, readings, last⟩ := ih next
      refine ⟨item? :: items, rest, after, ?_, by rwa [List.append_assoc] at last⟩
      simp only [takeAll, taken, readings, List.map_cons]

theorem nextLine_behind {rest after : Text} (whole : Text.WholeLine rest after) :
    (holding rest after).nextLine.1 = .ok (Text.lineAfter? (rest ++ after)) := by
  unfold Text.lineAfter?
  rw [whole.splitLine_append]
  cases trimmed : Text.trimStart rest with
  | nil =>
      have blank := List.all_eq_true.2 (Text.blank_of_trimStart trimmed)
      rw [if_pos blank]
      by_cases more : after = []
      · subst more
        rw [nextLine_end trimmed]
        rfl
      · rw [nextLine_fill trimmed more, Text.lines_splitLine more]
        rfl
  | cons c others =>
      obtain ⟨_, shape, _, shown⟩ := Text.trimStart_cons trimmed
      rw [nextLine_pending trimmed, if_neg]
      intro blank
      rw [List.all_eq_true.1 blank c (by simp [shape])] at shown
      contradiction

end LineBehindWord

/-- What a reader gives is what stands in the input as a whole. Asked for words alone, it gives the
words of the input in their order, and then reports the end for good; asked for lines alone, the
lines. And whatever has been asked for before, a line that is asked for right after a word is the
rest of that word's line, or the next line where there is nothing to see in it. The word stands
behind all that has been given before. -/
theorem takes_words_and_lines (input : Text) :
    (∀ count, ((ofBytes (Text.toUtf8 input)).takeAll (List.replicate count .word)).1 =
      (List.range count).map fun index => .ok (Text.words input)[index]?) ∧
    (∀ count, ((ofBytes (Text.toUtf8 input)).takeAll (List.replicate count .line)).1 =
      (List.range count).map fun index => .ok (Text.lines input)[index]?) ∧
    ∀ requests word after,
      ((ofBytes (Text.toUtf8 input)).takeAll requests).2.nextWord = (.ok (some word), after) →
      ∃ (items : List (Option Text)) (front following : Text),
        ((ofBytes (Text.toUtf8 input)).takeAll requests).1 = items.map .ok ∧
        input = front ++ word ++ following ∧
        Text.visible front = Text.visible (items.flatMap (·.getD [])) ∧
        after.nextLine.1 = .ok (Text.lineAfter? following) := by
  refine ⟨takeAll_words input, takeAll_lines input, ?_⟩
  intro requests word after found
  have fresh : HasGiven input [] [] input := ⟨.inl rfl, [], rfl, rfl⟩
  obtain ⟨items, pending, later, taken, given⟩ := takeAll_hasGiven requests fresh
  change (ofBytes (Text.toUtf8 input)).takeAll requests = _ at taken
  rw [taken] at found ⊢
  obtain ⟨front, left, seen⟩ := given.used
  rcases nextWord_finds pending later given.aligned with
    ⟨ended, _⟩ | ⟨_, rest, behind, again, first⟩
  · rw [ended] at found
    cases found
  · rw [again] at found
    cases found
    obtain ⟨skipped, shape, before⟩ := first.shape
    refine ⟨items, front ++ skipped, rest ++ behind, rfl, ?_, ?_, nextLine_behind first.whole⟩
    · rw [left, shape]
      simp only [List.append_assoc]
    · rw [Text.visible_append, Text.visible_blank before, List.append_nil, seen]
      rfl

/-- A word with a blank behind it, a line with nothing but its end, and two words on a last line
without a line feed. -/
def scattered : Text := "7 \r\n\r\na b".toList

theorem scattered_taken :
    ((ofBytes (Text.toUtf8 scattered)).takeAll (List.replicate 4 .word)).1 =
      [.ok (some ['7']), .ok (some ['a']), .ok (some ['b']), .ok none] ∧
    ((ofBytes (Text.toUtf8 scattered)).takeAll (List.replicate 4 .line)).1 =
      [.ok (some ['7', ' ']), .ok (some []), .ok (some ['a', ' ', 'b']), .ok none] ∧
    ∃ front following, scattered = front ++ ['7'] ++ following ∧ Text.visible front = [] ∧
      (ofBytes (Text.toUtf8 scattered)).nextWord.2.nextLine.1 =
        .ok (Text.lineAfter? following) := by
  obtain ⟨words, lines, behind⟩ := takes_words_and_lines scattered
  have named : Text.words scattered = [['7'], ['a'], ['b']] := by decide +kernel
  have lined : Text.lines scattered = [['7', ' '], [], ['a', ' ', 'b']] := by decide +kernel
  rw [named] at words
  rw [lined] at lines
  have first : (ofBytes (Text.toUtf8 scattered)).nextWord.1 = .ok (some ['7']) :=
    List.singleton_inj.1 (words 1)
  obtain ⟨items, front, following, given, whole, seen, line⟩ := behind [] _ _ (Prod.ext first rfl)
  rw [List.map_eq_nil_iff.1 given.symm] at seen
  exact ⟨words 4, lines 4, front, following, whole, seen, line⟩

end Reader

end Pseudocode
