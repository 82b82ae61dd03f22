import Pseudocode.Proofs.Encoding
import Pseudocode.Proofs.Reading

/-!
Lines that are not texts. A reader decodes one line at a time. A line that cannot be decoded fails
the request that has to take it in, and is gone with it: the next request finds the reader as if the
input began behind that line. This is also said of a reader that keeps the whole of the current line
and a cursor into it, counted in bytes. Its cursor never leaves the line and never stands inside a
character, also not when the line is replaced by one that cannot be decoded.
-/

namespace Pseudocode

namespace Reader

theorem takeLine_ne_nil {bytes : Bytes} (filled : bytes ≠ []) : (takeLine bytes).1 ≠ [] := by
  cases bytes with
  | nil => contradiction
  | cons byte rest =>
      simp only [takeLine]
      split <;> simp

end Reader

/-- The current line, a cursor into it in bytes, and what is not taken in yet. -/
structure LineBuffer where
  line : Text
  cursor : Nat
  source : Bytes

namespace LineBuffer

def ofBytes (input : Bytes) : LineBuffer := ⟨[], 0, input⟩

/-- What stands behind a position of the line; `none` if the line cannot be cut there. -/
def behind? (buffer : LineBuffer) (offset : Nat) : Option Text :=
  (Text.cutAtByte? offset buffer.line).map Prod.snd

/-- Puts the cursor at the start of the next line, and says whether there was one. -/
def load (source : Bytes) : Except Disruption Bool × LineBuffer :=
  match Text.ofUtf8? (Reader.takeLine source).1 with
  | none => (.error .notUtf8, ⟨[], 0, (Reader.takeLine source).2⟩)
  | some line =>
      (.ok (!(Reader.takeLine source).1.isEmpty), ⟨line, 0, (Reader.takeLine source).2⟩)

theorem load_nil : load [] = (.ok false, ⟨[], 0, []⟩) := rfl

theorem load_dropped {source : Bytes} (garbled : Text.ofUtf8? (Reader.takeLine source).1 = none) :
    load source = (.error .notUtf8, ⟨[], 0, (Reader.takeLine source).2⟩) := by
  simp only [load, garbled]

theorem load_line {source : Bytes} {line : Text} (filled : source ≠ [])
    (decoded : Text.ofUtf8? (Reader.takeLine source).1 = some line) :
    load source = (.ok true, ⟨line, 0, (Reader.takeLine source).2⟩) := by
  simp [load, decoded, Reader.takeLine_ne_nil filled]

theorem load_shorter {source : Bytes} {next : LineBuffer}
    (loaded : load source = (.ok true, next)) : next.source.length < source.length := by
  cases source with
  | nil =>
      rw [load_nil] at loaded
      cases loaded
  | cons byte rest =>
      have shorter := Reader.takeLine_shorter byte rest
      unfold load at loaded
      split at loaded
      · cases loaded
      · rw [Prod.mk.injEq] at loaded
        rw [← loaded.2]
        exact shorter

/-- Looks for a word from the cursor on, and moves behind it or to the end of the line. -/
def search? (buffer : LineBuffer) : Option (Option Text × Nat) := do
  let left ← buffer.behind? buffer.cursor
  let start := buffer.cursor + (Text.byteLength left - Text.byteLength (Text.trimStart left))
  let rest ← buffer.behind? start
  if rest.isEmpty then some (none, start)
  else
    let stop := Text.byteLength (rest.takeWhile (!Text.isBlank ·))
    let (word, _) ← Text.cutAtByte? stop rest
    some (some word, start + stop)

def nextWord? (buffer : LineBuffer) : Option (Reading × LineBuffer) :=
  match buffer.search? with
  | none => none
  | some (some word, cursor) => some (.ok (some word), { buffer with cursor := cursor })
  | some (none, _) =>
      match _loaded : load buffer.source with
      | (.error cause, next) => some (.error cause, next)
      | (.ok false, next) => some (.ok none, next)
      | (.ok true, next) => nextWord? next
termination_by buffer.source.length
decreasing_by exact load_shorter _loaded

def nextLine? (buffer : LineBuffer) : Option (Reading × LineBuffer) := do
  let left ← buffer.behind? buffer.cursor
  if (Text.trimStart left).isEmpty then
    match load buffer.source with
    | (.error cause, next) => some (.error cause, next)
    | (.ok false, next) => some (.ok none, next)
    | (.ok true, next) =>
        some (.ok (some (Text.trimTail Reader.isLineEnd next.line)),
          { next with cursor := Text.byteLength next.line })
  else
    some (.ok (some (Text.trimTail Reader.isLineEnd (Text.trimStart left))),
      { buffer with cursor := Text.byteLength buffer.line })

def take? (buffer : LineBuffer) : Reader.Request → Option (Reading × LineBuffer)
  | .word => buffer.nextWord?
  | .line => buffer.nextLine?

def takeAll? (buffer : LineBuffer) : List Reader.Request → Option (List Reading × LineBuffer)
  | [] => some ([], buffer)
  | request :: rest => do
      let (reading, next) ← buffer.take? request
      let (readings, last) ← next.takeAll? rest
      some (reading :: readings, last)

/-- The cursor stands right before what the reader has left of the current line. -/
structure Shows (buffer : LineBuffer) (reader : Reader) : Prop where
  cursor : ∃ used, buffer.line = used ++ reader.pending ∧ buffer.cursor = Text.byteLength used
  source : buffer.source = reader.unread

variable {buffer : LineBuffer} {reader : Reader}

theorem shows_ofBytes (input : Bytes) : (ofBytes input).Shows (.ofBytes input) :=
  ⟨⟨[], rfl, rfl⟩, rfl⟩

theorem behind?_of_append {buffer : LineBuffer} {used left : Text} {offset : Nat}
    (whole : buffer.line = used ++ left) (size : offset = Text.byteLength used) :
    buffer.behind? offset = some left := by
  rw [behind?, Text.cutAtByte?_eq_some.2 ⟨whole, size.symm⟩]
  rfl

theorem Shows.behind? (shown : buffer.Shows reader) :
    buffer.behind? buffer.cursor = some reader.pending := by
  obtain ⟨used, whole, size⟩ := shown.cursor
  exact behind?_of_append whole size

/-- Both find the same word, and stand behind it. -/
theorem Shows.search_visible {c : Char} {rest : Text} (shown : buffer.Shows reader)
    (visible : Text.trimStart reader.pending = c :: rest) :
    ∃ cursor, buffer.search? = some (some ((c :: rest).takeWhile (!Text.isBlank ·)), cursor) ∧
      LineBuffer.Shows { buffer with cursor := cursor }
        { reader with pending := (c :: rest).dropWhile (!Text.isBlank ·) } := by
  obtain ⟨used, whole, size⟩ := shown.cursor
  obtain ⟨skipped, shape, _, _⟩ := Text.trimStart_cons visible
  have parted := List.takeWhile_append_dropWhile (p := (!Text.isBlank ·)) (l := c :: rest)
  have start : buffer.cursor + (Text.byteLength reader.pending - Text.byteLength (c :: rest)) =
      Text.byteLength (used ++ skipped) := by
    rw [size, shape, Text.byteLength_append, Text.byteLength_append]
    omega
  have line : buffer.line = used ++ skipped ++ (c :: rest) := by
    rw [whole, shape, List.append_assoc]
  have word : Text.cutAtByte? (Text.byteLength ((c :: rest).takeWhile (!Text.isBlank ·)))
      (c :: rest) = some ((c :: rest).takeWhile (!Text.isBlank ·),
        (c :: rest).dropWhile (!Text.isBlank ·)) :=
    Text.cutAtByte?_eq_some.2 ⟨parted.symm, rfl⟩
  refine ⟨_, ?_, ⟨used ++ skipped ++ (c :: rest).takeWhile (!Text.isBlank ·), ?_,
    (Text.byteLength_append ..).symm⟩, shown.source⟩
  · simp only [search?, shown.behind?, visible, start, behind?_of_append line rfl, word,
      Option.bind_eq_bind, Option.bind_some, List.isEmpty_cons, Bool.false_eq_true, ↓reduceIte]
  · rw [List.append_assoc, parted]
    exact line

theorem Shows.search_blank (shown : buffer.Shows reader)
    (blank : Text.trimStart reader.pending = []) :
    ∃ cursor, buffer.search? = some (none, cursor) := by
  obtain ⟨used, whole, size⟩ := shown.cursor
  have stop : buffer.cursor + (Text.byteLength reader.pending - Text.byteLength []) =
      Text.byteLength (used ++ reader.pending) := by
    rw [size, Text.byteLength_append, Text.byteLength_nil, Nat.sub_zero]
  have line : buffer.line = used ++ reader.pending ++ [] := by rw [whole, List.append_nil]
  refine ⟨Text.byteLength (used ++ reader.pending), ?_⟩
  simp only [search?, shown.behind?, blank, stop, behind?_of_append line rfl,
    Option.bind_eq_bind, Option.bind_some, List.isEmpty_nil, ↓reduceIte]

/-- A line that has just been taken in. -/
theorem shows_loaded (line : Text) (source : Bytes) : Shows ⟨line, 0, source⟩ ⟨line, source⟩ :=
  ⟨⟨[], rfl, rfl⟩, rfl⟩

theorem shows_used (line : Text) (source : Bytes) :
    Shows ⟨line, Text.byteLength line, source⟩ ⟨[], source⟩ :=
  ⟨⟨line, (List.append_nil line).symm, rfl⟩, rfl⟩

section Search

variable {next : LineBuffer} {word : Text} {cursor : Nat} {cause : Disruption}

theorem nextWord?_found (found : buffer.search? = some (some word, cursor)) :
    buffer.nextWord? = some (.ok (some word), { buffer with cursor := cursor }) := by
  rw [nextWord?, found]

variable (nothing : buffer.search? = some (none, cursor))
include nothing

theorem nextWord?_ended (ended : load buffer.source = (.ok false, next)) :
    buffer.nextWord? = some (.ok none, next) := by
  rw [nextWord?, nothing]
  dsimp only
  split <;> simp_all

theorem nextWord?_dropped (dropped : load buffer.source = (.error cause, next)) :
    buffer.nextWord? = some (.error cause, next) := by
  rw [nextWord?, nothing]
  dsimp only
  split <;> simp_all

theorem nextWord?_loaded (loaded : load buffer.source = (.ok true, next)) :
    buffer.nextWord? = next.nextWord? := by
  rw [nextWord?, nothing]
  dsimp only
  split <;> simp_all

end Search

theorem nextWord?_shows (shown : buffer.Shows reader) :
    ∃ next, buffer.nextWord? = some (reader.nextWord.1, next) ∧ next.Shows reader.nextWord.2 := by
  induction reader using Reader.refill_induction generalizing buffer with
  | visible trimmed =>
      obtain ⟨cursor, found, behind⟩ := shown.search_visible trimmed
      rw [Reader.nextWord_visible trimmed]
      exact ⟨_, nextWord?_found found, behind⟩
  | used trimmed nothing =>
      obtain ⟨cursor, blank⟩ := shown.search_blank trimmed
      rw [Reader.nextWord_used trimmed nothing]
      have ended : load buffer.source = (.ok false, ⟨[], 0, []⟩) := by
        rw [shown.source, nothing, load_nil]
      exact ⟨_, nextWord?_ended blank ended, shows_loaded [] []⟩
  | dropped trimmed filled garbled =>
      obtain ⟨cursor, blank⟩ := shown.search_blank trimmed
      rw [Reader.nextWord_dropped trimmed filled garbled]
      have dropped := load_dropped garbled
      rw [← shown.source] at dropped ⊢
      exact ⟨_, nextWord?_dropped blank dropped, shows_loaded [] _⟩
  | refill trimmed filled decoded ih =>
      obtain ⟨cursor, blank⟩ := shown.search_blank trimmed
      rw [Reader.nextWord_refill trimmed filled decoded]
      have loaded := load_line filled decoded
      rw [← shown.source] at loaded ih ⊢
      rw [nextWord?_loaded blank loaded]
      exact ih (shows_loaded _ _)

theorem nextLine?_shows (shown : buffer.Shows reader) :
    ∃ next, buffer.nextLine? = some (reader.nextLine.1, next) ∧ next.Shows reader.nextLine.2 := by
  have source := shown.source
  cases trimmed : Text.trimStart reader.pending with
  | cons c rest =>
      rw [Reader.nextLine_visible trimmed]
      refine ⟨{ buffer with cursor := Text.byteLength buffer.line }, ?_, ?_⟩
      · simp [nextLine?, shown.behind?, trimmed]
      · rw [← source]
        exact shows_used buffer.line buffer.source
  | nil =>
      by_cases filled : reader.unread = []
      · rw [Reader.nextLine_used trimmed filled]
        refine ⟨⟨[], 0, []⟩, ?_, shows_loaded [] []⟩
        simp [nextLine?, shown.behind?, trimmed, source, filled, load_nil]
      · cases decoded : Text.ofUtf8? (Reader.takeLine reader.unread).1 with
        | none =>
            rw [Reader.nextLine_dropped trimmed filled decoded]
            refine ⟨_, ?_, shows_loaded [] _⟩
            simp [nextLine?, shown.behind?, trimmed, source, load_dropped decoded]
        | some line =>
            rw [Reader.nextLine_refill trimmed filled decoded]
            refine ⟨_, ?_, shows_used line _⟩
            simp [nextLine?, shown.behind?, trimmed, source, load_line filled decoded]

theorem take?_shows (shown : buffer.Shows reader) (request : Reader.Request) :
    ∃ next, buffer.take? request = some ((reader.take request).1, next) ∧
      next.Shows (reader.take request).2 := by
  cases request with
  | word => exact nextWord?_shows shown
  | line => exact nextLine?_shows shown

/-- All cuts fall between characters of the line, whatever is asked for, and what is given is what
the reader gives. -/
theorem takeAll?_shows (shown : buffer.Shows reader) (requests : List Reader.Request) :
    ∃ last, buffer.takeAll? requests = some ((reader.takeAll requests).1, last) ∧
      last.Shows (reader.takeAll requests).2 := by
  induction requests generalizing buffer reader with
  | nil => exact ⟨buffer, rfl, shown⟩
  | cons request rest ih =>
      obtain ⟨next, taken, follows⟩ := take?_shows shown request
      obtain ⟨last, others, ended⟩ := ih follows
      refine ⟨last, ?_, ended⟩
      simp [takeAll?, taken, others, Reader.takeAll]

end LineBuffer

namespace Reader

/-- The lines of the input, each with its line feed; the last one may lack it. -/
def byteLines : Bytes → List Bytes
  | [] => []
  | byte :: rest =>
      if byte = lineFeed then [byte] :: byteLines rest
      else match byteLines rest with
        | [] => [[byte]]
        | line :: others => (byte :: line) :: others

theorem byteLines_takeLine {bytes : Bytes} (filled : bytes ≠ []) :
    byteLines bytes = (takeLine bytes).1 :: byteLines (takeLine bytes).2 := by
  induction bytes with
  | nil => contradiction
  | cons byte rest ih =>
      simp only [byteLines, takeLine]
      split
      · rfl
      · cases rest with
        | nil => rfl
        | cons next others => rw [ih (by simp)]

theorem flatten_byteLines (bytes : Bytes) : (byteLines bytes).flatten = bytes := by
  induction bytes with
  | nil => rfl
  | cons byte rest ih =>
      simp only [byteLines]
      split
      · simp [ih]
      · cases shape : byteLines rest with
        | nil =>
            rw [shape] at ih
            simpa using ih
        | cons line others =>
            rw [shape] at ih
            simpa using ih

theorem byteLines_eq_cons {bytes line : Bytes} {back : List Bytes}
    (shape : byteLines bytes = line :: back) :
    bytes ≠ [] ∧ (takeLine bytes).1 = line ∧ byteLines (takeLine bytes).2 = back := by
  have filled : bytes ≠ [] := by
    rintro rfl
    contradiction
  rw [byteLines_takeLine filled, List.cons.injEq] at shape
  exact ⟨filled, shape⟩

/-- The request finds what it asks for in this line: a line in any text, a word in one that is not
blank. -/
def Request.ServedBy (request : Request) (line : Bytes) : Prop :=
  ∃ text, line = Text.toUtf8 text ∧ (request = .word → ∃ c ∈ text, Text.isBlank c = false)

/-- A line that a request has to take in: there is nothing to see in the current line, and no line
before this one serves the request. -/
structure HasToLoad (reader : Reader) (request : Request) (front : List Bytes) (line : Bytes)
    (back : List Bytes) : Prop where
  blank : Text.trimStart reader.pending = []
  lines : byteLines reader.unread = front ++ line :: back
  unserved : ∀ earlier ∈ front, ¬ request.ServedBy earlier

/-- The first line that a request has to take in and that is no text. -/
structure Garbled (reader : Reader) (request : Request) (front : List Bytes) (line : Bytes)
    (back : List Bytes) : Prop extends HasToLoad reader request front line back where
  texts : ∀ earlier ∈ front, Text.IsUtf8 earlier
  garbled : ¬ Text.IsUtf8 line

variable {reader : Reader} {request : Request} {front back : List Bytes} {line : Bytes}

theorem trimStart_of_unserved {text : Text}
    (unserved : ¬ Request.word.ServedBy (Text.toUtf8 text)) : Text.trimStart text = [] := by
  cases trimmed : Text.trimStart text with
  | nil => rfl
  | cons c rest =>
      obtain ⟨skipped, shape, _, visible⟩ := Text.trimStart_cons trimmed
      have member : c ∈ text := by simp [shape]
      exact absurd ⟨text, rfl, fun _ => ⟨c, member, visible⟩⟩ unserved

theorem unserved_of_trimStart {text : Text} (blank : Text.trimStart text = []) :
    ¬ Request.word.ServedBy (Text.toUtf8 text) := by
  rintro ⟨other, same, shown⟩
  have decoded := Text.ofUtf8?_eq_some.2 same
  rw [Text.ofUtf8?_toUtf8] at decoded
  cases decoded
  obtain ⟨c, member, visible⟩ := shown rfl
  rw [Text.blank_of_trimStart blank c member] at visible
  contradiction

theorem take_visible {c : Char} {rest : Text} (visible : Text.trimStart reader.pending = c :: rest)
    (request : Request) :
    ∃ item pending,
      reader.take request = (.ok (some item), { reader with pending := pending }) := by
  cases request with
  | word => exact ⟨_, _, nextWord_visible visible⟩
  | line => exact ⟨_, _, nextLine_visible visible⟩

theorem take_used (blank : Text.trimStart reader.pending = []) (nothing : reader.unread = [])
    (request : Request) : reader.take request = (.ok none, ofBytes []) := by
  cases request with
  | word => exact nextWord_used blank nothing
  | line => exact nextLine_used blank nothing

theorem take_dropped (blank : Text.trimStart reader.pending = []) (filled : reader.unread ≠ [])
    (garbled : Text.ofUtf8? (takeLine reader.unread).1 = none) (request : Request) :
    reader.take request = (.error .notUtf8, ofBytes (takeLine reader.unread).2) := by
  cases request with
  | word => exact nextWord_dropped blank filled garbled
  | line => exact nextLine_dropped blank filled garbled

/-- The search passes the blank lines and stops at the garbled one. -/
theorem Garbled.take (found : reader.Garbled request front line back) :
    reader.take request = (.error .notUtf8, ofBytes back.flatten) := by
  induction front generalizing reader with
  | nil =>
      obtain ⟨filled, first, others⟩ := byteLines_eq_cons found.lines
      have garbled := Text.ofUtf8?_eq_none.2 found.garbled
      rw [← first] at garbled
      rw [take_dropped found.blank filled garbled, ← others, flatten_byteLines]
  | cons earlier front ih =>
      obtain ⟨filled, first, others⟩ := byteLines_eq_cons found.lines
      obtain ⟨⟨text, shape⟩, texts⟩ := List.forall_mem_cons.1 found.texts
      obtain ⟨unserved, rest⟩ := List.forall_mem_cons.1 found.unserved
      subst shape
      cases request with
      | line => exact absurd ⟨text, rfl, by simp⟩ unserved
      | word =>
          have decoded : Text.ofUtf8? (takeLine reader.unread).1 = some text :=
            Text.ofUtf8?_eq_some.2 first
          change reader.nextWord = _
          rw [nextWord_refill found.blank filled decoded]
          exact ih ⟨⟨trimStart_of_unserved unserved, others, rest⟩, texts, found.garbled⟩

theorem garbled_of_dropped (blank : Text.trimStart reader.pending = [])
    (filled : reader.unread ≠ []) (garbled : Text.ofUtf8? (takeLine reader.unread).1 = none) :
    reader.Garbled request [] (takeLine reader.unread).1
      (byteLines (takeLine reader.unread).2) :=
  ⟨⟨blank, byteLines_takeLine filled, by simp⟩, by simp, Text.ofUtf8?_eq_none.1 garbled⟩

theorem garbled_of_failed {cause : Disruption} (failed : (reader.take request).1 = .error cause) :
    ∃ front line back, reader.Garbled request front line back := by
  induction reader using refill_induction with
  | visible trimmed =>
      obtain ⟨item, pending, taken⟩ := take_visible trimmed request
      rw [taken] at failed
      contradiction
  | used trimmed nothing =>
      rw [take_used trimmed nothing] at failed
      contradiction
  | dropped trimmed filled garbled => exact ⟨_, _, _, garbled_of_dropped trimmed filled garbled⟩
  | @refill reader text trimmed filled decoded ih =>
      cases request with
      | line =>
          rw [take, nextLine_refill trimmed filled decoded] at failed
          contradiction
      | word =>
          rw [take, nextWord_refill trimmed filled decoded] at failed
          obtain ⟨front, line, back, found⟩ := ih failed
          have first := Text.ofUtf8?_eq_some.1 decoded
          refine ⟨Text.toUtf8 text :: front, line, back, ⟨trimmed, ?_, ?_⟩, ?_, found.garbled⟩
          · rw [byteLines_takeLine filled, first, found.lines, List.cons_append]
          · exact List.forall_mem_cons.2 ⟨unserved_of_trimStart found.blank, found.unserved⟩
          · exact List.forall_mem_cons.2 ⟨⟨text, rfl⟩, found.texts⟩

theorem take_failed_iff {cause : Disruption} {after : Reader} :
    reader.take request = (.error cause, after) ↔
      cause = .notUtf8 ∧ ∃ front line back, reader.Garbled request front line back ∧
        after = ofBytes back.flatten := by
  constructor
  · intro failed
    obtain ⟨front, line, back, found⟩ := garbled_of_failed (congrArg Prod.fst failed)
    have told := found.take
    rw [failed] at told
    cases told
    exact ⟨rfl, front, line, back, found, rfl⟩
  · rintro ⟨rfl, front, line, back, found, rfl⟩
    exact found.take

/-- Among the lines that have to be taken in there is a first one that is no text, if there is one
at all. -/
theorem HasToLoad.first_garbled (loads : reader.HasToLoad request front line back)
    (garbled : ¬ Text.IsUtf8 line) :
    ∃ front line back, reader.Garbled request front line back := by
  have some : ((front ++ [line]).find? fun line => (Text.ofUtf8? line).isNone).isSome := by
    simp [Text.ofUtf8?_eq_none.2 garbled]
  obtain ⟨first, found⟩ := Option.isSome_iff_exists.1 some
  obtain ⟨bad, earlier, later, shape, good⟩ := List.find?_eq_some_iff_append.1 found
  have inside : ∀ text ∈ earlier, text ∈ front := by
    have fronts := congrArg List.dropLast shape
    rw [List.dropLast_concat, List.dropLast_append_of_ne_nil (by simp)] at fronts
    intro text member
    rw [fronts]
    exact List.mem_append_left _ member
  refine ⟨earlier, first, later ++ back, ⟨loads.blank, ?_, ?_⟩, ?_, ?_⟩
  · rw [loads.lines, ← List.singleton_append, ← List.append_assoc, shape, List.append_assoc,
      List.cons_append]
  · exact fun text member => loads.unserved text (inside text member)
  · intro text member
    have decoded := good text member
    rw [Bool.not_eq_true', Option.isNone_eq_false_iff, Option.isSome_iff_exists] at decoded
    obtain ⟨meant, decoded⟩ := decoded
    exact ⟨meant, Text.ofUtf8?_eq_some.1 decoded⟩
  · exact Text.ofUtf8?_eq_none.1 (Option.isNone_iff_eq_none.1 bad)

theorem take_loads (reader : Reader) (request : Request) :
    ∃ loaded, byteLines reader.unread = loaded ++ byteLines (reader.take request).2.unread := by
  induction reader using refill_induction with
  | visible trimmed =>
      obtain ⟨item, pending, taken⟩ := take_visible trimmed request
      rw [taken]
      exact ⟨[], rfl⟩
  | used trimmed nothing =>
      rw [take_used trimmed nothing, nothing]
      exact ⟨[], rfl⟩
  | dropped trimmed filled garbled =>
      rw [take_dropped trimmed filled garbled, byteLines_takeLine filled]
      exact ⟨[_], rfl⟩
  | refill trimmed filled decoded ih =>
      rw [byteLines_takeLine filled]
      cases request with
      | line =>
          rw [take, nextLine_refill trimmed filled decoded]
          exact ⟨[_], rfl⟩
      | word =>
          obtain ⟨loaded, shape⟩ := ih
          rw [take, nextWord_refill trimmed filled decoded, shape]
          exact ⟨_ :: loaded, rfl⟩

/-- A reader stops between lines: what it has taken in are whole lines. -/
theorem takeAll_loads (reader : Reader) (requests : List Request) :
    ∃ loaded, byteLines reader.unread = loaded ++ byteLines (reader.takeAll requests).2.unread := by
  induction requests generalizing reader with
  | nil => exact ⟨[], rfl⟩
  | cons request rest ih =>
      obtain ⟨first, before⟩ := take_loads reader request
      obtain ⟨others, after⟩ := ih (reader.take request).2
      exact ⟨first ++ others, by rw [before, after, List.append_assoc]; rfl⟩

/-- Bytes that are no text stay on their line. After any requests, a request fails exactly if some
line that it has to take in is no text, and then at the first such line: what comes after is read as
if the input began behind it. A reader that counts its place in bytes gives the same, and never cuts
its line outside or inside a character. -/
theorem garbled_lines_contained (input : Bytes) (requests : List Request) :
    ∃ reader loaded, ((ofBytes input).takeAll requests).2 = reader ∧
      byteLines input = loaded ++ byteLines reader.unread ∧
      (∃ buffer, (LineBuffer.ofBytes input).takeAll? requests =
          some (((ofBytes input).takeAll requests).1, buffer) ∧ buffer.Shows reader) ∧
      (∀ request, (∃ cause, (reader.take request).1 = .error cause) ↔
        ∃ front line back, reader.HasToLoad request front line back ∧ ¬ Text.IsUtf8 line) ∧
      ∀ request cause after, reader.take request = (.error cause, after) →
        cause = .notUtf8 ∧ ∃ front line back,
          reader.HasToLoad request front line back ∧
          (∀ earlier ∈ front, Text.IsUtf8 earlier) ∧ ¬ Text.IsUtf8 line ∧
          ∀ later, after.takeAll later = (ofBytes back.flatten).takeAll later := by
  obtain ⟨loaded, lines⟩ := takeAll_loads (ofBytes input) requests
  refine ⟨_, loaded, rfl, lines,
    LineBuffer.takeAll?_shows (LineBuffer.shows_ofBytes input) requests, ?_, ?_⟩
  · intro request
    constructor
    · rintro ⟨cause, failed⟩
      obtain ⟨_, front, line, back, found, _⟩ := take_failed_iff.1 (Prod.ext failed rfl)
      exact ⟨front, line, back, found.toHasToLoad, found.garbled⟩
    · rintro ⟨front, line, back, loads, garbled⟩
      obtain ⟨_, _, _, found⟩ := loads.first_garbled garbled
      exact ⟨.notUtf8, congrArg Prod.fst found.take⟩
  · intro request cause after failed
    obtain ⟨told, front, line, back, found, rfl⟩ := take_failed_iff.1 failed
    exact ⟨told, front, line, back, found.toHasToLoad, found.texts, found.garbled, fun _ => rfl⟩

/-- An empty line, a line with a byte that begins no character, and a word. -/
def interrupted : Bytes := [10, 255, 10, 111, 107]

theorem interrupted_contained :
    (ofBytes interrupted).HasToLoad .word [[10]] [255, 10] [[111, 107]] ∧
    ∃ after, (ofBytes interrupted).nextWord = (.error .notUtf8, after) ∧
      ∀ later, after.takeAll later = (ofBytes [111, 107]).takeAll later := by
  obtain ⟨_, _, rfl, _, _, fails, contained⟩ := garbled_lines_contained interrupted []
  have unserved : ¬ Request.word.ServedBy [10] := @unserved_of_trimStart ['\n'] rfl
  have split : byteLines interrupted = [[10], [255, 10], [111, 107]] := by decide
  have loads : (ofBytes interrupted).HasToLoad .word [[10]] [255, 10] [[111, 107]] :=
    ⟨rfl, split, by simpa using unserved⟩
  have garbled : ¬ Text.IsUtf8 [255, 10] := Text.ofUtf8?_eq_none.1 (by decide +kernel)
  obtain ⟨cause, failed⟩ := (fails .word).2 ⟨_, _, _, loads, garbled⟩
  obtain ⟨rfl, front, line, back, found, texts, bad, behind⟩ :=
    contained .word cause _ (Prod.ext failed rfl)
  have lines : [[10], [255, 10], [111, 107]] = front ++ line :: back := split.symm.trans found.lines
  -- The line that fails is the second one: the first is a text, and no later one can be reached.
  obtain rfl : back = [[111, 107]] := by
    rcases front with _ | ⟨first, _ | ⟨second, others⟩⟩
    · cases lines
      exact absurd ⟨['\n'], rfl⟩ bad
    · cases lines
      rfl
    · obtain ⟨_, rfl, _⟩ : [10] = first ∧ [255, 10] = second ∧ _ := by simpa using lines
      exact absurd (texts [255, 10] (by simp)) garbled
  exact ⟨loads, _, Prod.ext failed rfl, behind⟩

end Reader

end Pseudocode
