import Pseudocode.Proofs.Encoding
import Pseudocode.Proofs.Rendering
import Pseudocode.Proofs.Resolution
import Pseudocode.Proofs.WordsAndLines

/-!
What a program holds, listed line for line. A listing has one line for the name of the program and
one for every entry of its tables. That each of them is a single line is not a matter of how it is
written: a string with a line feed would break its line in two. There is none. A string comes from a
literal, which stands on a line of the source, or from the input, where the reader has before it
nothing beyond the line it is on and cuts the end of that line off.
-/

namespace Pseudocode

namespace Reader

/-- No more than one line is taken in at a time. -/
theorem takeLine_line (bytes : Bytes) :
    takeLine (takeLine bytes).1 = ((takeLine bytes).1, []) := by
  induction bytes with
  | nil => rfl
  | cons byte rest ih =>
      by_cases feed : byte = lineFeed
      · simp [takeLine, feed]
      · simp [takeLine, feed, ih]

theorem singleLine_decoded {bytes : Bytes} {text : Text}
    (decoded : Text.ofUtf8? (takeLine bytes).1 = some text) : Text.SingleLine text := by
  have line := takeLine_line bytes
  rw [Text.ofUtf8?_eq_some.1 decoded, takeLine_toUtf8] at line
  have nothing : (Text.splitLine text).2 = [] := by
    by_cases filled : (Text.splitLine text).2 = []
    · exact filled
    · exact absurd (Prod.mk.inj line).2 (Text.toUtf8_ne_nil filled)
  have whole := Text.splitLine_append text
  rw [nothing, List.append_nil] at whole
  rw [← whole]
  exact Text.splitLine_single text

theorem nextWord_singleLine {reader : Reader} (single : Text.SingleLine reader.pending) :
    Text.SingleLine reader.nextWord.2.pending := by
  induction reader using refill_induction with
  | visible trimmed =>
      rw [nextWord_visible trimmed]
      obtain ⟨skipped, shape, _⟩ := Text.trimStart_cons trimmed
      exact single.suffix ((List.dropWhile_suffix _).trans ⟨skipped, shape.symm⟩)
  | used blank ended =>
      rw [nextWord_used blank ended]
      exact Text.singleLine_nil
  | dropped blank filled garbled =>
      rw [nextWord_dropped blank filled garbled]
      exact Text.singleLine_nil
  | refill blank filled decoded ih =>
      rw [nextWord_refill blank filled decoded]
      exact ih (singleLine_decoded decoded)

/-- The rest of the current line, or the next one, without its end. -/
theorem nextLine_oneLine {reader after : Reader} {line : Text}
    (single : Text.SingleLine reader.pending)
    (taken : reader.nextLine = (.ok (some line), after)) : '\n' ∉ line := by
  induction reader using refill_induction with
  | visible trimmed =>
      rw [nextLine_visible trimmed] at taken
      cases taken
      obtain ⟨skipped, shape, _⟩ := Text.trimStart_cons trimmed
      exact (single.suffix ⟨skipped, shape.symm⟩).not_mem_trimTail
  | used blank ended =>
      rw [nextLine_used blank ended] at taken
      cases taken
  | dropped blank filled garbled =>
      rw [nextLine_dropped blank filled garbled] at taken
      cases taken
  | refill blank filled decoded _ =>
      rw [nextLine_refill blank filled decoded] at taken
      cases taken
      exact (singleLine_decoded decoded).not_mem_trimTail

theorem nextText_singleLine {reader : Reader} (single : Text.SingleLine reader.pending)
    (kind : Kind) : Text.SingleLine (reader.nextText kind).2.pending := by
  cases kind with
  | integer | real => exact nextWord_singleLine single
  | string =>
      rw [nextText, pending_of_nextLine]
      exact Text.singleLine_nil

theorem nextValue_rest (reader : Reader) (kind : Kind) :
    (reader.nextValue kind).2 = (reader.nextText kind).2 := by
  unfold nextValue
  rcases reader.nextText kind with ⟨cause | _ | text, after⟩ <;> rfl

end Reader

/-- If it is a string, it has no line feed. -/
def Value.OneLine (value : Value) : Prop := ∀ text, value = .string text → '\n' ∉ text

theorem Value.oneLine_number (number : Number) : (Value.number number).OneLine := by
  intro text same
  cases same

theorem Reader.nextValue_oneLine {reader after : Reader} {kind : Kind} {value : Value}
    (single : Text.SingleLine reader.pending)
    (taken : reader.nextValue kind = (.ok value, after)) : value.OneLine := by
  obtain ⟨line, read, made⟩ := nextValue_ok taken
  rintro text rfl
  obtain ⟨rfl, _⟩ := Kind.ofInput_kind made
  cases made
  exact nextLine_oneLine single read

/-- Nothing that the session holds goes beyond one line: neither what is left of the current line
of its input, nor a string in its tables. -/
structure Session.OneLine (session : Session) : Prop where
  input : Text.SingleLine session.input.pending
  values : session.scope.All Value.OneLine

theorem Session.Moves.oneLine {session next : Session} (move : session.Moves next)
    (oneLine : session.OneLine) : next.OneLine := by
  have left : ∀ {kind result after}, session.input.nextValue kind = (result, after) →
      Text.SingleLine after.pending := by
    intro kind result after taken
    have kept := Reader.nextText_singleLine oneLine.input kind
    rwa [← Reader.nextValue_rest, taken] at kept
  cases move with
  | reads _ taken =>
      exact ⟨left taken, oneLine.values.store (Reader.nextValue_oneLine oneLine.input taken)⟩
  | misreads taken => exact ⟨left taken, oneLine.values⟩
  | assigns _ _ fitted =>
      obtain ⟨_, _, fitting, _, _, rfl⟩ := Value.coerce_ok fitted
      exact ⟨oneLine.input, oneLine.values.store (Value.oneLine_number fitting)⟩
  | writes _ => exact ⟨oneLine.input, oneLine.values⟩

namespace Program

/-- A run begins before the first line of its input, so the lines of one run are no concern of the
next. -/
theorem after_oneLine {program : Program} (oneLine : program.scope.All Value.OneLine)
    (calls : List Call) : (program.after calls).scope.All Value.OneLine := by
  induction calls generalizing program with
  | nil => exact oneLine
  | cons call rest ih =>
      have fresh : (program.session call.input call.output).OneLine :=
        ⟨Text.singleLine_nil, oneLine⟩
      have after := (Session.run_leads _ program.statements).maintains Session.Moves.oneLine fresh
      exact ih after.values

theorem load_oneLine {source : Text} {program : Program} (loaded : load source = .ok program) :
    program.scope.All Value.OneLine := by
  rintro part ⟨name, _⟩ held text rfl
  exact oneLine_of_load loaded held

def unsetText : Text := "<unset>".toList

/-- A value as it is listed. -/
def shownValue (value : Value) : Text := if value.isUnset then unsetText else value.text

def entryLine (sort : String) (entry : Text × Value) : Text :=
  "[DUMP] ".toList ++ sort.toList ++ [' '] ++ entry.1 ++ " : ".toList ++ entry.2.kind.name ++
    " = ".toList ++ shownValue entry.2

def headingLine (name : Text) : Text := "[DUMP] Algorithm ".toList ++ name

def listingLines (program : Program) : List Text :=
  headingLine program.name ::
    (program.scope.constants.entries.map (entryLine "constant") ++
      program.scope.variables.entries.map (entryLine "variable"))

theorem listingLine_eq (sort : String) :
    listingLine sort = fun entry => entryLine sort entry ++ ['\n'] := rfl

theorem listing_eq (program : Program) :
    program.listing = program.listingLines.flatMap (· ++ ['\n']) := by
  change headingLine program.name ++ ['\n'] ++ _ ++ _ = _
  rw [listingLines, listingLine_eq, listingLine_eq, List.flatMap_cons, List.flatMap_append,
    List.flatMap_map, List.flatMap_map, List.append_assoc]

/-- Only a placeholder and the string itself are listed like a placeholder. -/
theorem shownValue_unset_iff (value : Value) :
    shownValue value = unsetText ↔ value.isUnset = true ∨ value = .string unsetText := by
  cases value with
  | number number =>
      refine iff_of_false ?_ (by simp [Value.isUnset])
      intro same
      have listed : '<' ∈ unsetText := List.mem_cons_self
      rw [← same] at listed
      exact Text.not_mem_of_plain number.plain_text rfl listed
  | string text =>
      constructor
      · intro same
        exact .inr (congrArg Value.string same)
      · rintro (unset | same)
        · contradiction
        · exact Value.string.inj same
  | unset kind => exact iff_of_true rfl (.inl rfl)

theorem oneLine_shownValue {value : Value} (oneLine : value.OneLine) :
    '\n' ∉ shownValue value := by
  cases value with
  | number number => exact Text.not_mem_of_plain number.plain_text rfl
  | string text => exact oneLine text rfl
  | unset kind =>
      have unset : '\n' ∉ unsetText := by decide
      exact unset

theorem oneLine_entryLine {sort : String} {entry : Text × Value} (label : '\n' ∉ sort.toList)
    (identifier : Text.isIdentifier entry.1 = true) (oneLine : entry.2.OneLine) :
    '\n' ∉ entryLine sort entry := by
  have name : '\n' ∉ entry.1 := Text.not_mem_of_plain (Text.plain_of_identifier identifier) rfl
  have kind : '\n' ∉ entry.2.kind.name := by cases entry.2.kind <;> decide
  have value := oneLine_shownValue oneLine
  unfold entryLine
  generalize entry.2.kind.name = kindName at *
  generalize shownValue entry.2 = shown at *
  generalize sort.toList = label at *
  simp [label, name, kind, value]

theorem oneLine_listingLines {program : Program} (named : Text.isIdentifier program.name = true)
    (names : program.scope.WellNamed) (values : program.scope.All Value.OneLine) :
    ∀ line ∈ program.listingLines, '\n' ∉ line := by
  have listed : ∀ part sort, '\n' ∉ String.toList sort →
      ∀ line ∈ (program.scope.table part).entries.map (entryLine sort), '\n' ∉ line := by
    intro part sort label line member
    obtain ⟨entry, held, rfl⟩ := List.mem_map.1 member
    exact oneLine_entryLine label (names.identifiers part _ (Symbols.mem_names_of_mem held))
      (values part entry held)
  have heading : '\n' ∉ headingLine program.name := by
    have front : '\n' ∉ "[DUMP] Algorithm ".toList := by decide
    intro member
    rcases List.mem_append.1 member with inFront | inName
    · exact front inFront
    · exact Text.not_mem_of_plain (Text.plain_of_identifier named) rfl inName
  refine List.forall_mem_cons.2 ⟨heading, List.forall_mem_append.2 ⟨?_, ?_⟩⟩
  · exact listed .constants "constant" (by decide)
  · exact listed .variables "variable" (by decide)

theorem load_named {source : Text} {program : Program} (loaded : load source = .ok program) :
    Text.isIdentifier program.name = true := by
  obtain ⟨outline, laid, same, _⟩ := loadWith_ok loaded
  obtain ⟨layout, _, rfl⟩ := Outline.layout_of_ok laid
  obtain ⟨_, _, _, identifier⟩ := layout.headed
  rw [same]
  exact identifier

/-- However often a loaded program has been run, on whatever inputs and outputs, no string in its
tables has a line feed. So its listing has exactly one line for its name, one for every constant and
one for every variable, in the order of their declarations and with the types declared there. A
value is listed as unset if it is a placeholder, and otherwise only if it is the string that says
so. -/
theorem listing_line_for_line {source : Text} {program : Program}
    (loaded : load source = .ok program) (calls : List Call) :
    let last := program.after calls
    (∀ part name text, (name, Value.string text) ∈ (last.scope.table part).entries →
      '\n' ∉ text) ∧
    Text.parts '\n' last.listing = last.listingLines ++ [[]] ∧
    last.listingLines.length = 1 + last.scope.constants.size + last.scope.variables.size ∧
    (∃ outline, Outline.ofLines (sourceLines source) = .ok outline ∧ last.name = outline.name ∧
      ∀ part, (last.scope.table part).typed = declaredKinds part outline.declarations) ∧
    ∀ value, shownValue value = unsetText ↔
      value.isUnset = true ∨ value = .string unsetText := by
  intro last
  have kept : program.Keeps last := after_keeps program calls
  have values : last.scope.All Value.OneLine := after_oneLine (load_oneLine loaded) calls
  have lines : ∀ line ∈ last.listingLines, '\n' ∉ line :=
    oneLine_listingLines (kept.name ▸ load_named loaded)
      (kept.scope.wellNamed (load_wellNamed loaded)) values
  refine ⟨?_, ?_, ?_, ?_, shownValue_unset_iff⟩
  · intro part name text held
    exact values part _ held text rfl
  · rw [listing_eq, Text.parts_lines lines]
  · simp only [listingLines, List.length_cons, List.length_append, List.length_map, Symbols.size]
    omega
  · obtain ⟨outline, laid, typed⟩ := load_typed loaded
    obtain ⟨_, again, named, _⟩ := loadWith_ok loaded
    rw [laid] at again
    cases again
    exact ⟨outline, laid, kept.name.trans named,
      fun part => (kept.scope.typed part).trans (typed part)⟩

/-- Reads into all kinds of variables, the last of which gets nothing. -/
def noted : Text :=
  ("Algorithm Note;\nConstants\n    c = \"a\" : String;\nVariables\n    s : String;\n" ++
    "    n : Integer;\n    u : Real;\nBegin\n    Read(n, s, u);\nEnd").toList

def notedCall : Call := ⟨Text.toUtf8 "7 <unset>\r\n".toList, .unlimited⟩

-- A string that says so and a placeholder are listed alike.
theorem noted_listed :
    ∃ program, load noted = .ok program ∧
      (program.after [notedCall]).scope.variables.get? ['s'] = some (.string unsetText) ∧
      (program.after [notedCall]).scope.variables.get? ['u'] = some (.unset .real) ∧
      Text.parts '\n' (program.after [notedCall]).listing =
        ["[DUMP] Algorithm Note".toList, "[DUMP] constant c : String = a".toList,
          "[DUMP] variable s : String = <unset>".toList,
          "[DUMP] variable n : Integer = 7".toList,
          "[DUMP] variable u : Real = <unset>".toList, []] := by
  have ran : (load noted).toOption.map (fun program =>
      let last := program.after [notedCall]
      (last.scope.variables.get? ['s'], last.scope.variables.get? ['u'], last.listingLines)) =
        some (some (.string unsetText), some (.unset .real),
          ["[DUMP] Algorithm Note".toList, "[DUMP] constant c : String = a".toList,
            "[DUMP] variable s : String = <unset>".toList,
            "[DUMP] variable n : Integer = 7".toList,
            "[DUMP] variable u : Real = <unset>".toList]) := by decide +kernel
  cases loaded : load noted with
  | error rejection =>
      rw [loaded] at ran
      contradiction
  | ok program =>
      rw [loaded] at ran
      obtain ⟨s, others⟩ := Prod.mk.inj (Option.some.inj ran)
      obtain ⟨u, lines⟩ := Prod.mk.inj others
      obtain ⟨_, listed, _⟩ := listing_line_for_line loaded [notedCall]
      rw [lines] at listed
      exact ⟨program, rfl, s, u, listed⟩

end Program

end Pseudocode
