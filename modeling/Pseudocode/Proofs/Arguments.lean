import Pseudocode.Proofs.Declaring
import Pseudocode.Session

/-!
Literals as initial values and as arguments. Where a literal ends is decided twice: by the scan for
open characters, which cuts the line, and by taking the outermost quotes off. Both agree on every
literal but those whose text ends with a backslash. There the scan takes the last quote for one
inside the text, so that what follows is not cut off: a declaration loses its colon and an argument
list its comma.
-/

namespace Pseudocode

namespace Text

theorem snug_quote (text : Text) : Snug (quote text) :=
  Value.literal_snug (show (Value.string text).literal? = some (quote text) from rfl)

/-- One pass finds the first part where the scan stops, and starts afresh behind it. -/
theorem splitOpen_eq (separator : Char) (quoted : Bool) (text : Text) :
    splitOpen separator quoted text =
      match scanOpen (fun rest => rest.head? = some separator) quoted text with
      | none => [text]
      | some (left, right) => left :: splitOpen separator false (right.drop 1) := by
  fun_induction splitOpen separator quoted text with
  | case1 => rfl
  | case2 rest ih =>
      rw [scanOpen_escaped, ih]
      cases scanOpen (fun rest => rest.head? = some separator) true rest <;> rfl
  | case3 quoted rest _ ih =>
      rw [scanOpen_quote, ih]
      cases scanOpen (fun rest => rest.head? = some separator) (!quoted) rest <;> rfl
  | case4 quoted c rest _ other found _ =>
      rw [Bool.and_eq_true, Bool.not_eq_true'] at found
      obtain ⟨rfl, same⟩ := found
      have accepted : decide ((c :: rest).head? = some separator) = true := by simpa using same
      rw [scanOpen_accepted other accepted]
      rfl
  | case5 quoted c rest single other passed ih =>
      have inside : quoted = true → c = '\\' → rest.head? ≠ some '"' := by
        rintro rfl rfl head
        obtain ⟨tail, rfl⟩ := List.head?_eq_some_iff.1 head
        exact single tail rfl rfl rfl
      rw [scanOpen_passed other inside (fun open_ => by simpa [open_] using passed), ih]
      cases scanOpen (fun rest => rest.head? = some separator) quoted rest <;> rfl

theorem openParts_cons {separator : Char} {front : Text} (unquoted : separator ≠ '"')
    (passes : Passes (fun rest => rest.head? = some separator) front) (rest : Text) :
    openParts separator (front ++ separator :: rest) = front :: openParts separator rest := by
  rw [openParts, splitOpen_eq, passes, scanOpen_accepted unquoted (by simp)]
  simp [extend, openParts]

theorem openParts_single {separator : Char} {text : Text}
    (none : scanOpen (fun rest => rest.head? = some separator) false text = none) :
    openParts separator text = [text] := by
  rw [openParts, splitOpen_eq, none]

end Text

/-- A command with its arguments, written out. -/
def callText (keyword arguments : Text) : Text :=
  keyword ++ '(' :: (arguments ++ [')', ';'])

theorem callArguments_callText (keyword arguments : Text) :
    callArguments keyword (callText keyword arguments) = .ok arguments := by
  have opened : Text.after? ['('] ('(' :: (arguments ++ [')', ';'])) =
      some (arguments ++ [')', ';']) := Text.after?_eq_some.2 rfl
  have rest : Text.after? keyword (callText keyword arguments) =
      some ('(' :: (arguments ++ [')', ';'])) := Text.after?_eq_some.2 rfl
  have ended : Text.before? ';' (arguments ++ [')', ';']) = some (arguments ++ [')']) :=
    Text.before?_eq_some.2 (by simp)
  have closed : Text.before? ')' (arguments ++ [')']) = some arguments :=
    Text.before?_eq_some.2 rfl
  have start : Text.trimStart ('(' :: (arguments ++ [')', ';'])) =
      '(' :: (arguments ++ [')', ';']) := rfl
  have stop : Text.trimEnd (arguments ++ [')']) = arguments ++ [')'] := by
    apply Text.trimTail_of_last
    rw [List.getLast?_concat]
    rintro c ⟨⟩
    decide
  simp [callArguments, callArguments?, rest, start, opened, ended, stop, closed]

namespace Scope

variable {scope : Scope}

theorem argumentText_literal {argument : Text} (opens : argument.head? = some '"') :
    scope.argumentText argument =
      match Text.unquote? argument with
      | some text => .ok text
      | none => .error (.badLiteral argument) := by
  cases argument with
  | nil => contradiction
  | cons c rest =>
      have filled : ¬ (c :: rest).isEmpty = true := by simp
      have quoted : (decide ((c :: rest).head? = some '"') ||
          decide ((c :: rest).getLast? = some '"')) = true := by simp [opens]
      unfold argumentText
      exact (if_neg filled).trans (if_pos quoted)

theorem argumentText_identifier {name : Text} (identifier : Text.isIdentifier name = true) :
    scope.argumentText name =
      match scope.shown? name with
      | none => .error (.undefined name)
      | some value => if value.isUnset then .error (.unset name) else .ok value.text := by
  have quoteless : '"' ∉ name :=
    Text.not_mem_of_plain (Text.plain_of_identifier identifier) rfl
  have filled : name.isEmpty = false := by
    cases name with
    | nil => contradiction
    | cons _ _ => rfl
  have first : name.head? ≠ some '"' := fun head => quoteless (List.mem_of_mem_head? head)
  have last : name.getLast? ≠ some '"' := fun ends => quoteless (List.mem_of_getLast? ends)
  cases shown : scope.shown? name with
  | none => simp [argumentText, filled, first, last, shown]
  | some value => simp [argumentText, filled, first, last, shown]

theorem argumentText_name {name : Text} {value : Value}
    (identifier : Text.isIdentifier name = true)
    (held : scope.variables.get? name = some value) (concrete : value.isUnset = false) :
    scope.argumentText name = .ok value.text := by
  simp [argumentText_identifier identifier, shown?, held, concrete]

/-- A list of arguments that is not blank is printed part by part. -/
theorem outputText_filled {arguments : Text} (filled : Text.trim arguments ≠ []) :
    scope.outputText (callText Command.write.keyword arguments) =
      scope.argumentTexts (Text.openParts ',' arguments) := by
  rw [outputText, callArguments_callText, ok_bind]
  simp only [List.isEmpty_eq_false_iff.2 filled, Bool.false_eq_true, ↓reduceIte]

theorem outputText_callText {arguments : Text} {c : Char} (member : c ∈ arguments)
    (visible : Text.isBlank c = false) :
    scope.outputText (callText Command.write.keyword arguments) =
      scope.argumentTexts (Text.openParts ',' arguments) :=
  outputText_filled (List.ne_nil_of_mem (Text.mem_trim member visible))

theorem outputText_single {argument : Text} (filled : Text.trim argument ≠ [])
    (single : Text.openParts ',' argument = [argument]) :
    scope.outputText (callText Command.write.keyword argument) =
      scope.argumentText (Text.trim argument) := by
  rw [outputText_filled filled, single]
  cases text : scope.argumentText (Text.trim argument) with
  | error fault => simp [argumentTexts, text, bind, Except.bind]
  | ok text => simp [argumentTexts, text, bind, Except.bind]

section Pair

variable {literal text name : Text} {value : Value}
  (meant : Text.unquote? literal = some text) (identifier : Text.isIdentifier name = true)

def pairText (literal name : Text) : Text := literal ++ ',' :: ' ' :: name

include meant identifier

theorem openParts_pair (closed : text.getLast? ≠ some '\\') :
    Text.openParts ',' (pairText literal name) = [literal, ' ' :: name] := by
  have plain := Text.plain_of_identifier identifier
  have commaless : Text.Passes (fun rest => rest.head? = some ',') (' ' :: name) :=
    Text.passes_of_absent (Text.acceptsOnly_head ',')
      (by simp [Text.not_mem_of_plain plain (show Text.isPlain '"' = false from rfl)])
      (by simp [Text.not_mem_of_plain plain (show Text.isPlain ',' = false from rfl)])
  rw [Text.eq_quote_of_unquote? meant, pairText,
    Text.openParts_cons (by decide) (Text.passes_literal closed),
    Text.openParts_single commaless.finds_none]

theorem openParts_unclosed (ends : text.getLast? = some '\\') :
    Text.openParts ',' (pairText literal name) = [pairText literal name] := by
  have plain := Text.plain_of_identifier identifier
  have unquoted : '"' ∉ ',' :: ' ' :: name := by
    simp [Text.not_mem_of_plain plain (show Text.isPlain '"' = false from rfl)]
  apply Text.openParts_single
  rw [Text.eq_quote_of_unquote? meant, pairText, Text.scanOpen_literal, decide_eq_true ends,
    Text.scanOpen_unclosed unquoted]
  rfl

theorem outputText_pair (held : scope.variables.get? name = some value)
    (concrete : value.isUnset = false) (closed : text.getLast? ≠ some '\\') :
    scope.outputText (callText Command.write.keyword (pairText literal name)) =
      .ok (text ++ value.text) := by
  have spelled := Text.eq_quote_of_unquote? meant
  have quoted : '"' ∈ pairText literal name := by simp [pairText, spelled, Text.quote]
  have trimmedLiteral : Text.trim literal = literal := by
    rw [spelled]
    exact Text.trim_snug (Text.snug_quote text)
  have trimmedName : Text.trim (' ' :: name) = name :=
    Text.trim_space_before (Text.snug_of_plain (Text.plain_of_identifier identifier))
  have first : scope.argumentText literal = .ok text := by
    rw [argumentText_literal (by rw [spelled]; rfl), meant]
  have second := argumentText_name identifier held concrete
  rw [outputText_callText quoted (by decide), openParts_pair meant identifier closed]
  simp [argumentTexts, trimmedLiteral, trimmedName, first, second, bind, Except.bind]

theorem outputText_unclosed (ends : text.getLast? = some '\\') :
    scope.outputText (callText Command.write.keyword (pairText literal name)) =
      .error (.badLiteral (pairText literal name)) := by
  have spelled := Text.eq_quote_of_unquote? meant
  have plain := Text.plain_of_identifier identifier
  have quoted : '"' ∈ pairText literal name := by simp [pairText, spelled, Text.quote]
  have opens : (pairText literal name).head? = some '"' := by simp [pairText, spelled, Text.quote]
  have last : (pairText literal name).getLast? = name.getLast? := by
    have filled : name ≠ [] := by
      rintro rfl
      contradiction
    have shape : pairText literal name = literal ++ [',', ' '] ++ name := by simp [pairText]
    rw [shape, List.getLast?_append, List.getLast?_eq_some_getLast filled, Option.some_or]
  have unread : Text.unquote? (pairText literal name) = none := by
    cases found : Text.unquote? (pairText literal name) with
    | none => rfl
    | some whole =>
        rw [Text.eq_quote_of_unquote? found, Text.quote, List.getLast?_concat] at last
        have member := List.mem_of_getLast? last.symm
        exact absurd member (Text.not_mem_of_plain plain rfl)
  have snug : Text.Snug (pairText literal name) := by
    refine ⟨?_, ?_⟩
    · rw [opens]
      rintro c ⟨⟩
      decide
    · rw [last]
      exact (Text.snug_of_plain plain).ends
  rw [outputText_callText quoted (by decide), openParts_unclosed meant identifier ends]
  simp [argumentTexts, Text.trim_snug snug, argumentText_literal opens, unread, bind, Except.bind]

end Pair

end Scope

namespace Declaration

def literalText (name literal : Text) : Text :=
  name ++ " = ".toList ++ literal ++ " : String;".toList

theorem literalText_quote (name inner : Text) :
    literalText name (Text.quote inner) = text name (.string inner) := by
  change _ = name ++ (" = ".toList ++ Text.quote inner) ++ [' '] ++ ':' :: " String;".toList
  simp [literalText]

section Literal

variable {name literal inner : Text} (identifier : Text.isIdentifier name = true)
  (meant : Text.unquote? literal = some inner)
include identifier meant

theorem parse_literalText (closed : inner.getLast? ≠ some '\\') :
    parse (literalText name literal) = .ok ⟨name, .string, .string inner⟩ := by
  rw [Text.eq_quote_of_unquote? meant, literalText_quote]
  exact parse_text identifier trivial closed

theorem parse_unclosed (ends : inner.getLast? = some '\\') :
    parse (literalText name literal) = .error (.invalidDeclaration (literalText name literal)) := by
  have uncut : Text.cutOpen? ':' (literalText name literal) = none := by
    rw [Text.eq_quote_of_unquote? meant, literalText_quote, Text.cutOpen?,
      scanOpen_unclosed identifier (Text.acceptsOnly_head ':') rfl ends]
    rfl
  rw [parse, uncut]

end Literal

end Declaration

namespace Session

/-- Offers a text to the output. -/
def emit (session : Session) (text : Text) : Step :=
  let (disruption, output) := session.output.write (Text.toUtf8 text)
  (disruption.map .disrupted, { session with output := output })

/-- A literal is stored by its declaration, and printed in front of what follows it, exactly if
its text does not end with a backslash. If it does, the declaration counts as one without a colon,
and the statement as one with a single, broken literal. -/
theorem literal_ends_agree (session : Session) {literal inner name shown : Text} {value : Value}
    (meant : Text.unquote? literal = some inner) (identifier : Text.isIdentifier name = true)
    (shownIdentifier : Text.isIdentifier shown = true)
    (held : session.scope.variables.get? shown = some value) (concrete : value.isUnset = false) :
    (inner.getLast? ≠ some '\\' →
      Declaration.parse (Declaration.literalText name literal) =
        .ok ⟨name, .string, .string inner⟩ ∧
      session.write ("Write(".toList ++ literal ++ ", ".toList ++ shown ++ ");".toList) =
        session.emit (inner ++ value.text)) ∧
    (inner.getLast? = some '\\' →
      Declaration.parse (Declaration.literalText name literal) =
        .error (.invalidDeclaration (Declaration.literalText name literal)) ∧
      session.write ("Write(".toList ++ literal ++ ", ".toList ++ shown ++ ");".toList) =
        (some (.badLiteral (literal ++ ", ".toList ++ shown)), session)) := by
  have call : "Write(".toList ++ literal ++ ", ".toList ++ shown ++ ");".toList =
      callText Command.write.keyword (Scope.pairText literal shown) := by
    have start : "Write(".toList = Command.write.keyword ++ ['('] := rfl
    have comma : ", ".toList = [',', ' '] := rfl
    have stop : ");".toList = [')', ';'] := rfl
    simp only [start, comma, stop, callText, Scope.pairText, List.append_assoc, List.cons_append,
      List.nil_append]
  rw [call]
  constructor
  · intro closed
    refine ⟨Declaration.parse_literalText identifier meant closed, ?_⟩
    rw [write, Scope.outputText_pair meant shownIdentifier held concrete closed]
    rfl
  · intro ends
    refine ⟨Declaration.parse_unclosed identifier meant ends, ?_⟩
    rw [write, Scope.outputText_unclosed meant shownIdentifier ends]
    simp [Scope.pairText]

/-- A session with the variable `y`. -/
def showing : Session where
  scope :=
    { constants := .empty
      «variables» := ⟨[(['y'], .string ['z'])], (by decide : [['y']].Nodup)⟩ }
  input := .ofBytes []
  output := .unlimited

theorem quoted_comma_written :
    Declaration.parse "x = \"\\\":,\" : String;".toList =
        .ok ⟨['x'], .string, .string ['"', ':', ',']⟩ ∧
      (showing.write "Write(\"\\\":,\", y);".toList).2.output.written =
        Text.toUtf8 ['"', ':', ',', 'z'] := by
  have meant : Text.unquote? "\"\\\":,\"".toList = some ['"', ':', ','] := rfl
  have agree := literal_ends_agree showing meant (show Text.isIdentifier ['x'] = true from rfl)
    (show Text.isIdentifier ['y'] = true from rfl) rfl rfl
  obtain ⟨parsed, written⟩ := agree.1 (by decide)
  exact ⟨parsed, congrArg (fun step => step.2.output.written) written⟩

theorem backslash_literal_unclosed :
    Text.unquote? "\"\\\"".toList = some ['\\'] ∧
      Declaration.parse "x = \"\\\" : String;".toList =
        .error (.invalidDeclaration "x = \"\\\" : String;".toList) ∧
      showing.write "Write(\"\\\", y);".toList =
        (some (.badLiteral "\"\\\", y".toList), showing) :=
  ⟨rfl, rfl, rfl⟩

end Session

end Pseudocode
