import Pseudocode.Proofs.Arguments
import Pseudocode.Proofs.FullOutput

/-!
An output statement is the sum of its parts. The scan that cuts an argument list starts afresh
behind each comma, so a part is cut no further when it stands alone, and the statement with that
part as its only argument prints the same text or fails with the same fault. All texts are made
before the first byte is offered: a list with a bad part prints nothing, and the fault is that of
the first bad part.
-/

namespace Pseudocode

namespace Text

variable {separator : Char} {quoted : Bool} {text first : Text} {others : List Text}

theorem splitOpen_cons (separator : Char) (quoted : Bool) (text : Text) :
    ∃ first others, splitOpen separator quoted text = first :: others := by
  rw [splitOpen_eq]
  cases scanOpen (fun rest => rest.head? = some separator) quoted text with
  | none => exact ⟨_, _, rfl⟩
  | some found => exact ⟨_, _, rfl⟩

theorem splitOpen_begins (shape : splitOpen separator quoted text = first :: others) :
    first <+: text := by
  rw [splitOpen_eq] at shape
  cases scanned : scanOpen (fun rest => rest.head? = some separator) quoted text with
  | none =>
      rw [scanned] at shape
      cases shape
      exact List.prefix_rfl
  | some found =>
      rw [scanned] at shape
      cases shape
      exact ⟨found.2, scanOpen_append scanned⟩

theorem splitOpen_of_extendFirst {lead : Text}
    (shape : extendFirst lead (splitOpen separator quoted text) = first :: others) :
    ∃ next, splitOpen separator quoted text = next :: others ∧ lead ++ next = first := by
  obtain ⟨next, more, inner⟩ := splitOpen_cons separator quoted text
  rw [inner] at shape
  cases shape
  exact ⟨next, inner, rfl⟩

/-- The scan that goes on from where a part begins finds nothing in it. -/
theorem scanOpen_part (shape : splitOpen separator quoted text = first :: others) :
    scanOpen (fun rest => rest.head? = some separator) quoted first = none ∧
      ∀ part ∈ others, scanOpen (fun rest => rest.head? = some separator) false part = none := by
  fun_induction splitOpen separator quoted text generalizing first others with
  | case1 =>
      cases shape
      exact ⟨rfl, by simp⟩
  | case2 rest ih =>
      obtain ⟨next, inner, rfl⟩ := splitOpen_of_extendFirst shape
      refine ⟨?_, (ih inner).2⟩
      change scanOpen _ true ('\\' :: '"' :: next) = none
      rw [scanOpen_escaped, (ih inner).1, Option.map_none]
  | case3 quoted rest _ ih =>
      obtain ⟨next, inner, rfl⟩ := splitOpen_of_extendFirst shape
      refine ⟨?_, (ih inner).2⟩
      rw [List.singleton_append, scanOpen_quote, (ih inner).1, Option.map_none]
  | case4 quoted c rest _ _ found ih =>
      rw [Bool.and_eq_true, Bool.not_eq_true'] at found
      obtain ⟨rfl, _⟩ := found
      -- The scan is outside quotes behind a separator, so what comes first there is a part as well.
      obtain ⟨next, more, inner⟩ := splitOpen_cons separator false rest
      cases shape
      refine ⟨rfl, ?_⟩
      rw [inner]
      exact List.forall_mem_cons.2 (ih inner)
  | case5 quoted c rest single other passed ih =>
      obtain ⟨next, inner, rfl⟩ := splitOpen_of_extendFirst shape
      -- A quote that follows the backslash in the part follows it in the whole text too.
      have inside : quoted = true → c = '\\' → next.head? ≠ some '"' := by
        rintro rfl rfl head
        obtain ⟨tail, rfl⟩ := List.head?_eq_some_iff.1 head
        obtain ⟨more, rfl⟩ := splitOpen_begins inner
        exact single _ rfl rfl rfl
      refine ⟨?_, (ih inner).2⟩
      rw [List.singleton_append, scanOpen_passed other inside
        (fun open_ => by simpa [open_] using passed), (ih inner).1, Option.map_none]

theorem openParts_part {part : Text} (member : part ∈ openParts separator text) :
    openParts separator part = [part] := by
  obtain ⟨first, others, shape⟩ := splitOpen_cons separator false text
  rw [openParts, shape] at member
  have alone := scanOpen_part shape
  rcases List.mem_cons.1 member with rfl | later
  · exact openParts_single alone.1
  · exact openParts_single (alone.2 part later)

end Text

/-- What went wrong, if anything did. -/
def faultOf {α : Type} : Except Fault α → Option Fault
  | .error fault => some fault
  | .ok _ => none

theorem faultOf_eq_none {α : Type} {result : Except Fault α} :
    faultOf result = none ↔ ∃ value, result = .ok value := by
  cases result <;> simp [faultOf]

namespace Scope

variable {scope : Scope}

/-- Without a quote at its ends, an argument that can be printed names a value. -/
theorem shown?_of_argumentText {argument text : Text}
    (printed : scope.argumentText argument = .ok text) (opens : argument.head? ≠ some '"')
    (closes : argument.getLast? ≠ some '"') :
    ∃ value, scope.shown? argument = some value ∧ value.isUnset = false ∧ value.text = text := by
  have filled : argument.isEmpty = false := by
    cases argument with
    | nil => contradiction
    | cons _ _ => rfl
  cases shown : scope.shown? argument with
  | none => simp [argumentText, filled, opens, closes, shown] at printed
  | some value =>
      cases unset : value.isUnset with
      | true => simp [argumentText, filled, opens, closes, shown, unset] at printed
      | false =>
          simp only [argumentText, filled, opens, closes, shown, unset] at printed
          exact ⟨value, rfl, unset, by simpa using printed⟩

end Scope

namespace Session

variable {session : Session} {arguments part text : Text}

/-- The session after its output took these bytes. -/
def printing (session : Session) (bytes : Bytes) : Session :=
  { session with output :=
      { session.output with
        written := session.output.written ++ bytes, attempts := session.output.attempts + 1 } }

/-- The bytes that the statement with this one argument adds to the output. -/
def printed (session : Session) (part : Text) : Bytes :=
  (session.write (callText Command.write.keyword part)).2.output.written.drop
    session.output.written.length

/-- What is wrong with one of several arguments: it is blank, or it cannot be printed alone. -/
def partFault (session : Session) (part : Text) : Option Fault :=
  if Text.trim part = [] then some (.malformed .blankArgument)
  else (session.write (callText Command.write.keyword part)).1

theorem partFault_eq_none :
    session.partFault part = none ↔
      Text.trim part ≠ [] ∧ (session.write (callText Command.write.keyword part)).1 = none := by
  unfold partFault
  split <;> simp [*]

theorem write_of_fault {statement : Text} {fault : Fault}
    (failed : session.scope.outputText statement = .error fault) :
    session.write statement = (some fault, session) := by
  simp only [write, failed]

section Boundless

variable (boundless : session.output.Boundless)
include boundless

theorem write_printing {statement : Text}
    (offered : session.scope.outputText statement = .ok text) :
    session.write statement = (none, session.printing (Text.toUtf8 text)) := by
  rw [write_of_text session offered, boundless.write]
  rfl

theorem write_fault (statement : Text) :
    (session.write statement).1 = faultOf (session.scope.outputText statement) := by
  cases offered : session.scope.outputText statement with
  | error fault => rw [write_of_fault offered, faultOf]
  | ok text => rw [write_printing boundless offered, faultOf]

theorem write_failed {statement : Text} {fault : Fault}
    (failed : (session.write statement).1 = some fault) :
    (session.write statement).2 = session := by
  cases offered : session.scope.outputText statement with
  | error told => rw [write_of_fault offered]
  | ok text =>
      rw [write_printing boundless offered] at failed
      cases failed

theorem partFault_eq (single : Text.openParts ',' part = [part]) :
    session.partFault part = faultOf (session.scope.argumentText (Text.trim part)) := by
  unfold partFault
  by_cases blank : Text.trim part = []
  · rw [if_pos blank, blank]
    rfl
  · rw [if_neg blank, write_fault boundless, Scope.outputText_single blank single]

theorem printed_of_text (single : Text.openParts ',' part = [part])
    (offered : session.scope.argumentText (Text.trim part) = .ok text) :
    session.printed part = Text.toUtf8 text := by
  have filled : Text.trim part ≠ [] := by
    intro blank
    rw [blank] at offered
    cases offered
  rw [← Scope.outputText_single filled single] at offered
  rw [printed, write_printing boundless offered]
  exact List.drop_left

theorem fault_parts {parts : List Text}
    (single : ∀ part ∈ parts, Text.openParts ',' part = [part]) :
    faultOf (session.scope.argumentTexts parts) = parts.findSome? session.partFault := by
  induction parts with
  | nil => rfl
  | cons part rest ih =>
      rw [List.forall_mem_cons] at single
      rw [List.findSome?_cons, partFault_eq boundless single.1, ← ih single.2]
      cases first : session.scope.argumentText (Text.trim part) with
      | error fault => simp [Scope.argumentTexts, first, bind, Except.bind, faultOf]
      | ok text =>
          simp only [Scope.argumentTexts, first, ok_bind, faultOf]
          cases session.scope.argumentTexts rest <;> rfl

theorem printed_parts {parts : List Text} {text : Text}
    (single : ∀ part ∈ parts, Text.openParts ',' part = [part])
    (offered : session.scope.argumentTexts parts = .ok text) :
    Text.toUtf8 text = parts.flatMap session.printed := by
  induction parts generalizing text with
  | nil =>
      cases offered
      rfl
  | cons part rest ih =>
      obtain ⟨first, begun, after⟩ := bind_eq_ok.1 offered
      obtain ⟨others, continued, whole⟩ := bind_eq_ok.1 after
      cases whole
      rw [List.forall_mem_cons] at single
      rw [Text.toUtf8_append, List.flatMap_cons, printed_of_text boundless single.1 begun,
        ih single.2 continued]

theorem shown?_of_part (single : Text.openParts ',' part = [part])
    (good : session.partFault part = none) (opens : (Text.trim part).head? ≠ some '"')
    (closes : (Text.trim part).getLast? ≠ some '"') :
    ∃ value, session.scope.shown? (Text.trim part) = some value ∧ value.isUnset = false ∧
      session.printed part = Text.toUtf8 value.text := by
  rw [partFault_eq boundless single, faultOf_eq_none] at good
  obtain ⟨text, offered⟩ := good
  obtain ⟨value, shown, concrete, rfl⟩ := Scope.shown?_of_argumentText offered opens closes
  exact ⟨value, shown, concrete, printed_of_text boundless single offered⟩

end Boundless

/-- A statement with several arguments succeeds exactly if none of them is blank and each can be
printed alone, and prints what these print, one after the other; an argument without quotes at its
ends is then the name of a value that is no placeholder. Otherwise nothing is printed, and the fault
is that of the first bad argument. -/
theorem write_part_by_part (session : Session) {arguments : Text}
    (boundless : session.output.Boundless) (filled : Text.trim arguments ≠ []) :
    ((session.write (callText Command.write.keyword arguments)).1 = none ↔
      ∀ part ∈ Text.openParts ',' arguments,
        Text.trim part ≠ [] ∧ (session.write (callText Command.write.keyword part)).1 = none) ∧
    ((session.write (callText Command.write.keyword arguments)).1 = none →
      (session.write (callText Command.write.keyword arguments)).2 =
        session.printing ((Text.openParts ',' arguments).flatMap session.printed) ∧
      ∀ part ∈ Text.openParts ',' arguments,
        (Text.trim part).head? ≠ some '"' → (Text.trim part).getLast? ≠ some '"' →
          ∃ value, session.scope.shown? (Text.trim part) = some value ∧ value.isUnset = false ∧
            session.printed part = Text.toUtf8 value.text) ∧
    (∀ fault, (session.write (callText Command.write.keyword arguments)).1 = some fault →
      (session.write (callText Command.write.keyword arguments)).2 = session ∧
      ∃ front part back, Text.openParts ',' arguments = front ++ part :: back ∧
        (∀ earlier ∈ front, session.partFault earlier = none) ∧
        session.partFault part = some fault) := by
  have single : ∀ part ∈ Text.openParts ',' arguments, Text.openParts ',' part = [part] :=
    fun part member => Text.openParts_part member
  have whole : session.scope.outputText (callText Command.write.keyword arguments) =
      session.scope.argumentTexts (Text.openParts ',' arguments) := by
    exact Scope.outputText_filled filled
  have told : (session.write (callText Command.write.keyword arguments)).1 =
      (Text.openParts ',' arguments).findSome? session.partFault := by
    rw [write_fault boundless, whole, fault_parts boundless single]
  refine ⟨by simp only [told, List.findSome?_eq_none_iff, partFault_eq_none], ?_, ?_⟩
  · intro succeeds
    have good := List.findSome?_eq_none_iff.1 (told.symm.trans succeeds)
    rw [write_fault boundless, faultOf_eq_none] at succeeds
    obtain ⟨text, offered⟩ := succeeds
    have bytes := printed_parts boundless single (whole.symm.trans offered)
    refine ⟨by rw [write_printing boundless offered, bytes], ?_⟩
    intro part member
    exact shown?_of_part boundless (single part member) (good part member)
  · intro fault failed
    obtain ⟨front, part, back, shape, bad, good⟩ :=
      List.findSome?_eq_some_iff.1 (told.symm.trans failed)
    exact ⟨write_failed boundless failed, front, part, back, shape, good, bad⟩

-- A comma inside quotes, and a blank argument in front of an unknown name.
theorem quoted_comma_part_by_part :
    showing.output.Boundless ∧ Text.trim "\"a, b\", y ".toList ≠ [] ∧
      (showing.write "Write(\"a, b\", y );".toList).2 =
        showing.printing (showing.printed "\"a, b\"".toList ++ showing.printed " y ".toList) ∧
      showing.write "Write(y, , q);".toList = (some (.malformed .blankArgument), showing) := by
  have boundless : showing.output.Boundless := rfl
  have filled : Text.trim "\"a, b\", y ".toList ≠ [] := by decide
  obtain ⟨_, printed, _⟩ := write_part_by_part showing boundless filled
  obtain ⟨_, _, failed⟩ := write_part_by_part showing boundless
    (show Text.trim "y, , q".toList ≠ [] by decide)
  refine ⟨boundless, filled, (printed rfl).1.trans ?_, Prod.ext rfl (failed _ rfl).1⟩
  rfl

/-- Blanks around a literal keep its quotes from the ends of the argument. -/
theorem literal_between_blanks :
    showing.output.Boundless ∧ (showing.write "Write( \"a\" );".toList).1 = none ∧
      Text.openParts ',' " \"a\" ".toList = [" \"a\" ".toList] ∧
      " \"a\" ".toList.head? ≠ some '"' ∧ " \"a\" ".toList.getLast? ≠ some '"' ∧
      showing.scope.shown? (Text.trim " \"a\" ".toList) = none :=
  ⟨rfl, rfl, rfl, by decide, by decide, rfl⟩

end Session

end Pseudocode
