import Pseudocode.Proofs.Arguments
import Pseudocode.Proofs.Comments
import Pseudocode.Proofs.Runs

/-!
An input statement is the sequence of its names. Each name takes its value from what the names
before it have left of the input, and the value is stored before the next name is looked up. So the
statement can be taken apart into one statement a name, at the same line, wherever it fails. A name
that is listed more than once takes a value each time, and the last of them stays.
-/

namespace Pseudocode

/-- The values come from the input in this order, each read as a value of its type. -/
inductive Reader.Gives : Reader → List Value → Reader → Prop where
  | done {reader : Reader} : Gives reader [] reader
  | next {reader middle after : Reader} {value : Value} {values : List Value}
      (first : reader.nextValue value.kind = (.ok value, middle))
      (others : Gives middle values after) : Gives reader (value :: values) after

/-- The value of a name after these are stored in turn: the last one for the name, or else the one
it had. -/
def lastValue? (bindings : List (Text × Value)) (symbols : Symbols) (name : Text) : Option Value :=
  (bindings.reverse.lookup name).or (symbols.get? name)

theorem lastValue?_cons {symbols : Symbols} {name : Text} {old value : Value}
    (declared : symbols.get? name = some old) (bindings : List (Text × Value)) :
    lastValue? ((name, value) :: bindings) symbols =
      lastValue? bindings (symbols.store name value) := by
  funext other
  unfold lastValue?
  rw [List.reverse_cons, List.lookup_append, Option.or_assoc, Symbols.get?_store]
  congr 1
  by_cases same : other = name
  · subst same
    simp [declared]
  · have different : (other == name) = false := by simpa using same
    simp [List.lookup_cons, different, same]

namespace Session

variable {session after : Session}

/-- What there is to a name that can be read: it is a variable, and the input gives a value of its
type. -/
theorem readName_ok {name : Text} (read : session.readName name = (none, after)) :
    ∃ old value, session.scope.variables.get? name = some old ∧
      session.input.nextValue value.kind = (.ok value, after.input) ∧
      after = { session with input := after.input }.setVariables
        (session.scope.variables.store name value) := by
  have named := session.nameRead name
  rw [read] at named
  cases named with
  | stored found taken =>
      refine ⟨_, _, found, ?_, rfl⟩
      rw [(Reader.nextValue_kind taken).1]
      exact taken

theorem readNames_ok {names : List Text} (read : session.readNames names = (none, after)) :
    ∃ values, values.length = names.length ∧ session.input.Gives values after.input ∧
      after.scope.variables.get? =
        lastValue? ((names.map Text.trim).zip values) session.scope.variables := by
  induction names generalizing session with
  | nil =>
      cases read
      exact ⟨[], rfl, .done, rfl⟩
  | cons name rest ih =>
      rcases done : session.readName (Text.trim name) with ⟨_ | fault, middle⟩
      · simp only [readNames, done] at read
        obtain ⟨values, size, given, held⟩ := ih read
        obtain ⟨old, value, declared, taken, stored⟩ := readName_ok done
        refine ⟨value :: values, by simp [size], .next taken given, ?_⟩
        have table : middle.scope.variables =
            session.scope.variables.store (Text.trim name) value := by rw [stored]; rfl
        rw [held, table, List.map_cons, List.zip_cons_cons, lastValue?_cons declared]
      · simp only [readNames, done] at read
        cases read

theorem read_reading (session : Session) (arguments : Text) :
    session.read (callText Command.read.keyword arguments) =
      session.readNames (arguments.splitOn ',') := by
  simp only [read, callArguments_callText, Text.parts_eq_splitOn]

theorem read_single {part : Text} (single : ',' ∉ part) :
    session.read (callText Command.read.keyword part) = session.readName (Text.trim part) := by
  have alone : part.splitOn ',' = [part] := List.splitOn_eq_singleton single
  rw [read_reading, alone]
  rcases done : session.readName (Text.trim part) with ⟨_ | fault, next⟩
  · simp only [readNames, done]
  · simp only [readNames, done]

/-- One statement for each part, all on one line of the program. -/
def readingEach (line : Nat) (parts : List Text) : List Statement :=
  parts.map fun part => ⟨line, .read, callText Command.read.keyword part⟩

theorem step_reading (session : Session) (line : Nat) (arguments : Text) :
    session.step ⟨line, .read, callText Command.read.keyword arguments⟩ =
      ((session.read (callText Command.read.keyword arguments)).1.map (RunError.mk line),
        (session.read (callText Command.read.keyword arguments)).2) := rfl

theorem run_readingEach (session : Session) (line : Nat) {parts : List Text}
    (single : ∀ part ∈ parts, ',' ∉ part) :
    session.run (readingEach line parts) =
      ((session.readNames parts).1.map (RunError.mk line), (session.readNames parts).2) := by
  induction parts generalizing session with
  | nil => rfl
  | cons part rest ih =>
      obtain ⟨first, others⟩ := List.forall_mem_cons.1 single
      have step := step_reading session line part
      rw [read_single first] at step
      rcases done : session.readName (Text.trim part) with ⟨_ | fault, next⟩
      · rw [done] at step
        simp only [readingEach, List.map_cons, run, step, Option.map_none, readNames, done]
        exact ih next others
      · rw [done] at step
        simp only [readingEach, List.map_cons, run, step, Option.map_some, readNames, done]

/-- An input statement does what one statement for each of its parts does, one after the other on
the same line up to the first that fails: it reports the same, and leaves the same variables, the
same input and the same output. When it succeeds, the input has given one value for each part, in
their order, and each name has the last value that was read for it. -/
theorem read_part_by_part (session : Session) (line : Nat) (arguments : Text) :
    session.step ⟨line, .read, callText Command.read.keyword arguments⟩ =
      session.run (readingEach line (arguments.splitOn ',')) ∧
    ∀ after, session.step ⟨line, .read, callText Command.read.keyword arguments⟩ = (none, after) →
      ∃ values, values.length = (arguments.splitOn ',').length ∧
        session.input.Gives values after.input ∧
        ∀ name, after.scope.variables.get? name =
          lastValue? (((arguments.splitOn ',').map Text.trim).zip values)
            session.scope.variables name := by
  have single : ∀ part ∈ arguments.splitOn ',', ',' ∉ part := by
    rw [← Text.parts_eq_splitOn]
    exact fun part member => Text.absent_of_mem_parts member
  refine ⟨by rw [run_readingEach session line single, step_reading, read_reading], ?_⟩
  intro after succeeds
  rw [step_reading, read_reading, Prod.mk.injEq, Option.map_eq_none_iff] at succeeds
  obtain ⟨values, size, given, held⟩ := readNames_ok (Prod.ext succeeds.1 succeeds.2)
  exact ⟨values, size, given, fun name => congrFun held name⟩

/-- Two variables, to be read from the lines `1 ab` and `2`. -/
def rereading : Session where
  scope :=
    { constants := .empty
      «variables» :=
        ⟨[(['s'], .unset .string), (['x'], .unset .integer)], by decide⟩ }
  input := .ofBytes [49, 32, 97, 98, 10, 50, 10]
  output := .unlimited

-- The number is read twice, with a text from the rest of the first line in between.
theorem number_read_twice :
    (rereading.step ⟨4, .read, "Read(x, s,x);".toList⟩).1 = none ∧
    (rereading.step ⟨4, .read, "Read(x, s,x);".toList⟩).2.scope.variables.entries =
      [(['s'], .string ['a', 'b']), (['x'], .integer ⟨2, by decide⟩)] ∧
    rereading.step ⟨4, .read, "Read(x, s,x);".toList⟩ =
      rereading.run [⟨4, .read, "Read(x);".toList⟩, ⟨4, .read, "Read( s);".toList⟩,
        ⟨4, .read, "Read(x);".toList⟩] ∧
    ∃ values, values.length = 3 ∧ rereading.input.Gives values
      (rereading.step ⟨4, .read, "Read(x, s,x);".toList⟩).2.input := by
  obtain ⟨same, succeeds⟩ := read_part_by_part rereading 4 "x, s,x".toList
  have done : (rereading.step ⟨4, .read, "Read(x, s,x);".toList⟩).1 = none := by decide +kernel
  obtain ⟨values, size, given, _⟩ := succeeds _ (Prod.ext done rfl)
  exact ⟨done, by decide +kernel, same, values, size, given⟩

end Session

end Pseudocode
