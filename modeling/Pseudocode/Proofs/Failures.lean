import Pseudocode.Proofs.Moves
import Pseudocode.Proofs.ReportedLines

/-!
What a failing statement leaves behind. An assignment that fails changes nothing. A failing output
statement has written nothing, unless it was the output that failed. An input statement is the one
that can fail halfway: the names before the failing one keep what was read into them, and only a
fault that comes out of the input itself can have taken more of it. A run stops at the first
statement that fails, and is left where that statement left it.
-/

namespace Pseudocode

/-- An output that fails has taken a beginning of what it was offered. -/
theorem Output.write_failed {output after : Output} {bytes : Bytes} {cause : Disruption}
    (failed : output.write bytes = (some cause, after)) :
    ∃ count, after.written = output.written ++ bytes.take count := by
  unfold write at failed
  cases refused : output.refuse output.attempts output.written bytes with
  | none =>
      rw [refused] at failed
      cases failed
  | some refusal =>
      rw [refused] at failed
      cases failed
      exact ⟨refusal.1, rfl⟩

namespace Session

theorem readName_output (session : Session) (name : Text) :
    (session.readName name).2.output = session.output := by
  have read := session.nameRead name
  rcases done : session.readName name with ⟨fault, after⟩
  rw [done] at read
  cases read <;> rfl

theorem readNames_output (session : Session) (names : List Text) :
    (session.readNames names).2.output = session.output := by
  rw [readNames_eq]
  exact untilFault_keeps readTrimmed (fun before after => after.output = before.output)
    (fun _ => rfl) (fun early late => late.trans early)
    (fun name _ session => readName_output session (Text.trim name)) session

/-- A name that cannot be read keeps its value, and only a fault of the input has taken any. -/
theorem readName_failed {session after : Session} {name : Text} {fault : Fault}
    (failed : session.readName name = (some fault, after)) :
    after.scope = session.scope ∧
      (fault.needsInput = false → after.input = session.input) := by
  have read := session.nameRead name
  rw [failed] at read
  cases read with
  | refused early => exact ⟨rfl, fun _ => rfl⟩
  | failed taken =>
      refine ⟨rfl, fun outside => ?_⟩
      rw [Reader.nextValue_error taken] at outside
      contradiction

/-- What a statement that fails leaves of the session before it. -/
inductive Leaves (before : Session) : Command → Text → Fault → Session → Prop where
  | assign {statement : Text} {fault : Fault} : Leaves before .assign statement fault before
  | silent {statement : Text} {fault : Fault}
      (rejected : before.scope.outputText statement = .error fault) :
      Leaves before .write statement fault before
  | cut {statement text : Text} {cause : Disruption} {output : Output} {count : Nat}
      (offered : before.scope.outputText statement = .ok text)
      (written : output.written = before.output.written ++ (Text.toUtf8 text).take count) :
      Leaves before .write statement (.disrupted cause) { before with output := output }
  | call {statement : Text} {fault : Fault}
      (rejected : callArguments Command.read.keyword statement = .error fault) :
      Leaves before .read statement fault before
  | name {statement arguments name : Text} {front back : List Text} {fault : Fault}
      {middle after : Session}
      (call : callArguments Command.read.keyword statement = .ok arguments)
      (names : Text.parts ',' arguments = front ++ name :: back)
      (earlier : before.readNames front = (none, middle))
      (failing : middle.readName (Text.trim name) = (some fault, after))
      (scope : after.scope = middle.scope) (output : after.output = before.output)
      (input : fault.needsInput = false → after.input = middle.input) :
      Leaves before .read statement fault after

section Statements

variable {session after : Session} {statement : Text} {fault : Fault}

theorem write_leaves (failed : session.write statement = (some fault, after)) :
    session.Leaves .write statement fault after := by
  cases offered : session.scope.outputText statement with
  | error cause =>
      simp only [write, offered] at failed
      cases failed
      exact .silent offered
  | ok text =>
      simp only [write, offered] at failed
      rcases written : session.output.write (Text.toUtf8 text) with ⟨_ | cause, output⟩
      · rw [written] at failed
        cases failed
      · rw [written] at failed
        cases failed
        obtain ⟨count, taken⟩ := Output.write_failed written
        exact .cut offered taken

theorem read_leaves (failed : session.read statement = (some fault, after)) :
    session.Leaves .read statement fault after := by
  cases call : callArguments Command.read.keyword statement with
  | error cause =>
      simp only [read, call] at failed
      cases failed
      exact .call call
  | ok arguments =>
      simp only [read, call] at failed
      have output := readNames_output session (Text.parts ',' arguments)
      rw [failed] at output
      rw [readNames_eq, untilFault_failed_iff] at failed
      obtain ⟨front, name, back, middle, names, earlier, failing⟩ := failed
      rw [← readNames_eq] at earlier
      obtain ⟨scope, input⟩ := readName_failed failing
      exact .name call names earlier failing scope output input

theorem assign_leaves (failed : session.assign statement = (some fault, after)) :
    session.Leaves .assign statement fault after := by
  cases assigned : session.scope.assigned statement with
  | error cause =>
      simp only [assign, assigned] at failed
      cases failed
      exact .assign
  | ok table =>
      simp only [assign, assigned] at failed
      cases failed

theorem perform_leaves {command : Command}
    (failed : session.perform command statement = (some fault, after)) :
    session.Leaves command statement fault after := by
  cases command with
  | write => exact write_leaves failed
  | read => exact read_leaves failed
  | assign => exact assign_leaves failed

end Statements

theorem step_failed_iff {session after : Session} {statement : Statement} {error : RunError} :
    session.step statement = (some error, after) ↔
      error.line = statement.line ∧
        session.perform statement.command statement.text = (some error.fault, after) := by
  rcases done : session.perform statement.command statement.text with ⟨_ | fault, next⟩
  · simp [step, done]
  · obtain ⟨line, cause⟩ := error
    simp only [step, done, Option.map_some, Prod.mk.injEq, Option.some.injEq, RunError.mk.injEq]
    constructor
    · rintro ⟨⟨rfl, rfl⟩, rfl⟩
      exact ⟨rfl, rfl, rfl⟩
    · rintro ⟨rfl, rfl, rfl⟩
      exact ⟨⟨rfl, rfl⟩, rfl⟩

end Session

namespace Program

/-- Failures are contained. A statement that fails, in any session, reports its own line and
leaves what `Leaves` says; its error is the one that was raised with the line where it arose. A run
fails exactly if some statement does after all earlier ones have succeeded, with the error of that
statement; and the variables and the output are then as the earlier statements and the partial
effect of this one have made them. -/
theorem run_failed_iff (program : Program) (input : Bytes) (output : Output) :
    (∀ (session after : Session) (statement : Statement) (error : RunError),
      session.step statement = (some error, after) →
        error.line = statement.line ∧
        session.Leaves statement.command statement.text error.fault after) ∧
    (∀ (session : Session) (statement : Statement),
      Reported.execute statement.line session statement.command statement.text =
        session.step statement) ∧
    ∀ error, (program.run input output).error = some error ↔
      ∃ front statement back middle after,
        program.statements = front ++ statement :: back ∧
        (program.session input output).run front = (none, middle) ∧
        middle.step statement = (some error, after) ∧
        (program.run input output).program = { program with scope := after.scope } ∧
        (program.run input output).output = after.output.written := by
  refine ⟨?_, Reported.execute_eq, ?_⟩
  · intro session after statement error failed
    obtain ⟨line, performed⟩ := Session.step_failed_iff.1 failed
    exact ⟨line, Session.perform_leaves performed⟩
  · intro error
    rcases ran : (program.session input output).run program.statements with ⟨stopped, last⟩
    have outcome : program.run input output =
        ⟨stopped, { program with scope := last.scope }, last.output.written⟩ := by
      simp only [run, ran]
    rw [outcome]
    constructor
    · rintro rfl
      rw [Session.run_eq, untilFault_failed_iff] at ran
      obtain ⟨front, statement, back, middle, shape, earlier, failed⟩ := ran
      rw [← Session.run_eq] at earlier
      exact ⟨front, statement, back, middle, last, shape, earlier, failed, rfl, rfl⟩
    · rintro ⟨front, statement, back, middle, after, shape, earlier, failed, _, _⟩
      rw [Session.run_eq] at earlier
      have stops := (untilFault_failed_iff Session.step).2
        ⟨front, statement, back, middle, shape, earlier, failed⟩
      rw [← Session.run_eq, ran] at stops
      cases stops
      rfl

/-- Two numbers are to be read between a text and the first of them. -/
def halfway : Program :=
  ⟨"Half".toList, ⟨.empty, ⟨[(['n'], .unset .integer), (['m'], .unset .integer)], by decide⟩⟩,
    [⟨6, .write, "Write(\"in\");".toList⟩, ⟨7, .read, "Read(n, m);".toList⟩,
      ⟨8, .write, "Write(n);".toList⟩]⟩

-- The input is `1 x`: the first name has its number when the second finds none.
theorem halfway_contained :
    (halfway.run [49, 32, 120] .unlimited).error =
      some ⟨7, .mismatch (.unreadable .integer ['x'])⟩ ∧
    (halfway.run [49, 32, 120] .unlimited).program.scope.variables.entries =
      [(['n'], .integer ⟨1, by decide⟩), (['m'], .unset .integer)] ∧
    (halfway.run [49, 32, 120] .unlimited).output = [105, 110] ∧
    ∃ (statement : Statement) (middle after : Session), statement ∈ halfway.statements ∧
      statement.line = 7 ∧
      middle.Leaves statement.command statement.text (.mismatch (.unreadable .integer ['x']))
        after ∧
      (halfway.run [49, 32, 120] .unlimited).program.scope = after.scope := by
  have failed : (halfway.run [49, 32, 120] .unlimited).error =
      some ⟨7, .mismatch (.unreadable .integer ['x'])⟩ := by decide +kernel
  obtain ⟨leaves, _, stops⟩ := run_failed_iff halfway [49, 32, 120] .unlimited
  obtain ⟨front, statement, back, middle, after, shape, _, step, kept, _⟩ := (stops _).1 failed
  obtain ⟨line, left⟩ := leaves middle after statement _ step
  refine ⟨failed, by decide +kernel, by decide +kernel, statement, middle, after, ?_, line.symm,
    left, by rw [kept]⟩
  rw [shape]
  simp

end Program

end Pseudocode
