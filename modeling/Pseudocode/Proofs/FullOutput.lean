import Pseudocode.Proofs.Failures
import Pseudocode.Proofs.Lockstep

/-!
Output that runs full. An output statement makes its whole text before it offers any of it, and
offers it at once. So a run with room for so many bytes goes in step with one that has room for
everything, as long as its bytes fit; the first text that does not fit is cut where the room ends,
and the run stops there, before its tables have seen anything of it.
-/

namespace Pseudocode

namespace Output

/-- Nothing is refused. -/
def Boundless (output : Output) : Prop := output.refuse = unlimited.refuse

/-- The same output with room for `capacity` bytes in all. -/
def capped (capacity : Nat) (output : Output) : Output :=
  { output with refuse := (limited capacity).refuse }

variable {output : Output} {capacity : Nat} {bytes : Bytes}

theorem Boundless.write (boundless : output.Boundless) (bytes : Bytes) :
    output.write bytes =
      (none, { output with
        written := output.written ++ bytes, attempts := output.attempts + 1 }) := by
  unfold Boundless at boundless
  simp only [Output.write, boundless, unlimited]

theorem capped_write_fits (fits : output.written.length + bytes.length ≤ capacity) :
    (output.capped capacity).write bytes =
      (none, { output.capped capacity with
        written := output.written ++ bytes, attempts := output.attempts + 1 }) := by
  have room : bytes.length ≤ capacity - output.written.length := by omega
  simp only [write, capped, limited, if_pos room]

theorem capped_write_full (room : output.written.length ≤ capacity)
    (exceeds : capacity < output.written.length + bytes.length) :
    (output.capped capacity).write bytes =
      (some .outputFull, { output.capped capacity with
        written := (output.written ++ bytes).take capacity, attempts := output.attempts + 1 }) := by
  have small : ¬ bytes.length ≤ capacity - output.written.length := by omega
  simp only [write, capped, limited, if_neg small, List.take_append, List.take_of_length_le room]

/-- Whatever is refused, what was taken stays. -/
theorem write_grows (output : Output) (bytes : Bytes) :
    output.written <+: (output.write bytes).2.written := by
  unfold write
  split <;> exact List.prefix_append ..

end Output

namespace Session

theorem Leads.grows {session last : Session} (leads : session.Leads last) :
    session.output.written <+: last.output.written := by
  induction leads with
  | refl => exact List.prefix_rfl
  | tail _ move ih =>
      cases move with
      | reads _ _ => exact ih
      | misreads _ => exact ih
      | assigns _ _ _ => exact ih
      | writes bytes => exact ih.trans (Output.write_grows ..)

def capped (capacity : Nat) : Session → Session := rewired id (Output.capped capacity)

theorem readName_capped {capacity : Nat} {session : Session} {name : Text}
    (boundless : session.output.Boundless) :
    Commutes readName (capped capacity) (·.output.Boundless) session name := by
  rcases readName_cases session.scope name with ⟨fault, _, refused⟩ | ⟨old, _, asked⟩
  · exact .of_results (refused session.input session.output) (refused _ _) boundless
  · have plain : session.readName name = _ := asked session.input session.output
    have changed : (session.capped capacity).readName name = _ := asked session.input _
    rcases taken : session.input.nextValue old.kind with ⟨fault | value, after⟩ <;>
    · rw [taken] at plain changed
      exact .of_results plain changed boundless

theorem capped_unnoticed (capacity : Nat) :
    Unnoticed (capped capacity) (·.output.Boundless) (·.2.output.written.length ≤ capacity) where
  earlier := by
    intro before after fault leads fits
    exact Nat.le_trans leads.grows.length_le fits
  reads := fun boundless _ => readName_capped boundless
  writes := by
    intro session statement boundless fits
    refine write_rewired boundless fun text offered => ?_
    have written := boundless.write (Text.toUtf8 text)
    rw [write_of_text session offered, written] at fits
    rw [written]
    refine ⟨boundless, ?_⟩
    rw [Output.capped_write_fits (by simpa using fits)]
    rfl
  assigns := fun boundless => assign_rewired boundless fun _ => boundless

theorem run_append {session middle : Session} {front : List Statement}
    (done : session.run front = (none, middle)) (back : List Statement) :
    session.run (front ++ back) = middle.run back := by
  induction front generalizing session with
  | nil =>
      cases done
      rfl
  | cons statement rest ih =>
      rcases first : session.step statement with ⟨_ | error, after⟩
      · simp only [run, first, List.cons_append] at done ⊢
        exact ih done
      · simp only [run, first] at done
        cases done

/-- Where a run breaks a property of sessions, some statement is the first to break it. -/
theorem run_first_break (property : Session → Prop) {session : Session}
    {statements : List Statement} (held : property session)
    (broken : ¬ property (session.run statements).2) :
    ∃ front statement back middle, statements = front ++ statement :: back ∧
      session.run front = (none, middle) ∧ property middle ∧
      ¬ property (middle.step statement).2 := by
  induction statements generalizing session with
  | nil => exact absurd held broken
  | cons statement rest ih =>
      by_cases kept : property (session.step statement).2
      · rcases first : session.step statement with ⟨_ | error, after⟩
        · rw [first] at kept
          simp only [run, first] at broken
          obtain ⟨front, next, back, middle, rfl, earlier, found⟩ := ih kept broken
          exact ⟨statement :: front, next, back, middle, rfl, by simpa only [run, first], found⟩
        · rw [first] at kept
          simp only [run, first] at broken
          exact absurd kept broken
      · exact ⟨[], statement, rest, session, rfl, rfl, held, kept⟩

theorem perform_output {session : Session} {command : Command} {statement : Text}
    (silent : command ≠ .write) :
    (session.perform command statement).2.output = session.output := by
  cases command with
  | write => contradiction
  | read =>
      simp only [perform, read]
      split
      · rfl
      · exact readNames_output ..
  | assign =>
      simp only [perform, assign]
      split <;> rfl

/-- A statement after which there is more output is an output statement, and has made its text. -/
theorem step_wrote (session : Session) (statement : Statement)
    (wrote : (session.step statement).2.output.written ≠ session.output.written) :
    statement.command = .write ∧
      ∃ text, session.scope.outputText statement.text = .ok text := by
  have performed : (session.step statement).2 =
      (session.perform statement.command statement.text).2 := rfl
  rw [performed] at wrote
  by_cases command : statement.command = .write
  · refine ⟨command, ?_⟩
    rcases offered : session.scope.outputText statement.text with fault | text
    · simp only [command, perform, write, offered] at wrote
      contradiction
    · exact ⟨text, rfl⟩
  · rw [perform_output command] at wrote
    contradiction

theorem step_of_text (session : Session) {statement : Statement} {text : Text}
    (command : statement.command = .write)
    (offered : session.scope.outputText statement.text = .ok text) :
    session.step statement =
      ((session.output.write (Text.toUtf8 text)).1.map fun cause =>
          ⟨statement.line, .disrupted cause⟩,
        { session with output := (session.output.write (Text.toUtf8 text)).2 }) := by
  simp only [step, command, perform, write_of_text session offered, Option.map_map,
    Function.comp_def]

/-- Without a cap the statement succeeds; with it the text is cut, and the tables are left alone. -/
theorem step_capped {capacity : Nat} {session : Session} {statement : Statement}
    (boundless : session.output.Boundless) (fits : session.output.written.length ≤ capacity)
    (breaks : ¬ (session.step statement).2.output.written.length ≤ capacity) :
    statement.command = .write ∧
      ∃ after cut, session.step statement = (none, after) ∧
        (session.capped capacity).step statement =
          (some ⟨statement.line, .disrupted .outputFull⟩, cut) ∧
        cut.scope = session.scope ∧
        cut.output.written = after.output.written.take capacity := by
  obtain ⟨command, text, offered⟩ :=
    step_wrote session statement fun same => breaks (by rwa [same])
  have plain := step_of_text session command offered
  rw [boundless.write] at plain
  rw [plain] at breaks
  have changed := step_of_text (session.capped capacity) command offered
  simp only [capped, rewired] at changed
  rw [Output.capped_write_full fits (by simpa using breaks)] at changed
  exact ⟨command, _, _, plain, changed, rfl, rfl⟩

end Session

namespace Program

/-- Room for a number of bytes is as good as room for everything if all that is written fits. If
not, the run stops at the first output statement whose text does not fit. The bytes are cut where
the room ends, the error says that the output is full and has the line of that statement, and the
tables are as the statement found them. -/
theorem run_limited (program : Program) (input : Bytes) (capacity : Nat) :
    ((program.run input .unlimited).output.length ≤ capacity →
      program.run input (.limited capacity) = program.run input .unlimited) ∧
    (capacity < (program.run input .unlimited).output.length →
      ∃ front statement back middle after,
        program.statements = front ++ statement :: back ∧
        (program.session input .unlimited).run front = (none, middle) ∧
        middle.output.written.length ≤ capacity ∧
        statement.command = .write ∧
        middle.step statement = (none, after) ∧
        capacity < after.output.written.length ∧
        program.run input (.limited capacity) =
          ⟨some ⟨statement.line, .disrupted .outputFull⟩, { program with scope := middle.scope },
            (program.run input .unlimited).output.take capacity⟩) := by
  have start : (program.session input .unlimited).output.Boundless := rfl
  have limited : program.session input (.limited capacity) =
      (program.session input .unlimited).capped capacity := rfl
  constructor
  · intro fits
    have same := ((Session.capped_unnoticed capacity).run start fits).same
    simp only [run, limited, same]
    rfl
  · intro exceeds
    obtain ⟨front, statement, back, middle, shape, earlier, fits, breaks⟩ :=
      Session.run_first_break (·.output.written.length ≤ capacity)
        (Nat.zero_le _) (Nat.not_le.2 exceeds)
    -- Up to this statement both runs have gone in step.
    obtain ⟨kept, same⟩ := (Session.capped_unnoticed capacity).run start (by rwa [earlier])
    rw [earlier] at kept same
    obtain ⟨command, after, cut, plain, stopped, scope, written⟩ :=
      Session.step_capped kept fits breaks
    have beyond : capacity < after.output.written.length := by
      simpa only [plain, Nat.not_le] using breaks
    refine ⟨front, statement, back, middle, after, shape, earlier, fits, command, plain, beyond, ?_⟩
    have whole : (program.session input .unlimited).run program.statements = after.run back := by
      rw [shape, Session.run_append earlier]
      simp only [Session.run, plain]
    have part : ((program.session input .unlimited).capped capacity).run program.statements =
        (some ⟨statement.line, .disrupted .outputFull⟩, cut) := by
      rw [shape, Session.run_append same]
      simp only [Session.run, stopped]
    -- What is written from there on comes behind the place of the cut.
    obtain ⟨rest, grown⟩ := (Session.run_leads after back).grows
    simp only [run, limited, whole, part, scope, written, ← grown,
      List.take_append_of_le_length (Nat.le_of_lt beyond)]

def accents : Program :=
  ⟨"Accents".toList, ⟨.empty, ⟨[(['n'], .unset .integer)], by decide⟩⟩,
    [⟨5, .write, "Write(\"é\");".toList⟩, ⟨6, .read, "Read(n);".toList⟩,
      ⟨7, .write, "Write(\"é\", n);".toList⟩, ⟨8, .assign, "n = n + 1;".toList⟩]⟩

-- The room ends inside a character: what is left of the third statement is no text any more.
theorem accents_limited :
    (accents.run [55] .unlimited).output = [195, 169, 195, 169, 55] ∧
    accents.run [55] (.limited 5) = accents.run [55] .unlimited ∧
    (accents.run [55] (.limited 3)).error = some ⟨7, .disrupted .outputFull⟩ ∧
    (accents.run [55] (.limited 3)).output = [195, 169, 195] := by
  have evaluated : (accents.run [55] .unlimited).output = [195, 169, 195, 169, 55] ∧
      (accents.run [55] (.limited 3)).error = some ⟨7, .disrupted .outputFull⟩ := by
    decide +kernel
  obtain ⟨whole, failed⟩ := evaluated
  refine ⟨whole, (run_limited accents [55] 5).1 (by rw [whole]; decide), failed, ?_⟩
  obtain ⟨_, _, _, _, _, _, _, _, _, _, _, cut⟩ :=
    (run_limited accents [55] 3).2 (by rw [whole]; decide)
  rw [cut, whole]
  rfl

end Program

end Pseudocode
