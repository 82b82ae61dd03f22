import Pseudocode.Proofs.Lockstep
import Pseudocode.Proofs.Reading

/-!
Input that a run does not ask for. A reader takes in one line at a time and never looks beyond the
line feed that ends it. So where the input consists of whole lines, whatever follows them can show
only to a run that has used them up and asks for more; without it such a run ends for lack of
input. Two runs, with and without the further input, go in step until then.
-/

namespace Pseudocode

namespace Reader

/-- There is nothing, or a line feed at the end. -/
def WholeLines (bytes : Bytes) : Prop := bytes = [] ∨ bytes.getLast? = some lineFeed

/-- A line that has its line feed is the same, whatever follows. -/
theorem takeLine_whole {bytes : Bytes} (whole : WholeLines bytes) (filled : bytes ≠ [])
    (extra : Bytes) :
    WholeLines (takeLine bytes).2 ∧
      takeLine (bytes ++ extra) = ((takeLine bytes).1, (takeLine bytes).2 ++ extra) := by
  induction bytes with
  | nil => contradiction
  | cons byte rest ih =>
      have last := whole.resolve_left filled
      by_cases feed : byte = lineFeed
      · simp only [List.cons_append, takeLine, feed, ↓reduceIte, and_true]
        cases rest with
        | nil => exact .inl rfl
        | cons next others => exact .inr (by rwa [List.getLast?_cons_cons] at last)
      · cases rest with
        | nil =>
            rw [List.getLast?_singleton, Option.some.injEq] at last
            exact absurd last feed
        | cons next others =>
            rw [List.getLast?_cons_cons] at last
            obtain ⟨kept, same⟩ := ih (.inr last) (by simp)
            have skipped (rest : Bytes) :
                takeLine (byte :: rest) = (byte :: (takeLine rest).1, (takeLine rest).2) :=
              takeLine_front (by simpa using Ne.symm feed : lineFeed ∉ [byte]) rest
            rw [List.cons_append, skipped, skipped, same]
            exact ⟨kept, rfl⟩

def followedBy (extra : Bytes) (reader : Reader) : Reader :=
  { reader with unread := reader.unread ++ extra }

def Whole (reader : Reader) : Prop := WholeLines reader.unread

section Followed

variable (extra : Bytes)

theorem refill_followedBy {reader : Reader} (whole : reader.Whole)
    (filled : reader.unread ≠ []) :
    (reader.followedBy extra).unread ≠ [] ∧ WholeLines (takeLine reader.unread).2 ∧
      takeLine (reader.followedBy extra).unread =
        ((takeLine reader.unread).1, (takeLine reader.unread).2 ++ extra) :=
  ⟨by simp [followedBy, filled], takeLine_whole whole filled extra⟩

/-- Blank lines are taken in until one holds a word; the word is found before `extra` is reached. -/
theorem nextWord_followedBy (reader : Reader) (whole : reader.Whole)
    (found : reader.nextWord.1 ≠ .ok none) :
    reader.nextWord.2.Whole ∧
      (reader.followedBy extra).nextWord =
        (reader.nextWord.1, reader.nextWord.2.followedBy extra) := by
  have pending : (reader.followedBy extra).pending = reader.pending := rfl
  cases trimmed : Text.trimStart reader.pending with
  | cons c rest =>
      rw [nextWord_visible trimmed, nextWord_visible (by rwa [pending])]
      exact ⟨whole, rfl⟩
  | nil =>
      by_cases used : reader.unread = []
      · rw [nextWord_used trimmed used] at found
        contradiction
      · obtain ⟨more, kept, line⟩ := refill_followedBy extra whole used
        cases decoded : Text.ofUtf8? (takeLine reader.unread).1 with
        | none =>
            rw [nextWord_dropped trimmed used decoded,
              nextWord_dropped (by rwa [pending]) more (by rwa [line]), line]
            exact ⟨kept, rfl⟩
        | some text =>
            rw [nextWord_refill trimmed used decoded] at found ⊢
            rw [nextWord_refill (by rwa [pending]) more (by rwa [line]), line]
            exact nextWord_followedBy ⟨text, (takeLine reader.unread).2⟩ kept found
termination_by reader.unread.length
decreasing_by
  obtain ⟨byte, rest, unread⟩ := List.exists_cons_of_ne_nil used
  rw [unread]
  exact takeLine_shorter byte rest

theorem nextLine_followedBy (reader : Reader) (whole : reader.Whole)
    (found : reader.nextLine.1 ≠ .ok none) :
    reader.nextLine.2.Whole ∧
      (reader.followedBy extra).nextLine =
        (reader.nextLine.1, reader.nextLine.2.followedBy extra) := by
  have pending : (reader.followedBy extra).pending = reader.pending := rfl
  cases trimmed : Text.trimStart reader.pending with
  | cons c rest =>
      rw [nextLine_visible trimmed, nextLine_visible (by rwa [pending])]
      exact ⟨whole, rfl⟩
  | nil =>
      by_cases used : reader.unread = []
      · rw [nextLine_used trimmed used] at found
        contradiction
      · obtain ⟨more, kept, line⟩ := refill_followedBy extra whole used
        cases decoded : Text.ofUtf8? (takeLine reader.unread).1 with
        | none =>
            rw [nextLine_dropped trimmed used decoded,
              nextLine_dropped (by rwa [pending]) more (by rwa [line]), line]
            exact ⟨kept, rfl⟩
        | some text =>
            rw [nextLine_refill trimmed used decoded,
              nextLine_refill (by rwa [pending]) more (by rwa [line]), line]
            exact ⟨kept, rfl⟩

theorem nextText_followedBy {reader : Reader} {kind : Kind} (whole : reader.Whole)
    (found : (reader.nextText kind).1 ≠ .ok none) :
    Commutes nextText (followedBy extra) Whole reader kind := by
  cases kind with
  | string =>
      obtain ⟨kept, same⟩ := nextLine_followedBy extra reader whole found
      exact ⟨kept, same⟩
  | integer | real =>
      obtain ⟨kept, same⟩ := nextWord_followedBy extra reader whole found
      exact ⟨kept, same⟩

theorem nextValue_followedBy {reader : Reader} {kind : Kind} (whole : reader.Whole)
    (enough : (reader.nextValue kind).1 ≠ .error .endOfInput) :
    Commutes nextValue (followedBy extra) Whole reader kind := by
  rcases taken : reader.nextText kind with ⟨reading, after⟩
  have found : reading ≠ .ok none := by
    rintro rfl
    apply enough
    simp only [nextValue, taken]
  obtain ⟨kept, same⟩ := nextText_followedBy extra whole (by rwa [taken])
  rw [taken] at kept same
  rcases reading with cause | _ | text <;>
    exact ⟨by simp only [nextValue, taken]; exact kept, by simp only [nextValue, taken, same]⟩

end Followed

end Reader

namespace Session

def followedBy (extra : Bytes) : Session → Session := rewired (Reader.followedBy extra) id

variable {extra : Bytes} {session : Session}

theorem readName_followedBy {name : Text} (whole : session.input.Whole)
    (enough : (session.readName name).1 ≠ some .endOfInput) :
    Commutes readName (followedBy extra) (·.input.Whole) session name := by
  rcases readName_cases session.scope name with ⟨fault, _, refused⟩ | ⟨old, _, asked⟩
  · exact .of_results (refused session.input session.output) (refused _ session.output) whole
  · have plain : session.readName name = _ := asked session.input session.output
    have changed : (session.followedBy extra).readName name = _ := asked _ session.output
    have enough : (session.input.nextValue old.kind).1 ≠ .error .endOfInput := by
      intro used
      rcases taken : session.input.nextValue old.kind with ⟨_, after⟩
      rw [taken] at used plain
      cases used
      rw [plain] at enough
      contradiction
    obtain ⟨kept, same⟩ := Reader.nextValue_followedBy extra whole enough
    rcases taken : session.input.nextValue old.kind with ⟨fault | value, after⟩ <;>
    · rw [taken] at kept same plain
      rw [same] at changed
      exact .of_results plain changed kept

theorem followedBy_unnoticed (extra : Bytes) :
    Unnoticed (followedBy extra) (·.input.Whole) (·.1 ≠ some .endOfInput) where
  earlier := by
    intro before after fault leads enough
    simp
  reads := readName_followedBy
  writes := fun whole _ => write_rewired whole fun _ _ => ⟨whole, rfl⟩
  assigns := fun whole => assign_rewired whole fun _ => whole

end Session

namespace Program

/-- A run that does not end for lack of input takes no notice of what follows the lines it was
given: it reports the same, writes the same, and leaves the same program. -/
theorem run_ignores_further_input (program : Program) (input extra : Bytes) (output : Output)
    (whole : Reader.WholeLines input)
    (enough : ∀ line, (program.run input output).error ≠ some ⟨line, .endOfInput⟩) :
    program.run (input ++ extra) output = program.run input output := by
  have ended : ((program.session input output).run program.statements).1.map RunError.fault ≠
      some .endOfInput := by
    intro used
    obtain ⟨⟨line, fault⟩, stopped, rfl⟩ := Option.map_eq_some_iff.1 used
    exact enough line stopped
  have start : (program.session input output).input.Whole := whole
  have same := ((Session.followedBy_unnoticed extra).run start ended).same
  have followed : program.session (input ++ extra) output =
      (program.session input output).followedBy extra := rfl
  simp only [run, followed, same]
  rfl

def echo : Program :=
  ⟨"Echo".toList, ⟨.empty, ⟨[(['n'], .unset .integer), (['s'], .unset .string)], by decide⟩⟩,
    [⟨6, .read, "Read(n);".toList⟩, ⟨7, .read, "Read(s);".toList⟩,
      ⟨8, .write, "Write(s, n);".toList⟩]⟩

-- The number is followed by a blank, so the text is taken from the second and last line. A third
-- one, which is no text at all, is never looked at.
theorem echo_ignores_further_input :
    (echo.run [55, 32, 10, 97, 98, 10] .unlimited).error = none ∧
    (echo.run [55, 32, 10, 97, 98, 10] .unlimited).output = [97, 98, 55] ∧
    echo.run ([55, 32, 10, 97, 98, 10] ++ [255, 10]) .unlimited =
      echo.run [55, 32, 10, 97, 98, 10] .unlimited := by
  have evaluated : (echo.run [55, 32, 10, 97, 98, 10] .unlimited).error = none ∧
      (echo.run [55, 32, 10, 97, 98, 10] .unlimited).output = [97, 98, 55] := by decide +kernel
  refine ⟨evaluated.1, evaluated.2, ?_⟩
  apply run_ignores_further_input
  · exact .inr rfl
  · intro line
    rw [evaluated.1]
    simp

end Program

end Pseudocode
