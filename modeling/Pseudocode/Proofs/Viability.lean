import Pseudocode.Proofs.Layout

/-!
Where a bad layout is reported. Some beginnings of a file can still be completed to a program
and some cannot. The pass over the lines gives up at the first line after which nothing can
help any more, and only there; if the lines run out before that, what is missing is `Begin`,
or the `End` that belongs to it.
-/

namespace Pseudocode

/-- The beginning of some list of lines that has an outline. -/
def Viable (lines : List Line) : Prop :=
  ∃ rest outline, Outline.ofLines (lines ++ rest) = .ok outline

namespace Scan

theorem run_append (scan : Scan) (front back : List Line) :
    scan.run (front ++ back) = match scan.run front with
      | .error rejection => .error rejection
      | .ok next => next.run back := by
  induction front generalizing scan with
  | nil => rfl
  | cons line rest ih =>
      simp only [List.cons_append, run]
      split
      · rfl
      · exact ih _

/-- A pass that failed has failed at one line, and does so whatever follows it. -/
theorem run_error (scan : Scan) (lines : List Line) (rejection : Rejection)
    (ran : scan.run lines = .error rejection) :
    ∃ before line after next cause, lines = before ++ line :: after ∧
      scan.run before = .ok next ∧ rejection = .onLine line.number cause ∧
      ∀ other, scan.run (before ++ line :: other) = .error rejection := by
  induction lines generalizing scan with
  | nil => contradiction
  | cons line rest ih =>
      cases stepped : scan.step line with
      | error cause =>
          simp only [run, stepped, Except.error.injEq] at ran
          refine ⟨[], line, rest, scan, cause, rfl, rfl, ran.symm, ?_⟩
          intro other
          simp only [List.nil_append, run, stepped, ran]
      | ok next =>
          simp only [run, stepped] at ran
          obtain ⟨before, bad, after, last, cause, rfl, passed, reported, same⟩ := ih next ran
          refine ⟨line :: before, bad, after, last, cause, rfl, ?_, reported, ?_⟩
          · simpa only [run, stepped] using passed
          · intro other
            simpa only [List.cons_append, run, stepped] using same other

/-- Wherever a pass stands, some lines bring it to its end. -/
theorem can_finish (scan : Scan) :
    ∃ rest last, scan.run rest = .ok last ∧ last.place = .finished := by
  have begins : (Line.mk 2 "Begin".toList).IsBegin := rfl
  have ends : (Line.mk 3 "End".toList).IsEnd := rfl
  have fromOpen (open_ : Scan) (place : open_.place.isOpen = true) :
      ∃ last, open_.run [⟨2, "Begin".toList⟩, ⟨3, "End".toList⟩] = .ok last ∧
        last.place = .finished := by
    refine ⟨{ open_ with place := .finished }, ?_, rfl⟩
    rw [run_move (.begins place begins), run_move (.ends 2 rfl ends)]
    rfl
  cases place : scan.place with
  | start =>
      have heads : (Line.mk 1 "Algorithm A;".toList).IsHeading ['A'] :=
        ⟨['A'], rfl, by decide, by decide⟩
      obtain ⟨last, ran, finished⟩ := fromOpen
        { scan with place := .header, outline := { scan.outline with name := ['A'] } } rfl
      exact ⟨_, last, (run_move (.heading _ place heads) _).trans ran, finished⟩
  | header | declaring _ =>
      obtain ⟨last, ran, finished⟩ := fromOpen scan (by simp [place, Place.isOpen])
      exact ⟨_, last, ran, finished⟩
  | body beginLine => exact ⟨_, _, run_move (.ends beginLine place ends) [], rfl⟩
  | finished => exact ⟨[], scan, rfl, place⟩

end Scan

theorem viable_iff (lines : List Line) :
    Viable lines ↔ ∃ scan, Scan.start.run lines = .ok scan := by
  constructor
  · rintro ⟨rest, outline, made⟩
    obtain ⟨last, ran, _⟩ := (Outline.ofLines_ok_iff _ _).1 made
    rw [Scan.run_append] at ran
    cases front : Scan.start.run lines with
    | error rejection => simp [front] at ran
    | ok scan => exact ⟨scan, rfl⟩
  · rintro ⟨scan, ran⟩
    obtain ⟨rest, last, finishes, finished⟩ := scan.can_finish
    refine ⟨rest, last.outline, (Outline.ofLines_ok_iff _ _).2 ⟨last, ?_, finished, rfl⟩⟩
    rw [Scan.run_append, ran]
    exact finishes

theorem Line.isBegin_iff (line : Line) :
    line.IsBegin ↔ LineRole.ofText line.text = .begins := LineRole.ofText_begins_iff.symm

theorem Line.IsIndented.not_begin {line : Line} (form : line.IsIndented) : ¬ line.IsBegin := by
  rw [isBegin_iff, LineRole.ofText_of_indentation form.1]
  simp

theorem Front.no_begin (front : Front) : ∀ line ∈ front.lines, ¬ line.IsBegin := by
  intro line member
  rw [Line.isBegin_iff]
  simp only [Front.lines, List.mem_cons, List.mem_flatMap, Block.lines] at member
  rcases member with rfl | ⟨block, _, rfl | declared⟩
  · obtain ⟨middle, shape, _⟩ := front.headed
    rw [LineRole.ofText_heading_iff.2 ⟨_, shape⟩]
    simp
  · rw [LineRole.ofText_opening_iff.2 block.opens]
    simp
  · rw [LineRole.ofText_of_indentation (block.declares line declared).1.1]
    simp

/-- What is missing when the lines run out. -/
inductive Lacks : List Line → Rejection → Prop where
  | begins (lines : List Line) (absent : ∀ line ∈ lines, ¬ line.IsBegin) :
      Lacks lines .missingBegin
  | ends (before : List Line) (line : Line) (after : List Line) (form : line.IsBegin)
      (once : ∀ other ∈ before ++ after, ¬ other.IsBegin) :
      Lacks (before ++ line :: after) (.onLine line.number .missingEnd)

theorem finish_lacks {scan : Scan} {lines : List Line} {rejection : Rejection}
    (read : scan.HasRead lines) (filled : lines ≠ [])
    (unfinished : scan.finish = .error rejection) : Lacks lines rejection := by
  cases read with
  | nothing => contradiction
  | front front =>
      have isOpen := front.place_isOpen
      have missing : rejection = .missingBegin := by
        cases place : front.place <;> simp_all [Scan.finish, Place.isOpen]
      rw [missing]
      exact .begins front.lines front.no_begin
  | body front begins body opens indented =>
      cases unfinished
      refine .ends front.lines begins body opens ?_
      intro other member
      rcases List.mem_append.1 member with inFront | inBody
      · exact front.no_begin other inFront
      · exact (indented other inBody).not_begin
  | whole layout => cases unfinished

namespace Outline

theorem ofLines_filled {lines : List Line} (filled : lines ≠ []) :
    ofLines lines = (Scan.start.run lines).bind Scan.finish := by
  simp only [ofLines, List.isEmpty_eq_false_iff.2 filled]
  rfl

theorem ofLines_of_error {lines : List Line} {rejection : Rejection}
    (ran : Scan.start.run lines = .error rejection) : ofLines lines = .error rejection := by
  have filled : lines ≠ [] := by
    rintro rfl
    contradiction
  rw [ofLines_filled filled, ran]
  rfl

/-- Either the pass fails, or it comes to the end of the lines too early. -/
theorem error_of_ofLines {lines : List Line} {rejection : Rejection} (filled : lines ≠ [])
    (rejected : ofLines lines = .error rejection) :
    Scan.start.run lines = .error rejection ∨
      ∃ scan, Scan.start.run lines = .ok scan ∧ Lacks lines rejection := by
  rw [ofLines_filled filled] at rejected
  cases ran : Scan.start.run lines with
  | error cause =>
      rw [ran] at rejected
      cases rejected
      exact .inl rfl
  | ok scan =>
      rw [ran] at rejected
      have read := Scan.run_hasRead .nothing ran
      exact .inr ⟨scan, rfl, finish_lacks read filled rejected⟩

theorem ofLines_emptyFile_iff (lines : List Line) :
    ofLines lines = .error .emptyFile ↔ lines = [] := by
  constructor
  · intro rejected
    by_cases filled : lines = []
    · exact filled
    · rcases error_of_ofLines filled rejected with ran | ⟨scan, _, lacks⟩
      · obtain ⟨_, _, _, _, _, _, _, reported, _⟩ := Scan.run_error _ _ _ ran
        contradiction
      · cases lacks
  · rintro rfl
    rfl

end Outline

/-- A rejection names the first line after which no continuation has an outline, and is the
same for all lines that begin like that. Where there is no such line, `Begin` is missing, or
the `End` after it. Only a file without lines is empty. -/
theorem rejected_at_first_hopeless :
    (∀ lines, Outline.ofLines lines = .error .emptyFile ↔ lines = []) ∧
    ∀ lines rejection, lines ≠ [] → Outline.ofLines lines = .error rejection →
      (¬ Viable lines ∧ ∃ before line after, lines = before ++ line :: after ∧
        Viable before ∧ ¬ Viable (before ++ [line]) ∧ rejection.line? = some line.number ∧
        ∀ other, Outline.ofLines (before ++ line :: other) = .error rejection) ∨
      (Viable lines ∧ Lacks lines rejection) := by
  refine ⟨Outline.ofLines_emptyFile_iff, ?_⟩
  intro lines rejection filled rejected
  have hopeless {bad : List Line} (failed : Scan.start.run bad = .error rejection) :
      ¬ Viable bad := by
    rw [viable_iff]
    rintro ⟨scan, ran⟩
    rw [ran] at failed
    contradiction
  rcases Outline.error_of_ofLines filled rejected with ran | ⟨scan, ran, lacks⟩
  · obtain ⟨before, line, after, next, cause, shape, passed, reported, same⟩ :=
      Scan.run_error _ _ _ ran
    refine .inl ⟨hopeless ran, before, line, after, shape, (viable_iff before).2 ⟨next, passed⟩,
      hopeless (same []), by rw [reported]; rfl, ?_⟩
    intro other
    exact Outline.ofLines_of_error (same other)
  · exact .inr ⟨(viable_iff lines).2 ⟨scan, ran⟩, lacks⟩

def twoBegins : List Line :=
  [⟨1, "Algorithm A;".toList⟩, ⟨2, "Begin".toList⟩, ⟨4, "Begin".toList⟩]

theorem twoBegins_hopeless :
    Outline.ofLines twoBegins = .error (.onLine 4 (.duplicateSection "Begin".toList)) ∧
      ¬ Viable twoBegins := by
  have rejected : Outline.ofLines twoBegins =
      .error (.onLine 4 (.duplicateSection "Begin".toList)) := by rfl
  refine ⟨rejected, ?_⟩
  rcases rejected_at_first_hopeless.2 twoBegins _ (by simp [twoBegins]) rejected with
    ⟨hopeless, _⟩ | ⟨_, lacks⟩
  · exact hopeless
  · generalize twoBegins = lines, 4 = number at lacks
    cases lacks

end Pseudocode
