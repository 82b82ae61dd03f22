import Pseudocode.Proofs.Resolution
import Pseudocode.Proofs.Stages

/-!
Lists of declarations, carried out in turn. A line is refused if it is no declaration, or if its
name stands in a table already: from the start, or since an earlier line. The first line that is
refused ends the list. Up to there each line has added one entry at the end of the table of its
section, and nothing else has changed.
-/

namespace Pseudocode

namespace Scope

variable {scope last : Scope} {earlier lines : List (Section × Line)}

/-- The names in a table behind some lines. -/
def namesBehind (scope : Scope) (lines : List (Section × Line)) (part : Section) : List Text :=
  (scope.table part).names ++ (declaredEntries part lines).map Prod.fst

/-- Why a line is refused behind others. -/
inductive Refuses (scope : Scope) (earlier : List (Section × Line)) (text : Text) :
    LineCause → Prop where
  | unparsed {cause : LineCause} (failed : Declaration.parse text = .error cause) :
      scope.Refuses earlier text cause
  | taken {declaration : Declaration} (parsed : Declaration.parse text = .ok declaration)
      (part : Section) (member : declaration.name ∈ scope.namesBehind earlier part) :
      scope.Refuses earlier text (.duplicateIdentifier declaration.name)

/-- No line is refused behind those before it. -/
def Accepts (scope : Scope) (lines : List (Section × Line)) : Prop :=
  ∀ front line back, lines = front ++ line :: back →
    ∀ cause, ¬ scope.Refuses front line.2.text cause

/-- Nothing but a name that is taken is called a duplicate. -/
theorem Refuses.duplicate_iff {text : Text} {cause : LineCause}
    (refused : scope.Refuses earlier text cause) :
    (∃ name, cause = .duplicateIdentifier name) ↔
      ∃ declaration part, Declaration.parse text = .ok declaration ∧
        declaration.name ∈ scope.namesBehind earlier part := by
  cases refused with
  | unparsed failed =>
      refine iff_of_false ?_ ?_
      · rintro ⟨name, rfl⟩
        cases Declaration.parse_error failed
      · rintro ⟨declaration, _, parsed, _⟩
        rw [failed] at parsed
        contradiction
  | taken parsed part member => exact iff_of_true ⟨_, rfl⟩ ⟨_, part, parsed, member⟩

section Behind

variable (declared : scope.declareAll earlier = (last, none))
include declared

theorem names_behind (part : Section) :
    (last.table part).names = scope.namesBehind earlier part := by
  rw [Symbols.names, declareAll_adds declared, List.map_append]
  rfl

theorem contains_behind {name : Text} :
    last.contains name = true ↔ ∃ part, name ∈ scope.namesBehind earlier part := by
  rw [← Bool.not_eq_false, contains_eq_false_iff]
  simp [names_behind declared]

/-- A line fails exactly for the reasons for which it is refused. -/
theorem declare_error_iff {part : Section} {text : Text} {cause : LineCause} :
    last.declare part text = .error cause ↔ scope.Refuses earlier text cause := by
  constructor
  · intro failed
    rcases bind_eq_error.1 failed with unparsed | ⟨declaration, parsed, repeated⟩
    · exact .unparsed unparsed
    · by_cases present : last.contains declaration.name = true
      · rw [if_pos present] at repeated
        obtain ⟨owner, member⟩ := (contains_behind declared).1 present
        cases repeated
        exact .taken parsed owner member
      · rw [if_neg present] at repeated
        contradiction
  · intro refused
    cases refused with
    | unparsed failed => exact bind_eq_error.2 (.inl failed)
    | taken parsed owner member =>
        have present := (contains_behind declared).2 ⟨owner, member⟩
        exact bind_eq_error.2 (.inr ⟨_, parsed, if_pos present⟩)

theorem declareAll_apart (apart : scope.Apart) : last.Apart := by
  induction earlier generalizing scope with
  | nil =>
      cases declared
      exact apart
  | cons first rest ih =>
      obtain ⟨declaration, _, absent, later⟩ := declareAll_cons_ok declared
      exact ih later (apart.add absent first.1)

end Behind

theorem declare_of_parsed {part : Section} {text : Text} {declaration : Declaration}
    (parsed : Declaration.parse text = .ok declaration)
    (absent : scope.contains declaration.name = false) :
    scope.declare part text = .ok (scope.add part declaration.name declaration.value) :=
  bind_eq_ok.2 ⟨declaration, parsed, if_neg (by simp [absent])⟩

/-- What succeeds as a whole succeeds line by line. -/
theorem declareAll_append_ok {front back : List (Section × Line)} {line : Section × Line}
    (declared : scope.declareAll (front ++ line :: back) = (last, none)) :
    ∃ middle next, scope.declareAll front = (middle, none) ∧
      middle.declare line.1 line.2.text = .ok next := by
  induction front generalizing scope with
  | nil =>
      obtain ⟨declaration, parsed, absent, _⟩ := declareAll_cons_ok declared
      exact ⟨scope, _, rfl, declare_of_parsed parsed absent⟩
  | cons first rest ih =>
      obtain ⟨declaration, parsed, absent, later⟩ := declareAll_cons_ok declared
      obtain ⟨middle, next, earlier, done⟩ := ih later
      refine ⟨middle, next, ?_, done⟩
      simp only [declareAll, declare_of_parsed parsed absent, earlier]

theorem declareAll_accepts (declared : scope.declareAll lines = (last, none)) :
    scope.Accepts lines := by
  rintro front line back rfl cause refused
  obtain ⟨middle, next, earlier, done⟩ := declareAll_append_ok declared
  rw [(declare_error_iff earlier).2 refused] at done
  contradiction

/-- Declarations are carried out up to the first line that is refused, and it is reported with the
number of that line. The tables then hold what they held at the start, followed by what the lines
before it declare, each in the table of its section; no name has come to stand in both. -/
theorem declareAll_up_to_refused (apart : scope.Apart) (lines : List (Section × Line)) :
    ∃ front last reported, scope.declareAll lines = (last, reported) ∧
      scope.Accepts front ∧
      (∀ part, (last.table part).entries =
        (scope.table part).entries ++ declaredEntries part front) ∧
      last.Apart ∧
      ((lines = front ∧ reported = none) ∨
        ∃ part line back cause, lines = front ++ (part, line) :: back ∧
          scope.Refuses front line.text cause ∧
          reported = some (.onLine line.number cause) ∧
          ((∃ name, cause = .duplicateIdentifier name) ↔
            ∃ declaration owner, Declaration.parse line.text = .ok declaration ∧
              declaration.name ∈ scope.namesBehind front owner)) := by
  rcases ran : scope.declareAll lines with ⟨last, _ | rejection⟩
  · exact ⟨lines, last, none, rfl, declareAll_accepts ran, declareAll_adds ran,
      declareAll_apart ran apart, .inl ⟨rfl, rfl⟩⟩
  · obtain ⟨front, part, line, back, cause, shape, earlier, failed, rfl⟩ :=
      declareAll_failed_iff.1 ran
    have refused := (declare_error_iff earlier).1 failed
    exact ⟨front, last, _, rfl, declareAll_accepts earlier, declareAll_adds earlier,
      declareAll_apart earlier apart,
      .inr ⟨part, line, back, cause, shape, refused, rfl, refused.duplicate_iff⟩⟩

def furnished : Scope where
  constants := ⟨[(['a'], .string "x".toList)], by decide⟩
  «variables» := ⟨[(['b'], .unset .real)], by decide⟩

def repeatedAcross : List (Section × Line) :=
  [(.variables, ⟨4, "c : Real;".toList⟩), (.constants, ⟨6, "d = \"y\" : String;".toList⟩),
    (.variables, ⟨7, "d : Integer;".toList⟩), (.constants, ⟨9, "e".toList⟩)]

-- The name is in the other table, and the line behind it, which is no declaration, is not reached.
theorem repeatedAcross_refused :
    furnished.Apart ∧ ∃ front last,
      furnished.declareAll repeatedAcross =
        (last, some (.onLine 7 (.duplicateIdentifier ['d']))) ∧
      furnished.Accepts front ∧
      (∀ part, (last.table part).entries =
        (furnished.table part).entries ++ declaredEntries part front) ∧
      last.Apart := by
  have apart : furnished.Apart := by
    unfold Apart
    decide
  have stops : (furnished.declareAll repeatedAcross).2 =
      some (.onLine 7 (.duplicateIdentifier ['d'])) := by decide +kernel
  obtain ⟨front, last, reported, ran, accepts, entries, kept, _⟩ :=
    declareAll_up_to_refused apart repeatedAcross
  rw [ran] at stops
  exact ⟨apart, front, last, stops ▸ ran, accepts, entries, kept⟩

end Scope

end Pseudocode
