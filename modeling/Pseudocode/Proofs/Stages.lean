import Mathlib.Logic.Basic
import Pseudocode.Proofs.Failures
import Pseudocode.Proofs.Layout
import Pseudocode.Proofs.Loading

/-!
Which stage of loading rejects a source. A rejection names a stage by its cause, so the name is
right if every cause belongs to one stage. All but one do. The colon of a declaration is looked for
twice: the layout asks for any colon, the declarations for one outside quotes. A line whose colons
are all quoted comes through the first and is rejected by the second, with the cause of the first.
-/

namespace Pseudocode

namespace Scan

variable {scan : Scan} {line : Line} {cause : LineCause} {rejection : Rejection}

theorem headingName_stage {text : Text} (failed : headingName text = .error cause) :
    cause.stage = .layout := by
  cases before : Text.before? ';' text with
  | none =>
      simp only [headingName, before] at failed
      cases failed
      rfl
  | some heading =>
      simp only [headingName, before] at failed
      rcases ite_eq_iff.1 failed with ⟨unnamed, reported⟩ | ⟨named, unlettered⟩
      · cases reported
        rfl
      · rcases ite_eq_iff.1 unlettered with ⟨digit, reported⟩ | ⟨letter, accepted⟩
        · cases reported
          rfl
        · contradiction

theorem indented_stage (failed : indented line = .error cause) : cause.stage = .layout := by
  rcases ite_eq_iff.1 failed with ⟨ragged, reported⟩ | ⟨four, unended⟩
  · cases reported
    rfl
  · rcases ite_eq_iff.1 unended with ⟨ended, accepted⟩ | ⟨unclosed, reported⟩
    · contradiction
    · cases reported
      rfl

theorem step_stage (failed : scan.step line = .error cause) : cause.stage = .layout := by
  -- Before the heading only a heading is looked into; behind it the role of the line decides.
  match place : scan.place, role : LineRole.ofText line.text with
  | .start, .heading =>
      simp only [step, place, role] at failed
      exact headingName_stage (map_eq_error.1 failed)
  | .start, .opening _ | .start, .begins | .start, .ends | .start, .other | .header, .heading |
    .declaring _, .heading | .body _, .heading | .finished, .heading | .header, .ends |
    .declaring _, .ends | .finished, .ends | .header, .other | .finished, .other =>
      simp only [step, place, role] at failed
      cases failed
      rfl
  | .header, .opening part | .declaring _, .opening part | .body _, .opening part |
    .finished, .opening part =>
      simp only [step, place, role] at failed
      rcases ite_eq_iff.1 failed with ⟨repeated, reported⟩ | ⟨fresh, misplaced⟩
      · cases reported
        rfl
      · rcases ite_eq_iff.1 misplaced with ⟨late, reported⟩ | ⟨early, accepted⟩
        · cases reported
          rfl
        · contradiction
  | .header, .begins | .declaring _, .begins | .body _, .begins | .finished, .begins =>
      simp only [step, place, role] at failed
      rcases ite_eq_iff.1 failed with ⟨late, reported⟩ | ⟨early, accepted⟩
      · cases reported
        rfl
      · contradiction
  | .body _, .ends => simp [step, place, role] at failed
  | .declaring part, .other =>
      simp only [step, place, role] at failed
      rcases bind_eq_error.1 failed with unindented | ⟨declaration, _, unfinished⟩
      · exact indented_stage unindented
      · rcases ite_eq_iff.1 unfinished with ⟨colon, accepted⟩ | ⟨none, reported⟩
        · contradiction
        · cases reported
          rfl
  | .body _, .other =>
      simp only [step, place, role] at failed
      exact indented_stage (map_eq_error.1 failed)

theorem run_stage {lines : List Line} (failed : scan.run lines = .error rejection) :
    rejection.stage = .layout := by
  induction lines generalizing scan with
  | nil => contradiction
  | cons line rest ih =>
      rw [run] at failed
      cases stepped : scan.step line with
      | error cause =>
          rw [stepped] at failed
          cases failed
          exact step_stage stepped
      | ok next =>
          rw [stepped] at failed
          exact ih failed

theorem finish_stage (failed : scan.finish = .error rejection) : rejection.stage = .layout := by
  cases place : scan.place with
  | finished => simp [finish, place] at failed
  | start | header | declaring _ | body _ =>
      simp only [finish, place] at failed
      cases failed
      rfl

end Scan

theorem Outline.ofLines_stage {lines : List Line} {rejection : Rejection}
    (failed : ofLines lines = .error rejection) : rejection.stage = .layout := by
  rcases ite_eq_iff.1 failed with ⟨empty, reported⟩ | ⟨filled, scanned⟩
  · cases reported
    rfl
  · rcases bind_eq_error.1 scanned with stopped | ⟨scan, _, unfinished⟩
    · exact Scan.run_stage stopped
    · exact Scan.finish_stage unfinished

theorem Front.colon_of_declared {front : Front} {part : Section} {line : Line}
    (declared : (part, line) ∈ front.declarations) : ':' ∈ line.text := by
  obtain ⟨block, _, inBlock⟩ := List.mem_flatMap.1 declared
  obtain ⟨original, listed, same⟩ := List.mem_map.1 inBlock
  cases same
  obtain ⟨form, colon⟩ := block.declares original listed
  exact (Line.colon_of_indentation form.1).2 colon

theorem Outline.colon_of_declared {lines : List Line} {outline : Outline} {part : Section}
    {line : Line} (laid : ofLines lines = .ok outline)
    (declared : (part, line) ∈ outline.declarations) : ':' ∈ line.text := by
  obtain ⟨last, ran, _, rfl⟩ := (ofLines_ok_iff lines outline).1 laid
  have read := Scan.run_hasRead .nothing ran
  cases read with
  | nothing => cases declared
  | front front => exact front.colon_of_declared declared
  | body front _ _ _ _ => exact front.colon_of_declared declared
  | whole layout => exact layout.toFront.colon_of_declared declared

namespace Declaration

/-- What can be wrong with a declaration: it has no open colon, or something around the colon is
missing or no such thing. -/
inductive Lacks (text : Text) : LineCause → Prop where
  | colon (uncut : Text.cutOpen? ':' text = none) : Lacks text (.invalidDeclaration text)
  | value (cut : Text.cutOpen? ':' text ≠ none) (name : Text) : Lacks text (.missingValue name)
  | identifier (cut : Text.cutOpen? ':' text ≠ none) (name : Text) :
      Lacks text (.invalidIdentifier name)
  | kind (cut : Text.cutOpen? ':' text ≠ none) (name : Text) : Lacks text (.invalidKind name)
  | literal (cut : Text.cutOpen? ':' text ≠ none) (bad : BadLiteral) :
      Lacks text (.badLiteral bad)

theorem splitName_error {declared : Text} {cause : LineCause}
    (failed : splitName declared = .error cause) : ∃ name, cause = .missingValue name := by
  cases cut : Text.cut? '=' declared with
  | none => simp [splitName, cut] at failed
  | some sides =>
      simp only [splitName, cut] at failed
      rcases ite_eq_iff.1 failed with ⟨blank, reported⟩ | ⟨filled, accepted⟩
      · cases reported
        exact ⟨_, rfl⟩
      · contradiction

theorem parse_error {text : Text} {cause : LineCause} (failed : parse text = .error cause) :
    Lacks text cause := by
  unfold parse at failed
  cases found : Text.cutOpen? ':' text with
  | none =>
      rw [found] at failed
      cases failed
      exact .colon found
  | some sides =>
      obtain ⟨declared, typePart⟩ := sides
      have cut : Text.cutOpen? ':' text ≠ none := by simp [found]
      rw [found] at failed
      rcases bind_eq_error.1 failed with unsplit | ⟨⟨name, literal⟩, _, checked⟩
      · obtain ⟨name, rfl⟩ := splitName_error unsplit
        exact .value cut name
      · rcases ite_eq_iff.1 checked with ⟨unnamed, reported⟩ | ⟨named, typed⟩
        · cases reported
          exact .identifier cut name
        · cases known : Kind.ofName? (kindName typePart) with
          | none =>
              rw [known] at typed
              cases typed
              exact .kind cut _
          | some kind =>
              cases made : kind.initial literal with
              | error bad =>
                  simp only [known, made] at typed
                  cases typed
                  exact .literal cut bad
              | ok value => simp [known, made] at typed

/-- The cause of a rejected declaration belongs to the layout exactly if there is no open colon. -/
theorem parse_stage {text : Text} {cause : LineCause} (failed : parse text = .error cause) :
    cause.stage = if Text.cutOpen? ':' text = none then .layout else .declarations := by
  cases parse_error failed with
  | colon uncut =>
      rw [if_pos uncut]
      rfl
  | value cut | identifier cut | kind cut | literal cut =>
      rw [if_neg cut]
      rfl

end Declaration

namespace Scope

theorem declare_stage {scope : Scope} {part : Section} {text : Text} {cause : LineCause}
    (failed : scope.declare part text = .error cause) :
    cause.stage = if Text.cutOpen? ':' text = none then .layout else .declarations := by
  rcases bind_eq_error.1 failed with unparsed | ⟨declaration, parsed, repeated⟩
  · exact Declaration.parse_stage unparsed
  · obtain ⟨_, _, _, cut, _⟩ := Declaration.parse_ok parsed
    rw [if_neg (by simp [cut])]
    rcases ite_eq_iff.1 repeated with ⟨present, reported⟩ | ⟨absent, accepted⟩
    · cases reported
      rfl
    · contradiction

/-- One declaration, in the form in which lists of actions are carried out. -/
def declareLine (scope : Scope) (entry : Section × Line) : Option Rejection × Scope :=
  match scope.declare entry.1 entry.2.text with
  | .error cause => (some (.onLine entry.2.number cause), scope)
  | .ok next => (none, next)

theorem declareAll_iff {scope last : Scope} {declarations : List (Section × Line)}
    {reported : Option Rejection} :
    scope.declareAll declarations = (last, reported) ↔
      untilFault declareLine scope declarations = (reported, last) := by
  induction declarations generalizing scope with
  | nil => simp [declareAll, untilFault, and_comm]
  | cons entry rest ih =>
      simp only [declareAll, untilFault, declareLine]
      cases scope.declare entry.1 entry.2.text with
      | error cause => simp [and_comm]
      | ok next => exact ih

theorem declareAll_failed_iff {scope last : Scope} {declarations : List (Section × Line)}
    {rejection : Rejection} :
    scope.declareAll declarations = (last, some rejection) ↔
      ∃ front part line back cause, declarations = front ++ (part, line) :: back ∧
        scope.declareAll front = (last, none) ∧ last.declare part line.text = .error cause ∧
        rejection = .onLine line.number cause := by
  simp only [declareAll_iff, untilFault_failed_iff]
  constructor
  · rintro ⟨front, ⟨part, line⟩, back, middle, shape, earlier, failed⟩
    unfold declareLine at failed
    cases declared : middle.declare part line.text with
    | ok next => simp only [declared, Prod.mk.injEq, reduceCtorEq, false_and] at failed
    | error cause =>
        simp only [declared, Prod.mk.injEq, Option.some.injEq] at failed
        obtain ⟨rfl, rfl⟩ := failed
        exact ⟨front, part, line, back, cause, shape, earlier, declared, rfl⟩
  · rintro ⟨front, part, line, back, cause, shape, earlier, stopped, rfl⟩
    exact ⟨front, (part, line), back, last, shape, earlier, by simp only [declareLine, stopped]⟩

/-- The declarations are carried out up to a line with colons that all stand in quotes. -/
def StopsAtQuoted (scope : Scope) (declarations : List (Section × Line)) : Prop :=
  ∃ front part line back last, declarations = front ++ (part, line) :: back ∧
    scope.declareAll front = (last, none) ∧ ':' ∈ line.text ∧ Text.cutOpen? ':' line.text = none

theorem StopsAtQuoted.rejected {scope : Scope} {declarations : List (Section × Line)}
    (stops : scope.StopsAtQuoted declarations) :
    ∃ last rejection, scope.declareAll declarations = (last, some rejection) ∧
      rejection.stage = .layout := by
  obtain ⟨front, part, line, back, last, shape, earlier, _, uncut⟩ := stops
  have unparsed : last.declare part line.text = .error (.invalidDeclaration line.text) := by
    simp only [declare, Declaration.parse, uncut]
    rfl
  have stopped := declareAll_failed_iff.2
    ⟨front, part, line, back, _, shape, earlier, unparsed, rfl⟩
  exact ⟨last, _, stopped, rfl⟩

theorem declareAll_stage {scope last : Scope} {declarations : List (Section × Line)}
    {rejection : Rejection}
    (colons : ∀ part line, (part, line) ∈ declarations → ':' ∈ line.text)
    (stopped : scope.declareAll declarations = (last, some rejection)) :
    (scope.StopsAtQuoted declarations ∧ rejection.stage = .layout) ∨
      (¬ scope.StopsAtQuoted declarations ∧ rejection.stage = .declarations) := by
  obtain ⟨front, part, line, back, cause, shape, earlier, failed, reported⟩ :=
    declareAll_failed_iff.1 stopped
  have stage := declare_stage failed
  by_cases uncut : Text.cutOpen? ':' line.text = none
  · rw [if_pos uncut] at stage
    have colon : ':' ∈ line.text := colons part line (by simp [shape])
    exact .inl ⟨⟨front, part, line, back, last, shape, earlier, colon, uncut⟩, reported ▸ stage⟩
  · rw [if_neg uncut] at stage
    refine .inr ⟨?_, reported ▸ stage⟩
    intro stops
    obtain ⟨_, _, again, layout⟩ := stops.rejected
    rw [stopped] at again
    cases again
    rw [reported] at layout
    cases stage.symm.trans layout

end Scope

theorem Statement.ofLines_stage {commands : List Command} {scope : Scope} {lines : List Line}
    {rejection : Rejection} (failed : ofLines commands scope lines = .error rejection) :
    rejection.stage = .statements ∧
      ∃ line ∈ lines, Command.classify? commands scope line.text = none := by
  induction lines with
  | nil => contradiction
  | cons line rest ih =>
      rcases bind_eq_error.1 failed with unbound | ⟨_, _, following⟩
      · unfold ofLine at unbound
        cases known : Command.classify? commands scope line.text with
        | some command => simp [known] at unbound
        | none =>
            rw [known] at unbound
            cases unbound
            exact ⟨rfl, line, List.mem_cons_self, known⟩
      · rcases bind_eq_error.1 following with later | ⟨_, _, done⟩
        · obtain ⟨stage, other, member, unknown⟩ := ih later
          exact ⟨stage, other, List.mem_cons_of_mem _ member, unknown⟩
        · contradiction

namespace Program

variable {commands : List Command} {source : Text} {rejection : Rejection}

theorem loadWith_error (rejected : loadWith commands source = .error rejection) :
    Outline.ofLines (sourceLines source) = .error rejection ∨
      ∃ outline scope, Outline.ofLines (sourceLines source) = .ok outline ∧
        (Scope.empty.declareAll outline.declarations = (scope, some rejection) ∨
          Scope.empty.declareAll outline.declarations = (scope, none) ∧
            Statement.ofLines commands scope outline.body = .error rejection) := by
  rcases bind_eq_error.1 rejected with unlaid | ⟨outline, laid, filling⟩
  · exact .inl unlaid
  · match declared : Scope.empty.declareAll outline.declarations with
    | (scope, some cause) =>
        rw [declared] at filling
        cases filling
        exact .inr ⟨outline, scope, laid, .inl declared⟩
    | (scope, none) =>
        rw [declared] at filling
        rcases bind_eq_error.1 filling with unbound | ⟨_, _, made⟩
        · exact .inr ⟨outline, scope, laid, .inr ⟨declared, unbound⟩⟩
        · contradiction

/-- The stage that a rejection names. It is the layout if the lines have no outline, and also if
the declarations stop at a line whose colons are all quoted; the declarations if they stop at any
other line; and the statements if there is an outline, everything is declared, and some line of the
body belongs to no command. -/
theorem stage_of_rejected (rejected : loadWith commands source = .error rejection) :
    (rejection.stage = .layout ↔
      (∃ cause, Outline.ofLines (sourceLines source) = .error cause) ∨
        ∃ outline, Outline.ofLines (sourceLines source) = .ok outline ∧
          Scope.empty.StopsAtQuoted outline.declarations) ∧
    (rejection.stage = .declarations ↔
      ∃ outline scope cause, Outline.ofLines (sourceLines source) = .ok outline ∧
        Scope.empty.declareAll outline.declarations = (scope, some cause) ∧
        ¬ Scope.empty.StopsAtQuoted outline.declarations) ∧
    (rejection.stage = .statements ↔
      ∃ outline scope, Outline.ofLines (sourceLines source) = .ok outline ∧
        Scope.empty.declareAll outline.declarations = (scope, none) ∧
        ∃ line ∈ outline.body, Command.classify? commands scope line.text = none) := by
  rcases loadWith_error rejected with unlaid | ⟨outline, scope, laid, stopped | ⟨declared, unbound⟩⟩
  · simp [unlaid, Outline.ofLines_stage unlaid]
  · have colons (part : Section) (line : Line) (declared : (part, line) ∈ outline.declarations) :
        ':' ∈ line.text := Outline.colon_of_declared laid declared
    rcases Scope.declareAll_stage colons stopped with ⟨quoted, stage⟩ | ⟨unquoted, stage⟩
    · simp [laid, stopped, stage, quoted]
    · simp [laid, stopped, stage, unquoted]
  · obtain ⟨stage, unknown⟩ := Statement.ofLines_stage unbound
    have unquoted : ¬ Scope.empty.StopsAtQuoted outline.declarations := by
      intro stops
      obtain ⟨_, _, stopped, _⟩ := stops.rejected
      rw [declared] at stopped
      cases stopped
    simp [laid, declared, stage, unknown, unquoted]

def repeatedLabel : Text :=
  ("Algorithm Labels;\nVariables\n    label = \"a:b\" : String;\n    label : Real;\n" ++
    "Begin\nEnd").toList

theorem repeatedLabel_rejected :
    load repeatedLabel = .error (.onLine 4 (.duplicateIdentifier "label".toList)) ∧
      ∃ outline scope cause, Outline.ofLines (sourceLines repeatedLabel) = .ok outline ∧
        Scope.empty.declareAll outline.declarations = (scope, some cause) ∧
        ¬ Scope.empty.StopsAtQuoted outline.declarations := by
  have rejected : load repeatedLabel =
      .error (.onLine 4 (.duplicateIdentifier "label".toList)) := by rfl
  exact ⟨rejected, (stage_of_rejected rejected).2.1.1 rfl⟩

def quotedColon : Text := "Algorithm A;\nVariables\n    x = \"a:b\";\nBegin\nEnd\n".toList

/-- The lines have an outline, so it is the declarations that reject this; the stage that is named
is the layout. -/
theorem quotedColon_misnamed :
    ∃ outline rejection, Outline.ofLines (sourceLines quotedColon) = .ok outline ∧
      Scope.empty.declareAll outline.declarations = (Scope.empty, some rejection) ∧
      load quotedColon = .error rejection ∧ rejection.stage = .layout :=
  ⟨⟨['A'], [(.variables, ⟨3, "x = \"a:b\";".toList⟩)], []⟩,
    .onLine 3 (.invalidDeclaration "x = \"a:b\";".toList), rfl, rfl, rfl, rfl⟩

end Program

end Pseudocode
