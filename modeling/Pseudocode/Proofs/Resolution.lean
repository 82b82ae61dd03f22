import Pseudocode.Proofs.Arguments
import Pseudocode.Proofs.Lexing
import Pseudocode.Proofs.Runs

/-!
One meaning for every name. An expression looks a name up among the constants first, an output
statement among the variables first. They never find different values, because no name stands in
both tables: a declaration refuses a name that is there already, and a run changes no names. Every
declared name is an identifier, so it is a single token of an expression and a single argument of
an output statement, and both see the one value that it holds.
-/

namespace Pseudocode

namespace Symbols

theorem get?_eq_none_iff {symbols : Symbols} {name : Text} :
    symbols.get? name = none ↔ name ∉ symbols.names := by
  rw [← contains_iff, contains, Option.not_isSome_iff_eq_none]

theorem mem_names_of_mem {symbols : Symbols} {entry : Text × Value}
    (member : entry ∈ symbols.entries) : entry.1 ∈ symbols.names :=
  List.mem_map_of_mem member

end Symbols

namespace Scope

/-- No name stands in both tables. -/
def Apart (scope : Scope) : Prop := ∀ name ∈ scope.constants.names, name ∉ scope.variables.names

/-- Every name is an identifier, and none stands in both tables. -/
structure WellNamed (scope : Scope) : Prop where
  identifiers : ∀ part, ∀ name ∈ (scope.table part).names, Text.isIdentifier name = true
  disjoint : scope.Apart

theorem wellNamed_empty : empty.WellNamed := by
  constructor
  · intro part name member
    cases part <;> contradiction
  · intro name member
    contradiction

section Adding

variable {scope : Scope} {name : Text} {value : Value} (absent : scope.contains name = false)
include absent

theorem mem_names_add (part : Section) {owner : Section} {other : Text}
    (member : other ∈ ((scope.add owner name value).table part).names) :
    other ∈ (scope.table part).names ∨ (owner = part ∧ other = name) := by
  rw [add_names absent, List.mem_append] at member
  rcases member with old | added
  · exact .inl old
  · by_cases same : owner = part
    · rw [if_pos same] at added
      exact .inr ⟨same, List.mem_singleton.1 added⟩
    · rw [if_neg same] at added
      contradiction

/-- A new name may go into either table. -/
theorem Apart.add (apart : scope.Apart) (owner : Section) :
    (scope.add owner name value).Apart := by
  have new := contains_eq_false_iff.1 absent
  intro other inConstants inVariables
  rcases mem_names_add absent .constants inConstants with constant | ⟨first, rfl⟩
  · rcases mem_names_add absent .variables inVariables with old | ⟨_, rfl⟩
    · exact apart other constant old
    · exact new .constants constant
  · rcases mem_names_add absent .variables inVariables with old | ⟨second, _⟩
    · exact new .variables old
    · exact absurd (first.symm.trans second) (by decide)

theorem wellNamed_add (named : scope.WellNamed) (identifier : Text.isIdentifier name = true)
    (owner : Section) : (scope.add owner name value).WellNamed := by
  refine ⟨?_, Apart.add absent named.disjoint owner⟩
  intro part other member
  rcases mem_names_add absent part member with old | ⟨_, rfl⟩
  · exact named.identifiers part other old
  · exact identifier

end Adding

theorem declareAll_wellNamed {scope next : Scope} {declarations : List (Section × Line)}
    (named : scope.WellNamed) (declared : scope.declareAll declarations = (next, none)) :
    next.WellNamed := by
  induction declarations generalizing scope with
  | nil =>
      cases declared
      exact named
  | cons first rest ih =>
      obtain ⟨declaration, parsed, absent, later⟩ := declareAll_cons_ok declared
      obtain ⟨_, _, _, _, _, identifier, _⟩ := Declaration.parse_ok parsed
      exact ih (wellNamed_add absent named identifier first.1) later

theorem Keeps.typed {before after : Scope} (kept : before.Keeps after) (part : Section) :
    (after.table part).typed = (before.table part).typed := by
  cases part with
  | constants => exact congrArg Symbols.typed kept.constants
  | «variables» => exact kept.develops.typed

theorem Keeps.names {before after : Scope} (kept : before.Keeps after) (part : Section) :
    (after.table part).names = (before.table part).names := by
  rw [Symbols.names_of_typed, Symbols.names_of_typed, kept.typed part]

theorem Keeps.wellNamed {before after : Scope} (kept : before.Keeps after)
    (named : before.WellNamed) : after.WellNamed := by
  constructor
  · intro part name member
    rw [kept.names part] at member
    exact named.identifiers part name member
  · intro name inConstants inVariables
    have constant := kept.names .constants ▸ inConstants
    have «variable» := kept.names .variables ▸ inVariables
    exact named.disjoint name constant «variable»

section Lookup

variable {scope : Scope} (named : scope.WellNamed)
include named

theorem operand?_eq_shown? (name : Text) : scope.operand? name = scope.shown? name := by
  unfold operand? shown?
  cases constant : scope.constants.get? name with
  | none => simp
  | some value =>
      have member := Symbols.mem_names_of_mem (Symbols.mem_of_get? constant)
      rw [Symbols.get?_eq_none_iff.2 (named.disjoint name member)]
      rfl

theorem operand?_of_mem {part : Section} {name : Text} {value : Value}
    (member : (name, value) ∈ (scope.table part).entries) : scope.operand? name = some value := by
  have held := Symbols.get?_of_mem member
  cases part with
  | constants =>
      have constant : scope.constants.get? name = some value := held
      simp [operand?, constant]
  | «variables» =>
      have «variable» : scope.variables.get? name = some value := held
      rw [operand?_eq_shown? named]
      simp [shown?, «variable»]

end Lookup

section Single

variable {name : Text} (identifier : Text.isIdentifier name = true)
include identifier

theorem lex_identifier : lex name = .ok [.atom (.name name)] := by
  have lexed : lex (name ++ []) = (lex []).map (.atom (.name name) :: ·) :=
    lex_name identifier (by simp)
  rw [List.append_nil, lex] at lexed
  exact lexed

/-- The expression that is just a name. -/
theorem evaluate_identifier (scope : Scope) : scope.evaluate name = scope.number name := by
  have single : scope.evaluate name = scope.resolveAll [.atom (.name name)] >>= fun resolved =>
      (Expr.parse Atom.number? resolved).mapError .badExpression >>= Expr.eval := by
    rw [evaluate, lex_identifier identifier]
    rfl
  rw [single]
  cases looked : scope.number name with
  | error fault => simp [resolveAll, resolve, looked, bind, Except.bind, Except.map]
  | ok number =>
      simp only [resolveAll, resolve, looked, bind, Except.bind, Except.map]
      rfl

theorem outputText_identifier (scope : Scope) :
    scope.outputText (callText Command.write.keyword name) = scope.argumentText name := by
  have plain := Text.plain_of_identifier identifier
  have commaless : Text.Passes (fun rest => rest.head? = some ',') name :=
    Text.passes_of_absent (Text.acceptsOnly_head ',') (Text.not_mem_of_plain plain rfl)
      (Text.not_mem_of_plain plain rfl)
  have trimmed := Text.trim_snug (Text.snug_of_plain plain)
  have filled : name ≠ [] := by
    rintro rfl
    contradiction
  rw [outputText_single (by rwa [trimmed]) (Text.openParts_single commaless.finds_none), trimmed]

end Single

end Scope

namespace Program

theorem load_wellNamed {source : Text} {program : Program} (loaded : load source = .ok program) :
    program.scope.WellNamed := by
  obtain ⟨outline, _, _, declared, _⟩ := loadWith_ok loaded
  exact Scope.declareAll_wellNamed Scope.wellNamed_empty declared

/-- In all tables that a loaded program reaches, both ways of looking a name up find the same
value, or nothing. Every name in them is one token; as an expression it has the value that it
holds, provided this is a number, and as an argument it is printed, provided it holds a value. -/
theorem lookups_agree {source : Text} {program : Program} {scope : Scope}
    (loaded : load source = .ok program) (reached : program.Reaches scope) :
    (∀ name, scope.operand? name = scope.shown? name) ∧
    ∀ part name value, (name, value) ∈ (scope.table part).entries →
      scope.operand? name = some value ∧
      lex name = .ok [.atom (.name name)] ∧
      (scope.evaluate name = match value with
        | .number number => .ok number
        | .string _ => .error (.mismatch (.stringOperand name))
        | .unset _ => .error (.unset name)) ∧
      ∀ input output,
        let session : Session := ⟨scope, input, output⟩
        session.write ("Write(".toList ++ name ++ ");".toList) =
          if value.isUnset then (some (.unset name), session) else session.emit value.text := by
  have named : scope.WellNamed := reached.scope_keeps.wellNamed (load_wellNamed loaded)
  refine ⟨Scope.operand?_eq_shown? named, ?_⟩
  intro part name value member
  have identifier := named.identifiers part name (Symbols.mem_names_of_mem member)
  have operand := Scope.operand?_of_mem named member
  refine ⟨operand, Scope.lex_identifier identifier, ?_, ?_⟩
  · rw [Scope.evaluate_identifier identifier, Scope.number, operand]
    cases value <;> rfl
  · intro input output
    have shown : scope.shown? name = some value := by
      rw [← Scope.operand?_eq_shown? named, operand]
    have call : "Write(".toList ++ name ++ ");".toList = callText Command.write.keyword name := by
      have start : "Write(".toList = Command.write.keyword ++ ['('] := rfl
      have stop : ");".toList = [')', ';'] := rfl
      rw [start, stop, callText, List.append_assoc, List.append_assoc, List.singleton_append]
    simp only [call, Session.write, Scope.outputText_identifier identifier,
      Scope.argumentText_identifier identifier, shown]
    cases unset : value.isUnset with
    | false => rfl
    | true => rfl

def naming : Text :=
  ("Algorithm Names;\nConstants\n    c = -5 : Integer;\nVariables\n    s = \"a\" : String;\n" ++
    "    u : Real;\nBegin\n    Read(s, u);\nEnd").toList

def minusFive : Integer := ⟨-5, by decide⟩

-- The run reads a line into `s` and finds no input left for `u`.
theorem naming_looked_up :
    ∃ program, load naming = .ok program ∧
      let scope := (program.after [⟨[98, 10], .unlimited⟩]).scope
      let session : Session := ⟨scope, .ofBytes [], .unlimited⟩
      scope.evaluate ['c'] = .ok (.integer minusFive) ∧
      scope.evaluate ['s'] = .error (.mismatch (.stringOperand ['s'])) ∧
      scope.evaluate ['u'] = .error (.unset ['u']) ∧
      (session.write "Write(s);".toList).2.output.written = [98] ∧
      session.write "Write(u);".toList = (some (.unset ['u']), session) := by
  have held : (load naming).toOption.map (fun program =>
      let scope := (program.after [⟨[98, 10], .unlimited⟩]).scope
      (scope.constants.entries, scope.variables.entries)) =
        some ([(['c'], .integer minusFive)],
          [(['s'], .string ['b']), (['u'], .unset .real)]) := by decide +kernel
  cases loaded : load naming with
  | error rejection =>
      rw [loaded] at held
      contradiction
  | ok program =>
      rw [loaded] at held
      obtain ⟨constants, others⟩ := Prod.mk.inj (Option.some.inj held)
      obtain ⟨_, values⟩ := lookups_agree loaded (.after [⟨[98, 10], .unlimited⟩])
      have c := values .constants ['c'] (.integer minusFive) (constants ▸ List.mem_cons_self)
      have s := values .variables ['s'] (.string ['b']) (others ▸ List.mem_cons_self)
      have u := values .variables ['u'] (.unset .real)
        (others ▸ List.mem_cons_of_mem _ List.mem_cons_self)
      refine ⟨program, rfl, c.2.2.1, s.2.2.1, u.2.2.1, ?_, u.2.2.2 _ _⟩
      have written := s.2.2.2 (.ofBytes []) .unlimited
      exact congrArg (fun step => step.2.output.written) written

end Program

end Pseudocode
