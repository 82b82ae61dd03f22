import Pseudocode.Program

/-!
What a loaded program owes to its source. Loading is a chain of three stages; a program
comes out only if every one of them succeeds, so each field of the program can be traced
back to the stage that made it. The tables hold the declared names in the order of their
lines, each with a value of the declared type.
-/

namespace Pseudocode

section Results

variable {ε α β : Type}

theorem bind_eq_ok {first : Except ε α} {next : α → Except ε β} {result : β} :
    first >>= next = .ok result ↔ ∃ value, first = .ok value ∧ next value = .ok result := by
  cases first with
  | error cause => simp [bind, Except.bind]
  | ok value => simp [bind, Except.bind]

theorem bind_eq_error {first : Except ε α} {next : α → Except ε β} {cause : ε} :
    first >>= next = .error cause ↔
      first = .error cause ∨ ∃ value, first = .ok value ∧ next value = .error cause := by
  cases first with
  | error cause => simp [bind, Except.bind]
  | ok value => simp [bind, Except.bind]

theorem ok_bind (value : α) (next : α → Except ε β) : (.ok value) >>= next = next value := rfl

theorem map_eq_ok {first : Except ε α} {change : α → β} {result : β} :
    first.map change = .ok result ↔ ∃ value, first = .ok value ∧ change value = result := by
  cases first with
  | error cause => simp [Except.map]
  | ok value => simp [Except.map]

theorem map_eq_error {first : Except ε α} {change : α → β} {cause : ε} :
    first.map change = .error cause ↔ first = .error cause := by
  cases first with
  | error cause => simp [Except.map]
  | ok value => simp [Except.map]

theorem mapError_eq_ok {δ : Type} {first : Except ε α} {change : ε → δ} {result : α} :
    first.mapError change = .ok result ↔ first = .ok result := by
  constructor
  · intro made
    cases first with
    | error cause => cases made
    | ok value => exact congrArg Except.ok (Except.ok.inj made)
  · rintro rfl
    rfl

theorem mapError_eq_error {δ : Type} {first : Except ε α} {change : ε → δ} {cause : δ} :
    first.mapError change = .error cause ↔
      ∃ earlier, first = .error earlier ∧ change earlier = cause := by
  constructor
  · intro failed
    cases first with
    | error earlier => exact ⟨earlier, rfl, Except.error.inj failed⟩
    | ok value => cases failed
  · rintro ⟨earlier, rfl, rfl⟩
    rfl

end Results

namespace Symbols

/-- The names of a table with the types of their values, in the order of declaration. -/
def typed (symbols : Symbols) : List (Text × Kind) :=
  symbols.entries.map fun entry => (entry.1, entry.2.kind)

theorem names_of_typed (symbols : Symbols) : symbols.names = symbols.typed.map Prod.fst := by
  simp [names, typed, Function.comp_def]

theorem declare?_of_absent {symbols : Symbols} {name : Text}
    (absent : symbols.contains name = false) (value : Value) :
    ∃ next, symbols.declare? name value = some next ∧
      next.entries = symbols.entries ++ [(name, value)] := by
  have missing : name ∉ symbols.names := by
    intro member
    rw [← contains_iff, absent] at member
    contradiction
  unfold declare?
  rw [dif_neg missing]
  exact ⟨_, rfl, rfl⟩

end Symbols

namespace Kind

theorem literal?_kind {kind : Kind} {literal : Text} {value : Value}
    (found : kind.literal? literal = some value) : value.kind = kind := by
  cases kind <;> obtain ⟨content, _, rfl⟩ := Option.map_eq_some_iff.1 found <;> rfl

theorem initial_ok {kind : Kind} {literal : Option Text} {value : Value}
    (made : kind.initial literal = .ok value) :
    (literal = none ∧ value = .unset kind) ∨
      ∃ spelling, literal = some spelling ∧ kind.literal? spelling = some value := by
  cases literal with
  | none =>
      cases made
      exact .inl ⟨rfl, rfl⟩
  | some spelling =>
      simp only [initial, read] at made
      cases found : kind.literal? spelling with
      | none =>
          rw [found] at made
          contradiction
      | some initial =>
          rw [found] at made
          cases made
          exact .inr ⟨spelling, rfl, found⟩

theorem initial_kind {kind : Kind} {literal : Option Text} {value : Value}
    (made : kind.initial literal = .ok value) : value.kind = kind := by
  rcases initial_ok made with ⟨_, rfl⟩ | ⟨_, _, found⟩
  · rfl
  · exact literal?_kind found

end Kind

namespace Declaration

theorem parse_ok {text : Text} {declaration : Declaration} (parsed : parse text = .ok declaration) :
    ∃ declared typePart literal, Text.cutOpen? ':' text = some (declared, typePart) ∧
      splitName declared = .ok (declaration.name, literal) ∧
      Text.isIdentifier declaration.name = true ∧
      Kind.ofName? (kindName typePart) = some declaration.kind ∧
      declaration.kind.initial literal = .ok declaration.value := by
  unfold parse at parsed
  cases cut : Text.cutOpen? ':' text with
  | none =>
      rw [cut] at parsed
      contradiction
  | some sides =>
      obtain ⟨declared, typePart⟩ := sides
      rw [cut] at parsed
      obtain ⟨⟨name, literal⟩, split, checked⟩ := bind_eq_ok.1 parsed
      cases identifier : Text.isIdentifier name with
      | false =>
          simp only [identifier] at checked
          contradiction
      | true =>
          simp only [identifier] at checked
          cases named : Kind.ofName? (kindName typePart) with
          | none =>
              simp only [named] at checked
              contradiction
          | some kind =>
              cases made : kind.initial literal with
              | error cause =>
                  simp only [named, made] at checked
                  contradiction
              | ok value =>
                  simp only [named, made] at checked
                  cases checked
                  exact ⟨declared, typePart, literal, rfl, split, identifier, named, made⟩

theorem parse_value_kind {text : Text} {declaration : Declaration}
    (parsed : parse text = .ok declaration) : declaration.value.kind = declaration.kind := by
  obtain ⟨_, _, _, _, _, _, _, made⟩ := parse_ok parsed
  exact Kind.initial_kind made

end Declaration

namespace Scope

def table (scope : Scope) : Section → Symbols
  | .constants => scope.constants
  | .variables => scope.variables

theorem absent_of_contains {scope : Scope} {name : Text} (absent : scope.contains name = false)
    (part : Section) : (scope.table part).contains name = false := by
  have both := Bool.or_eq_false_iff.1 absent
  cases part with
  | constants => exact both.1
  | «variables» => exact both.2

theorem add_entries {scope : Scope} {name : Text} {value : Value}
    (absent : scope.contains name = false) (owner part : Section) :
    ((scope.add owner name value).table part).entries =
      (scope.table part).entries ++ if owner = part then [(name, value)] else [] := by
  obtain ⟨next, declared, entries⟩ :=
    Symbols.declare?_of_absent (absent_of_contains absent owner) value
  cases owner <;> cases part <;> simp_all [add, table]

theorem declare_ok {scope next : Scope} {part : Section} {text : Text}
    (declared : scope.declare part text = .ok next) :
    ∃ declaration, Declaration.parse text = .ok declaration ∧
      scope.contains declaration.name = false ∧
      next = scope.add part declaration.name declaration.value := by
  obtain ⟨declaration, parsed, added⟩ := bind_eq_ok.1 declared
  cases absent : scope.contains declaration.name with
  | true =>
      simp only [absent] at added
      contradiction
  | false =>
      simp only [absent] at added
      cases added
      exact ⟨declaration, parsed, absent, rfl⟩

theorem declareAll_cons_ok {scope next : Scope} {first : Section × Line}
    {rest : List (Section × Line)} (declared : scope.declareAll (first :: rest) = (next, none)) :
    ∃ declaration, Declaration.parse first.2.text = .ok declaration ∧
      scope.contains declaration.name = false ∧
      (scope.add first.1 declaration.name declaration.value).declareAll rest = (next, none) := by
  obtain ⟨part, line⟩ := first
  simp only [declareAll] at declared
  cases accepted : scope.declare part line.text with
  | error cause =>
      rw [accepted] at declared
      cases declared
  | ok middle =>
      rw [accepted] at declared
      obtain ⟨declaration, parsed, absent, rfl⟩ := declare_ok accepted
      exact ⟨declaration, parsed, absent, declared⟩

end Scope

/-- What one line adds to the table of a section. -/
def addedEntries (part : Section) (line : Section × Line) : List (Text × Value) :=
  match Declaration.parse line.2.text with
  | .ok declaration => if line.1 = part then [(declaration.name, declaration.value)] else []
  | .error _ => []

/-- The entries that lines declare for a section, in their order. -/
def declaredEntries (part : Section) (lines : List (Section × Line)) : List (Text × Value) :=
  lines.flatMap (addedEntries part)

/-- Each line has added its entry to the table of its section, and nothing else has changed. -/
theorem Scope.declareAll_adds {scope next : Scope} {declarations : List (Section × Line)}
    (declared : scope.declareAll declarations = (next, none)) (part : Section) :
    (next.table part).entries =
      (scope.table part).entries ++ declaredEntries part declarations := by
  induction declarations generalizing scope with
  | nil =>
      cases declared
      exact (List.append_nil _).symm
  | cons first rest ih =>
      obtain ⟨declaration, parsed, absent, later⟩ := declareAll_cons_ok declared
      have added : addedEntries part first =
          if first.1 = part then [(declaration.name, declaration.value)] else [] := by
        rw [addedEntries, parsed]
      have all : declaredEntries part (first :: rest) =
          addedEntries part first ++ declaredEntries part rest := List.flatMap_cons
      rw [ih later, add_entries absent, all, added, List.append_assoc]

/-- The names that the lines of one section declare, with their types. -/
def declaredKinds (part : Section) : List (Section × Line) → List (Text × Kind)
  | [] => []
  | (owner, line) :: rest =>
      match Declaration.parse line.text with
      | .ok declaration =>
          (if owner = part then [(declaration.name, declaration.kind)] else []) ++
            declaredKinds part rest
      | .error _ => declaredKinds part rest

/-- The value that a line declares has the type that it declares. -/
theorem kinds_of_declaredEntries (part : Section) (lines : List (Section × Line)) :
    (declaredEntries part lines).map (fun entry => (entry.1, entry.2.kind)) =
      declaredKinds part lines := by
  induction lines with
  | nil => rfl
  | cons first rest ih =>
      obtain ⟨owner, line⟩ := first
      rw [declaredEntries, List.flatMap_cons, List.map_append, declaredKinds]
      change _ ++ (declaredEntries part rest).map _ = _
      rw [ih]
      cases parsed : Declaration.parse line.text with
      | error cause => simp only [addedEntries, parsed, List.map_nil, List.nil_append]
      | ok declaration =>
          have kind := Declaration.parse_value_kind parsed
          by_cases same : owner = part
          · simp [addedEntries, parsed, same, kind]
          · simp [addedEntries, parsed, same]

theorem Scope.declareAll_typed {scope next : Scope} {declarations : List (Section × Line)}
    (declared : scope.declareAll declarations = (next, none)) (part : Section) :
    (next.table part).typed = (scope.table part).typed ++ declaredKinds part declarations := by
  rw [Symbols.typed, declareAll_adds declared, List.map_append, kinds_of_declaredEntries]
  rfl

namespace Program

/-- A loaded program is made of what the three stages of loading give. -/
theorem loadWith_ok {commands : List Command} {source : Text} {program : Program}
    (loaded : loadWith commands source = .ok program) :
    ∃ outline, Outline.ofLines (sourceLines source) = .ok outline ∧
      program.name = outline.name ∧
      Scope.empty.declareAll outline.declarations = (program.scope, none) ∧
      Statement.ofLines commands program.scope outline.body = .ok program.statements := by
  obtain ⟨outline, laid, filled⟩ := bind_eq_ok.1 loaded
  rcases declared : Scope.empty.declareAll outline.declarations with ⟨scope, _ | rejection⟩
  · rw [declared] at filled
    obtain ⟨statements, bound, made⟩ := bind_eq_ok.1 filled
    cases made
    exact ⟨outline, laid, rfl, declared, bound⟩
  · rw [declared] at filled
    contradiction

theorem loadWith_of_stages {commands : List Command} {source : Text} {outline : Outline}
    {scope : Scope} {statements : List Statement}
    (laid : Outline.ofLines (sourceLines source) = .ok outline)
    (declared : Scope.empty.declareAll outline.declarations = (scope, none))
    (bound : Statement.ofLines commands scope outline.body = .ok statements) :
    loadWith commands source = .ok ⟨outline.name, scope, statements⟩ := by
  simp [loadWith, laid, declared, bound, bind, Except.bind]

theorem load_typed {source : Text} {program : Program} (loaded : load source = .ok program) :
    ∃ outline, Outline.ofLines (sourceLines source) = .ok outline ∧
      ∀ part, (program.scope.table part).typed = declaredKinds part outline.declarations := by
  obtain ⟨outline, laid, _, declared, _⟩ := loadWith_ok loaded
  refine ⟨outline, laid, fun part => ?_⟩
  rw [Scope.declareAll_typed declared part]
  cases part <;> rfl

end Program

end Pseudocode
