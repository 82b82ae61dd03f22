import Pseudocode.Proofs.Moves

/-!
What runs keep. Running a program changes nothing but the values of its variables, and
those only within their declared types: a statement stores a value only after looking up
the type of the name, and an input or an assignment that cannot produce a value of that
type stores nothing. This holds for every input and every output, and for runs that stop
with an error halfway through a statement as much as for those that succeed.
-/

namespace Pseudocode

namespace Symbols

theorem get?_of_mem {symbols : Symbols} {name : Text} {value : Value}
    (member : (name, value) ∈ symbols.entries) : symbols.get? name = some value := by
  obtain ⟨front, back, shape⟩ := List.append_of_mem member
  have distinct := symbols.distinct
  rw [shape, List.map_append, List.map_cons, List.nodup_append] at distinct
  refine List.lookup_eq_some_iff.2 ⟨front, back, shape, ?_⟩
  intro earlier inFront
  have different := distinct.2.2 _ (List.mem_map_of_mem inFront) name List.mem_cons_self
  simpa using Ne.symm different

theorem mem_of_get? {symbols : Symbols} {name : Text} {value : Value}
    (found : symbols.get? name = some value) : (name, value) ∈ symbols.entries := by
  obtain ⟨front, back, shape, _⟩ := List.lookup_eq_some_iff.1 found
  rw [shape]
  simp

theorem lookup_storeAt (name : Text) (value : Value) (entries : List (Text × Value))
    (other : Text) :
    (entries.map (storeAt name value)).lookup other =
      (entries.lookup other).map fun old => if other = name then value else old := by
  induction entries with
  | nil => rfl
  | cons entry rest ih =>
      rw [List.map_cons, List.lookup_cons, List.lookup_cons]
      by_cases stored : entry.1 = name
      · by_cases same : other = name
        · simp [storeAt, stored, same]
        · have different : (other == name) = false := by simpa using same
          simpa [storeAt, stored, different] using ih
      · by_cases same : other = entry.1
        · simp [storeAt, stored, same]
        · have different : (other == entry.1) = false := by simpa using same
          simpa [storeAt, stored, different] using ih

theorem get?_store (symbols : Symbols) (name : Text) (value : Value) (other : Text) :
    (symbols.store name value).get? other =
      (symbols.get? other).map fun old => if other = name then value else old :=
  lookup_storeAt name value symbols.entries other

/-- A later state of the same table: the same names in the same order with the same types,
and no name that held a value has lost it. -/
structure Develops (old new : Symbols) : Prop where
  typed : new.typed = old.typed
  concrete : ∀ name value, old.get? name = some value → value.isUnset = false →
    ∃ next, new.get? name = some next ∧ next.isUnset = false

namespace Develops

theorem refl (symbols : Symbols) : symbols.Develops symbols :=
  ⟨rfl, fun _ value found concrete => ⟨value, found, concrete⟩⟩

theorem trans {first second third : Symbols} (early : first.Develops second)
    (late : second.Develops third) : first.Develops third where
  typed := late.typed.trans early.typed
  concrete := by
    intro name value found concrete
    obtain ⟨next, found, concrete⟩ := early.concrete name value found concrete
    exact late.concrete name next found concrete

theorem names {old new : Symbols} (develops : old.Develops new) : new.names = old.names := by
  rw [names_of_typed, names_of_typed, develops.typed]

/-- Storing a value of the type that the name already has. -/
theorem store {symbols : Symbols} {name : Text} {old value : Value}
    (found : symbols.get? name = some old) (kind : value.kind = old.kind)
    (concrete : value.isUnset = false) : symbols.Develops (symbols.store name value) where
  typed := by
    simp only [Symbols.typed, Symbols.store, List.map_map]
    apply List.map_congr_left
    rintro ⟨other, held⟩ member
    by_cases same : other = name
    · subst other
      have known := get?_of_mem member
      rw [found] at known
      cases known
      simp [storeAt, kind]
    · simp [storeAt, same]
  concrete := by
    intro other held present isConcrete
    rw [get?_store, present]
    by_cases same : other = name
    · exact ⟨value, by simp [same], concrete⟩
    · exact ⟨held, by simp [same], isConcrete⟩

end Develops

end Symbols

section StoredValues

theorem Number.convert_kind {target : Kind} {number result : Number}
    (numeric : target.isNumeric = true) (converted : number.convert target = .ok result) :
    result.kind = target := by
  cases target with
  | integer =>
      cases number with
      | integer n => cases converted; rfl
      | real x =>
          obtain ⟨n, _, rfl⟩ := map_eq_ok.1 converted
          rfl
  | real => cases converted; rfl
  | string => contradiction

/-- Only numbers are made to fit, and they stay numbers. -/
theorem Value.coerce_ok {value result : Value} {target : Kind} {name : Text}
    (coerced : value.coerce target name = .ok result) :
    target.isNumeric = true ∧ ∃ number fitting, value.toNumber = .ok number ∧
      number.convert target = .ok fitting ∧ result = .number fitting := by
  unfold coerce at coerced
  cases numeric : target.isNumeric with
  | false =>
      rw [numeric] at coerced
      contradiction
  | true =>
      rw [numeric] at coerced
      obtain ⟨number, given, changed⟩ := bind_eq_ok.1 coerced
      obtain ⟨fitting, converted, rfl⟩ := map_eq_ok.1 changed
      exact ⟨rfl, number, fitting, given, converted, rfl⟩

theorem Value.coerce_kind {value result : Value} {target : Kind} {name : Text}
    (coerced : value.coerce target name = .ok result) :
    result.kind = target ∧ result.isUnset = false := by
  obtain ⟨numeric, _, _, _, converted, rfl⟩ := coerce_ok coerced
  exact ⟨Number.convert_kind numeric converted, rfl⟩

/-- A line is taken as it stands, a word is read like a literal. -/
theorem Kind.ofInput_ok {kind : Kind} {text : Text} {value : Value}
    (read : kind.ofInput text = .ok value) :
    (kind = .string ∧ value = .string text) ∨ kind.literal? text = some value := by
  rw [ofInput_eq_ok] at read
  cases kind with
  | string =>
      cases read
      exact .inl ⟨rfl, rfl⟩
  | integer | real => exact .inr read

theorem Kind.ofInput_kind {kind : Kind} {text : Text} {value : Value}
    (read : kind.ofInput text = .ok value) : value.kind = kind ∧ value.isUnset = false := by
  rcases ofInput_ok read with ⟨rfl, rfl⟩ | found
  · exact ⟨rfl, rfl⟩
  · cases kind <;> obtain ⟨_, _, rfl⟩ := Option.map_eq_some_iff.1 found <;> exact ⟨rfl, rfl⟩

/-- What is read into a variable comes from one line or word of the input. -/
theorem Reader.nextValue_ok {reader after : Reader} {kind : Kind} {value : Value}
    (read : reader.nextValue kind = (.ok value, after)) :
    ∃ text, reader.nextText kind = (.ok (some text), after) ∧ kind.ofInput text = .ok value := by
  unfold nextValue at read
  rcases taken : reader.nextText kind with ⟨cause | _ | text, rest⟩
  · rw [taken] at read
    cases read
  · rw [taken] at read
    cases read
  · rw [taken, Prod.mk.injEq] at read
    obtain ⟨made, rfl⟩ := read
    exact ⟨text, rfl, made⟩

theorem Reader.nextValue_kind {reader after : Reader} {kind : Kind} {value : Value}
    (read : reader.nextValue kind = (.ok value, after)) :
    value.kind = kind ∧ value.isUnset = false := by
  obtain ⟨_, _, made⟩ := nextValue_ok read
  exact Kind.ofInput_kind made

end StoredValues

/-- Both tables hold only such values. -/
def Scope.All (holds : Value → Prop) (scope : Scope) : Prop :=
  ∀ part, ∀ entry ∈ (scope.table part).entries, holds entry.2

theorem Scope.All.store {holds : Value → Prop} {scope : Scope} {name : Text} {value : Value}
    (all : scope.All holds) (stored : holds value) :
    All holds ⟨scope.constants, scope.variables.store name value⟩ := by
  intro part entry member
  cases part with
  | constants => exact all .constants entry member
  | «variables» =>
      obtain ⟨old, among, rfl⟩ := List.mem_map.1 member
      unfold Symbols.storeAt
      split
      · exact stored
      · exact all .variables old among

/-- A later state of both tables: constants are as they were, variables have developed. -/
structure Scope.Keeps (before after : Scope) : Prop where
  constants : after.constants = before.constants
  develops : before.variables.Develops after.variables

namespace Scope.Keeps

theorem refl (scope : Scope) : scope.Keeps scope := ⟨rfl, .refl _⟩

theorem trans {first second third : Scope} (early : first.Keeps second)
    (late : second.Keeps third) : first.Keeps third :=
  ⟨late.constants.trans early.constants, early.develops.trans late.develops⟩

end Scope.Keeps

/-- A value is stored only after the type of its variable has been looked up. -/
theorem Session.Moves.keeps {session next : Session} (move : session.Moves next) :
    session.scope.Keeps next.scope := by
  cases move with
  | reads found taken =>
      obtain ⟨kind, concrete⟩ := Reader.nextValue_kind taken
      exact ⟨rfl, .store found kind concrete⟩
  | misreads _ => exact .refl _
  | assigns found _ fitted =>
      obtain ⟨kind, concrete⟩ := Value.coerce_kind fitted
      exact ⟨rfl, .store found kind concrete⟩
  | writes _ => exact .refl _

theorem Session.run_keeps (session : Session) (statements : List Statement) :
    session.scope.Keeps (session.run statements).2.scope :=
  run_holds (fun move kept => kept.trans move.keeps) session statements (.refl _)

/-- One run of a program: what it reads, and what it writes to. -/
structure Call where
  input : Bytes
  output : Output

namespace Program

/-- The program after some runs; one that stops with an error counts like any other. -/
def after (program : Program) : List Call → Program
  | [] => program
  | call :: rest => (program.run call.input call.output).program.after rest

theorem after_append (program : Program) (calls later : List Call) :
    program.after (calls ++ later) = (program.after calls).after later := by
  induction calls generalizing program with
  | nil => rfl
  | cons call rest ih => exact ih _

/-- One run of several has the outcome of a run of the program after all those before it. -/
theorem runAll_getElem? (program : Program) (output : Output) (inputs : List Bytes)
    (position : Nat) :
    (program.runAll output inputs)[position]? = inputs[position]?.map fun input =>
      (program.after ((inputs.take position).map (⟨·, output⟩))).run input output := by
  induction inputs generalizing program position with
  | nil => rfl
  | cons input rest ih =>
      cases position with
      | zero => rfl
      | succ position => exact ih _ position

/-- A later state of the same program. -/
structure Keeps (before after : Program) : Prop where
  name : after.name = before.name
  statements : after.statements = before.statements
  scope : before.scope.Keeps after.scope

theorem run_keeps (program : Program) (call : Call) :
    program.Keeps (program.run call.input call.output).program :=
  ⟨rfl, rfl, Session.run_keeps (program.session call.input call.output) program.statements⟩

theorem after_keeps (program : Program) (calls : List Call) :
    program.Keeps (program.after calls) := by
  induction calls generalizing program with
  | nil => exact ⟨rfl, rfl, .refl _⟩
  | cons call rest ih =>
      have first := run_keeps program call
      have others := ih (program.run call.input call.output).program
      exact ⟨others.name.trans first.name, others.statements.trans first.statements,
        first.scope.trans others.scope⟩

/-- The tables that a program can come to: after some runs, or in the middle of one more. -/
inductive Reaches (program : Program) : Scope → Prop where
  | after (calls : List Call) : program.Reaches (program.after calls).scope
  | during (calls : List Call) (call : Call) {done left : List Statement}
      (whole : program.statements = done ++ left) :
      program.Reaches (((program.after calls).session call.input call.output).run done).2.scope

section Invariants

variable {program : Program} {property : Scope → Prop}
  (kept : ∀ {before after : Session}, before.Moves after → property before.scope →
    property after.scope)
include kept

theorem after_holds (calls : List Call) (initial : property program.scope) :
    property (program.after calls).scope := by
  induction calls generalizing program with
  | nil => exact initial
  | cons call rest ih =>
      apply ih
      exact Session.run_holds kept (program.session call.input call.output) _ initial

/-- What holds of the tables of a program at first, and is kept by every move, holds of all
tables that it reaches. -/
theorem Reaches.holds {scope : Scope} (reached : program.Reaches scope)
    (initial : property program.scope) : property scope := by
  cases reached with
  | after calls => exact after_holds kept calls initial
  | during calls call whole => exact Session.run_holds kept _ _ (after_holds kept calls initial)

end Invariants

theorem Reaches.scope_keeps {program : Program} {scope : Scope} (reached : program.Reaches scope) :
    program.scope.Keeps scope :=
  reached.holds (fun move kept => kept.trans move.keeps) (.refl _)

/-- However often a loaded program is run, on whatever inputs and outputs, it keeps its name,
its statements, its constants, and the names of its variables in their order; every variable
has the type that its line declares; and one that holds a value still holds one later on. -/
theorem after_keeps_declared {source : Text} {program : Program}
    (loaded : load source = .ok program) (calls later : List Call) :
    (program.after calls).name = program.name ∧
    (program.after calls).statements = program.statements ∧
    (program.after calls).scope.constants = program.scope.constants ∧
    (program.after calls).scope.variables.names = program.scope.variables.names ∧
    (∃ outline, Outline.ofLines (sourceLines source) = .ok outline ∧
      (program.after calls).scope.variables.typed =
        declaredKinds .variables outline.declarations) ∧
    ∀ name value, (program.after calls).scope.variables.get? name = some value →
      value.isUnset = false →
      ∃ next, (program.after (calls ++ later)).scope.variables.get? name = some next ∧
        next.isUnset = false := by
  have kept := after_keeps program calls
  have develops := kept.scope.develops
  obtain ⟨outline, laid, typed⟩ := load_typed loaded
  refine ⟨kept.name, kept.statements, kept.scope.constants, develops.names,
    ⟨outline, laid, develops.typed.trans (typed .variables)⟩, ?_⟩
  rw [after_append]
  exact (after_keeps (program.after calls) later).scope.develops.concrete

def greeting : Text :=
  "Algorithm Hi;\nVariables\n    n : Integer;\n    s : String;\nBegin\n    Read(s, n);\nEnd".toList

-- The first run ends for lack of input, the second at a word that is no integer, after it
-- has already stored the line before.
theorem greeting_keeps_declared :
    ∃ program, load greeting = .ok program ∧
      (program.after [⟨[], .unlimited⟩, ⟨[97, 10, 98], .limited 0⟩]).scope.variables.typed =
        [(['n'], .integer), (['s'], .string)] := by
  have loads : (load greeting).isOk = true := by decide +kernel
  have declared : ((Outline.ofLines (sourceLines greeting)).map fun outline =>
      declaredKinds .variables outline.declarations).toOption =
        some [(['n'], .integer), (['s'], .string)] := by decide +kernel
  cases loaded : load greeting with
  | error rejection => simp [loaded, Except.isOk, Except.toBool] at loads
  | ok program =>
      obtain ⟨_, _, _, _, ⟨outline, laid, typed⟩, _⟩ := after_keeps_declared loaded
        [⟨[], .unlimited⟩, ⟨[97, 10, 98], .limited 0⟩] []
      rw [laid] at declared
      exact ⟨program, rfl, typed.trans (Option.some.inj declared)⟩

end Program

end Pseudocode
