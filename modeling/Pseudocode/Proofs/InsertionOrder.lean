import Mathlib
import Pseudocode.Proofs.Loading
import Pseudocode.Proofs.Runs

/-!
Tables with an index. A table can also be kept in two halves, a hash map that finds a value by its
name and a list that remembers the order of the declarations, so long as the two stay in step:
listing the table skips a name that the map does not know, and its size is that of the list alone.
After any changes, accepted or refused, the halves show what the table of entries shows, and both
are what the changes say: the names in the order in which they were first declared, each with the
value it was given last.
-/

namespace Pseudocode

inductive Edit where
  | declare (name : Text) (value : Value)
  | replace (name : Text) (value : Value)

namespace Edit

def name : Edit → Text
  | .declare name _ => name
  | .replace name _ => name

def value : Edit → Value
  | .declare _ value => value
  | .replace _ value => value

def declared? : Edit → Option Text
  | .declare name _ => some name
  | .replace _ _ => none

/-- A declaration needs a new name, a replacement one that is there. -/
def Applies (names : List Text) : Edit → Prop
  | .declare name _ => name ∉ names
  | .replace name _ => name ∈ names

/-- The names of a table after a change that applies. -/
def extend (names : List Text) : Edit → List Text
  | .declare name _ => names ++ [name]
  | .replace _ _ => names

end Edit

/-- The names that some changes declare, in the order of their first declarations. -/
def declaredNames (edits : List Edit) : List Text := (edits.filterMap Edit.declared?).eraseDups

/-- What a name was given last: the value of its first declaration, or of the latest replacement
after that. -/
def GivenLast (edits : List Edit) (name : Text) (value : Value) : Prop :=
  ∃ before given later, edits = before ++ given :: later ∧
    (given.name = name ∧ given.value = value ∧ given.Applies (declaredNames before)) ∧
    ∀ other, Edit.replace name other ∉ later

namespace Symbols

def edit? (symbols : Symbols) : Edit → Option Symbols
  | .declare name value => symbols.declare? name value
  | .replace name value => symbols.replace? name value

/-- The table after some changes to the empty one; one that is refused changes nothing. -/
def after (edits : List Edit) : Symbols :=
  edits.foldl (fun symbols edit => (symbols.edit? edit).getD symbols) .empty

structure Indexed where
  values : Std.HashMap Text Value
  order : List Text

namespace Indexed

def empty : Indexed := ⟨∅, []⟩

def declare (table : Indexed) (name : Text) (value : Value) : Bool × Indexed :=
  if table.values.contains name then (false, table)
  else (true, ⟨table.values.insert name value, table.order ++ [name]⟩)

def replace (table : Indexed) (name : Text) (value : Value) : Bool × Indexed :=
  if table.values.contains name then (true, ⟨table.values.insert name value, table.order⟩)
  else (false, table)

def edit (table : Indexed) : Edit → Bool × Indexed
  | .declare name value => table.declare name value
  | .replace name value => table.replace name value

def after (edits : List Edit) : Indexed :=
  edits.foldl (fun table edit => (table.edit edit).2) .empty

def get? (table : Indexed) (name : Text) : Option Value := table.values[name]?

def size (table : Indexed) : Nat := table.order.length

/-- The names in their order, with their values; a name without one is passed over. -/
def entries (table : Indexed) : List (Text × Value) :=
  table.order.filterMap fun name => (table.get? name).map fun value => (name, value)

theorem replace_order (table : Indexed) (name : Text) (value : Value) :
    (table.replace name value).2.order = table.order := by
  unfold replace
  split <;> rfl

end Indexed

section SingleChanges

theorem get?_of_entries {symbols next : Symbols} {name : Text} {value : Value}
    (shape : next.entries = symbols.entries ++ [(name, value)]) (absent : name ∉ symbols.names)
    (other : Text) : next.get? other = if name = other then some value else symbols.get? other := by
  have missing : symbols.entries.lookup name = none := by
    rwa [← contains_iff, contains, Option.not_isSome_iff_eq_none] at absent
  rw [get?, get?, shape, List.lookup_append]
  by_cases same : name = other
  · subst other
    simp [missing]
  · have different : (other == name) = false := by simpa using Ne.symm same
    simp [same, List.lookup_cons, different]

section Change

variable {symbols : Symbols} {edit : Edit}

theorem edit?_of_applies (applies : edit.Applies symbols.names) :
    ∃ next, symbols.edit? edit = some next ∧ next.names = edit.extend symbols.names ∧
      ∀ other, next.get? other =
        if edit.name = other then some edit.value else symbols.get? other := by
  cases edit with
  | declare name value =>
      have missing : symbols.contains name = false := by
        rw [← Bool.not_eq_true, contains_iff]
        exact applies
      obtain ⟨next, declared, shape⟩ := declare?_of_absent missing value
      exact ⟨next, declared, by simp [names, shape, Edit.extend], get?_of_entries shape applies⟩
  | replace name value =>
      have present := contains_iff.2 applies
      obtain ⟨old, found⟩ := Option.isSome_iff_exists.1 present
      refine ⟨symbols.store name value, if_pos present, map_fst_storeAt name value _, ?_⟩
      intro other
      rw [get?_store]
      by_cases same : name = other
      · subst other
        simp [Edit.name, Edit.value, found]
      · simp [Edit.name, same, Ne.symm same]

theorem edit?_of_refused (refused : ¬ edit.Applies symbols.names) : symbols.edit? edit = none := by
  cases edit with
  | declare name value => exact dif_pos (not_not.1 refused)
  | replace name value => exact if_neg (fun present => refused (contains_iff.1 present))

end Change

theorem after_append (edits : List Edit) (edit : Edit) :
    after (edits ++ [edit]) = ((after edits).edit? edit).getD (after edits) := by
  simp [after]

/-- Only a change that applies gives its own name a value. -/
theorem get?_after_append (edits : List Edit) (edit : Edit) (name : Text) :
    (edit.Applies (after edits).names ∧ edit.name = name ∧
        (after (edits ++ [edit])).get? name = some edit.value) ∨
      (¬ (edit.Applies (after edits).names ∧ edit.name = name) ∧
        (after (edits ++ [edit])).get? name = (after edits).get? name) := by
  rw [after_append]
  by_cases applies : edit.Applies (after edits).names
  · obtain ⟨next, accepted, _, values⟩ := edit?_of_applies applies
    rw [accepted, Option.getD_some, values]
    by_cases same : edit.name = name
    · exact .inl ⟨applies, same, if_pos same⟩
    · exact .inr ⟨fun both => same both.2, if_neg same⟩
  · rw [edit?_of_refused applies]
    exact .inr ⟨fun both => applies both.1, rfl⟩

theorem Indexed.after_append (edits : List Edit) (edit : Edit) :
    Indexed.after (edits ++ [edit]) = ((Indexed.after edits).edit edit).2 := by
  simp [Indexed.after]

end SingleChanges

section HalvesInStep

theorem entries_of_names (symbols : Symbols) :
    (symbols.names.filterMap fun name => (symbols.get? name).map fun value => (name, value)) =
      symbols.entries := by
  have known (entry : Text × Value) (member : entry ∈ symbols.entries) :
      ((symbols.get? entry.1).map fun value => (entry.1, value)) = some entry := by
    rw [get?_of_mem member]
    rfl
  rw [names, List.filterMap_map]
  exact (List.filterMap_congr known).trans List.filterMap_some

/-- The two halves say together what the entries say. -/
structure InStep (table : Indexed) (symbols : Symbols) : Prop where
  order : table.order = symbols.names
  values : ∀ name, table.get? name = symbols.get? name

namespace InStep

variable {table : Indexed} {symbols : Symbols} (inStep : InStep table symbols)
include inStep

theorem contains_iff (name : Text) : table.values.contains name = true ↔ name ∈ symbols.names := by
  rw [Std.HashMap.contains_eq_isSome_getElem?, ← Symbols.contains_iff, Symbols.contains,
    ← inStep.values]
  rfl

theorem entries : table.entries = symbols.entries := by
  rw [Indexed.entries, inStep.order, ← entries_of_names]
  simp only [inStep.values]

variable (edit : Edit)

theorem edit_of_applies (applies : edit.Applies symbols.names) :
    table.edit edit =
      (true, ⟨table.values.insert edit.name edit.value, edit.extend table.order⟩) := by
  cases edit with
  | declare name value =>
      exact if_neg (fun present => applies ((inStep.contains_iff name).1 present))
  | replace name value => exact if_pos ((inStep.contains_iff name).2 applies)

theorem edit_of_refused (refused : ¬ edit.Applies symbols.names) :
    table.edit edit = (false, table) := by
  cases edit with
  | declare name value => exact if_pos ((inStep.contains_iff name).2 (not_not.1 refused))
  | replace name value =>
      exact if_neg (fun present => refused ((inStep.contains_iff name).1 present))

/-- A step of the one is a step of the other, with the same answer. -/
theorem step :
    (table.edit edit).1 = (symbols.edit? edit).isSome ∧
      InStep (table.edit edit).2 ((symbols.edit? edit).getD symbols) := by
  by_cases applies : edit.Applies symbols.names
  · obtain ⟨next, accepted, names, values⟩ := edit?_of_applies applies
    rw [inStep.edit_of_applies edit applies, accepted]
    refine ⟨rfl, ?_, ?_⟩
    · exact (congrArg edit.extend inStep.order).trans names.symm
    · intro other
      have known := inStep.values other
      simp only [Indexed.get?, Std.HashMap.getElem?_insert, beq_iff_eq] at known ⊢
      rw [Option.getD_some, values, known]
  · rw [inStep.edit_of_refused edit applies, edit?_of_refused applies]
    exact ⟨rfl, inStep⟩

end InStep

theorem inStep_after (edits : List Edit) : InStep (Indexed.after edits) (after edits) := by
  induction edits using List.reverseRecOn with
  | nil => exact ⟨rfl, fun name => Std.HashMap.getElem?_empty⟩
  | append_singleton edits edit ih =>
      rw [Indexed.after_append, after_append]
      exact (ih.step edit).2

end HalvesInStep

theorem eraseDups_concat (names : List Text) (name : Text) :
    (names ++ [name]).eraseDups =
      if name ∈ names then names.eraseDups else names.eraseDups ++ [name] := by
  rw [List.eraseDups_append]
  by_cases present : name ∈ names
  · simp [List.removeAll, present]
  · simp [List.removeAll, present, List.eraseDups_cons]

theorem declaredNames_append (edits : List Edit) (edit : Edit) :
    (edit.Applies (declaredNames edits) ∧
        declaredNames (edits ++ [edit]) = edit.extend (declaredNames edits)) ∨
      (¬ edit.Applies (declaredNames edits) ∧
        declaredNames (edits ++ [edit]) = declaredNames edits) := by
  cases edit with
  | replace name value =>
      have same : declaredNames (edits ++ [.replace name value]) = declaredNames edits := by
        rw [declaredNames, List.filterMap_append]
        exact congrArg List.eraseDups (List.append_nil _)
      by_cases present : name ∈ declaredNames edits
      · exact .inl ⟨present, same⟩
      · exact .inr ⟨present, same⟩
  | declare name value =>
      have split : declaredNames (edits ++ [.declare name value]) =
          (edits.filterMap Edit.declared? ++ [name]).eraseDups := by
        rw [declaredNames, List.filterMap_append]
        rfl
      rw [eraseDups_concat] at split
      by_cases present : name ∈ edits.filterMap Edit.declared?
      · rw [if_pos present] at split
        exact .inr ⟨not_not.2 (List.mem_eraseDups.2 present), split⟩
      · rw [if_neg present] at split
        exact .inl ⟨fun member => present (List.mem_eraseDups.1 member), split⟩

theorem names_after (edits : List Edit) : (after edits).names = declaredNames edits := by
  induction edits using List.reverseRecOn with
  | nil => rfl
  | append_singleton edits edit ih =>
      rw [after_append]
      rcases declaredNames_append edits edit with ⟨applies, extended⟩ | ⟨refused, same⟩
      · rw [← ih] at applies
        obtain ⟨next, accepted, names, _⟩ := edit?_of_applies applies
        rw [accepted, extended, ← ih]
        exact names
      · rw [← ih] at refused
        rw [edit?_of_refused refused, same]
        exact ih

end Symbols

theorem givenLast_append_iff {edits : List Edit} {edit : Edit} {name : Text} {value : Value} :
    GivenLast (edits ++ [edit]) name value ↔
      (edit.name = name ∧ edit.value = value ∧ edit.Applies (declaredNames edits)) ∨
        GivenLast edits name value ∧ ∀ other, edit ≠ .replace name other := by
  constructor
  · rintro ⟨before, given, later, shape, gives, kept⟩
    rcases List.eq_nil_or_concat later with rfl | ⟨front, last, rfl⟩
    · obtain ⟨rfl, rfl⟩ := List.append_singleton_inj.1 shape
      exact .inl gives
    · rw [List.concat_eq_append, ← List.cons_append, ← List.append_assoc] at shape
      obtain ⟨rfl, rfl⟩ := List.append_singleton_inj.1 shape
      right
      refine ⟨⟨before, given, front, rfl, gives, fun other member => ?_⟩, ?_⟩
      · exact kept other (by simp [member])
      · rintro other rfl
        exact kept other (by simp)
  · rintro (gives | ⟨⟨before, given, later, rfl, gives, kept⟩, apart⟩)
    · exact ⟨edits, edit, [], rfl, gives, fun other => List.not_mem_nil⟩
    · refine ⟨before, given, later ++ [edit], by simp, gives, ?_⟩
      intro other member
      rcases List.mem_append.1 member with inside | last
      · exact kept other inside
      · exact apart other (List.mem_singleton.1 last).symm

namespace Symbols

theorem get?_after_iff {edits : List Edit} {name : Text} {value : Value} :
    (after edits).get? name = some value ↔ GivenLast edits name value := by
  -- From the last change backwards: it decides, or it leaves the value as it was.
  induction edits using List.reverseRecOn with
  | nil => simp [GivenLast, after, get?, empty]
  | append_singleton edits edit ih =>
      have named (given : GivenLast edits name value) : name ∈ (after edits).names := by
        rw [← contains_iff, contains, ih.2 given]
        rfl
      rw [givenLast_append_iff, ← names_after]
      rcases get?_after_append edits edit name with ⟨applies, same, gives⟩ | ⟨passes, kept⟩
      · rw [gives, Option.some.injEq]
        constructor
        · intro equal
          exact .inl ⟨same, equal, applies⟩
        · rintro (⟨_, equal, _⟩ | ⟨given, apart⟩)
          · exact equal
          · -- What was given before is given again by a replacement only.
            subst same
            cases edit with
            | declare other held => exact absurd (named given) applies
            | replace other held => exact absurd rfl (apart held)
      · rw [kept, ih]
        constructor
        · intro given
          refine .inr ⟨given, ?_⟩
          rintro other rfl
          exact passes ⟨named given, rfl⟩
        · rintro (⟨same, _, applies⟩ | ⟨given, _⟩)
          · exact absurd ⟨applies, same⟩ passes
          · exact given

/-- A table that has come of these changes: its list holds the declared names and no name twice, the
map knows just these, and what is listed is each of them once, in that order, with the value it was
given last. -/
structure Indexed.Follows (edits : List Edit) (table : Indexed) : Prop where
  order : table.order = declaredNames edits
  distinct : table.order.Nodup
  keys : ∀ name, name ∈ table.order ↔ name ∈ table.values
  listed : table.entries.map Prod.fst = table.order
  given : ∀ name value, (name, value) ∈ table.entries ↔ GivenLast edits name value
  counted : table.size = table.entries.length

namespace InStep

variable {table : Indexed} {edits : List Edit} (inStep : InStep table (after edits))
include inStep

theorem follows : table.Follows edits where
  order := inStep.order.trans (names_after edits)
  distinct := inStep.order ▸ (after edits).distinct
  keys := by
    intro name
    rw [← Std.HashMap.contains_iff_mem, inStep.contains_iff, inStep.order]
  listed := by
    rw [inStep.entries, inStep.order]
    rfl
  given := by
    intro name value
    rw [inStep.entries, ← get?_after_iff]
    exact ⟨get?_of_mem, mem_of_get?⟩
  counted := by
    rw [Indexed.size, inStep.order, inStep.entries, names, List.length_map]

end InStep

/-- However a table with an index has been changed, it lists the names in the order of their
declarations with the values they were given last, and shows and answers what a table of entries
does. A declared name is not declared again, an undeclared one not replaced, and either attempt
leaves both halves alone; no replacement touches the order. -/
theorem indexed_in_insertion_order (edits : List Edit) :
    (Indexed.after edits).Follows edits ∧
    (Indexed.after edits).entries = (after edits).entries ∧
    (∀ name, (Indexed.after edits).get? name = (after edits).get? name) ∧
    (∀ edit, ((Indexed.after edits).edit edit).1 = ((after edits).edit? edit).isSome) ∧
    ∀ name value,
      (name ∈ (Indexed.after edits).order →
        (Indexed.after edits).declare name value = (false, Indexed.after edits)) ∧
      (name ∉ (Indexed.after edits).order →
        (Indexed.after edits).replace name value = (false, Indexed.after edits)) ∧
      ((Indexed.after edits).replace name value).2.order = (Indexed.after edits).order := by
  have inStep := inStep_after edits
  refine ⟨inStep.follows, inStep.entries, inStep.values, fun edit => (inStep.step edit).1, ?_⟩
  intro name value
  refine ⟨?_, ?_, Indexed.replace_order _ name value⟩
  · intro present
    rw [inStep.order] at present
    exact inStep.edit_of_refused (.declare name value) (not_not.2 present)
  · intro absent
    rw [inStep.order] at absent
    exact inStep.edit_of_refused (.replace name value) absent

-- The third and the last change are refused.
def corrections : List Edit :=
  [.declare ['x'] (.string ['a']), .declare ['y'] (.unset .real), .declare ['x'] (.string ['b']),
    .replace ['x'] (.string ['c']), .replace ['z'] (.string ['d'])]

theorem corrections_in_insertion_order :
    (Indexed.after corrections).entries = [(['x'], .string ['c']), (['y'], .unset .real)] ∧
    (Indexed.after corrections).declare ['y'] (.string []) = (false, Indexed.after corrections) ∧
    (Indexed.after corrections).replace ['z'] (.string []) =
      (false, Indexed.after corrections) := by
  obtain ⟨follows, listed, _, _, next⟩ := indexed_in_insertion_order corrections
  have order : (Indexed.after corrections).order = [['x'], ['y']] :=
    follows.order.trans (by decide)
  refine ⟨listed.trans (by decide), (next _ _).1 ?_, (next _ _).2.1 ?_⟩
  · rw [order]
    decide
  · rw [order]
    decide

end Symbols

end Pseudocode
