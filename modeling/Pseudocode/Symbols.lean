import Pseudocode.Value

/-!
Tables of named values in the order of their declaration. A name is declared once;
afterwards its value can be replaced, which keeps its place.
-/

namespace Pseudocode

structure Symbols where
  entries : List (Text × Value)
  distinct : (entries.map Prod.fst).Nodup
  deriving DecidableEq

namespace Symbols

@[ext]
theorem ext {a b : Symbols} (same : a.entries = b.entries) : a = b := by
  cases a; cases b; simp_all

def empty : Symbols := ⟨[], List.nodup_nil⟩

def names (symbols : Symbols) : List Text := symbols.entries.map Prod.fst

def size (symbols : Symbols) : Nat := symbols.entries.length

def get? (symbols : Symbols) (name : Text) : Option Value := symbols.entries.lookup name

def contains (symbols : Symbols) (name : Text) : Bool := (symbols.get? name).isSome

theorem lookup_isSome (entries : List (Text × Value)) (name : Text) :
    (entries.lookup name).isSome ↔ name ∈ entries.map Prod.fst := by
  induction entries with
  | nil => simp
  | cons entry rest ih =>
      rw [List.lookup_cons]
      by_cases same : name = entry.1
      · simp [same]
      · have other : (name == entry.1) = false := by simpa using same
        rw [other]
        simp [same]

theorem contains_iff {symbols : Symbols} {name : Text} :
    symbols.contains name = true ↔ name ∈ symbols.names := lookup_isSome _ _

/-- Adds a name at the end; refused if the name is already there. -/
def declare? (symbols : Symbols) (name : Text) (value : Value) : Option Symbols :=
  if present : name ∈ symbols.names then none
  else some
    { entries := symbols.entries ++ [(name, value)]
      distinct := by
        rw [List.map_append, List.nodup_append]
        refine ⟨symbols.distinct, by simp, ?_⟩
        intro old member added mem same
        simp only [List.map_cons, List.map_nil, List.mem_singleton] at mem
        exact present (mem ▸ same ▸ member) }

def storeAt (name : Text) (value : Value) (entry : Text × Value) : Text × Value :=
  if entry.1 = name then (name, value) else entry

theorem map_fst_storeAt (name : Text) (value : Value) (entries : List (Text × Value)) :
    (entries.map (storeAt name value)).map Prod.fst = entries.map Prod.fst := by
  rw [List.map_map]
  apply List.map_congr_left
  intro entry _
  simp only [Function.comp, storeAt]
  by_cases same : entry.1 = name
  · rw [if_pos same]
    exact same.symm
  · rw [if_neg same]

/-- The table with a new value for a name, in place; without the name it is unchanged. -/
def store (symbols : Symbols) (name : Text) (value : Value) : Symbols where
  entries := symbols.entries.map (storeAt name value)
  distinct := by rw [map_fst_storeAt]; exact symbols.distinct

def replace? (symbols : Symbols) (name : Text) (value : Value) : Option Symbols :=
  if symbols.contains name then some (symbols.store name value) else none

def declareAll (symbols : Symbols) (entries : List (Text × Value)) : Symbols :=
  entries.foldl (fun table entry => (table.declare? entry.1 entry.2).getD table) symbols

end Symbols

structure Scope where
  constants : Symbols
  «variables» : Symbols
  deriving DecidableEq

namespace Scope

def empty : Scope := ⟨.empty, .empty⟩

def contains (scope : Scope) (name : Text) : Bool :=
  scope.constants.contains name || scope.variables.contains name

def operand? (scope : Scope) (name : Text) : Option Value :=
  (scope.constants.get? name).or (scope.variables.get? name)

def shown? (scope : Scope) (name : Text) : Option Value :=
  (scope.variables.get? name).or (scope.constants.get? name)

end Scope

end Pseudocode
