import Pseudocode.Proofs.Loading
import Pseudocode.Proofs.NumberTexts
import Pseudocode.Proofs.Quoting

/-!
Declarations written out. A named value becomes `name = literal : Type;`, an unset one
`name : Type;`, and reading the declaration gives back the name and the value. The one exception
is a string that ends with a backslash: its literal swallows the colon, and there is no
declaration left.
-/

namespace Pseudocode

theorem Number.plain_text (number : Number) : ∀ c ∈ number.text, Text.isPlain c = true := by
  cases number with
  | integer n => exact n.plain_text
  | real x => exact x.plain_text

namespace Value

/-- The literal of a value; an unset one has none. -/
def literal? : Value → Option Text
  | .number n => some n.text
  | .string text => some (Text.quote text)
  | .unset _ => none

/-- A real number that is not finite has no literal. -/
def IsFinite : Value → Prop
  | .number (.real x) => x.isFinite = true
  | _ => True

/-- The quote at the end of the value's literal is taken for its end. -/
def Closes : Value → Prop
  | .string text => text.getLast? ≠ some '\\'
  | _ => True

section Literal

variable {value : Value} {literal : Text} (finite : value.IsFinite)
  (written : value.literal? = some literal)
include finite written

theorem literal?_reads : value.kind.literal? literal = some value := by
  cases value with
  | number number =>
      cases written
      cases number with
      | integer n =>
          change (Integer.read? n.text).map Value.integer = _
          rw [Integer.read?_text]
          rfl
      | real x =>
          change (Binary64.read? x.text).map Value.real = _
          rw [Binary64.read?_text finite]
          rfl
  | string text =>
      cases written
      change (Text.unquote? (Text.quote text)).map Value.string = _
      rw [Text.unquote?_quote]
      rfl
  | unset kind => contradiction

omit finite in
/-- A literal is a number, spelled with plain characters, or a text in quotes. -/
theorem literal?_cases :
    (∀ c ∈ literal, Text.isPlain c = true) ∨
      ∃ text, value = .string text ∧ literal = Text.quote text := by
  cases value with
  | number number =>
      cases written
      exact .inl number.plain_text
  | string text =>
      cases written
      exact .inr ⟨text, rfl, rfl⟩
  | unset kind => contradiction

omit finite in
theorem literal_snug : Text.Snug literal := by
  rcases literal?_cases written with plain | ⟨text, _, rfl⟩
  · exact Text.snug_of_plain plain
  · refine ⟨?_, ?_⟩
    · rintro c ⟨⟩
      decide
    · intro c last
      rw [Text.quote, List.getLast?_concat] at last
      cases last
      decide

theorem literal_ne_nil : literal ≠ [] := by
  rintro rfl
  have read := literal?_reads finite written
  cases kind : value.kind <;> rw [kind] at read <;> contradiction

end Literal

theorem initial_literal? {value : Value} (finite : value.IsFinite) :
    value.kind.initial value.literal? = .ok value := by
  cases written : value.literal? with
  | none =>
      cases value with
      | number | string => contradiction
      | unset kind => rfl
  | some literal => simp only [Kind.initial, Kind.read, literal?_reads finite written]

end Value

namespace Declaration

def initializer : Option Text → Text
  | none => []
  | some literal => " = ".toList ++ literal

/-- What stands before the colon. -/
def declaredText (name : Text) (value : Value) : Text :=
  name ++ initializer value.literal? ++ [' ']

def typeText (kind : Kind) : Text := ' ' :: kind.name ++ [';']

def text (name : Text) (value : Value) : Text :=
  declaredText name value ++ ':' :: typeText value.kind

theorem kindName_typeText (kind : Kind) : kindName (typeText kind) = kind.name := by
  cases kind <;> decide

/-- The characters before the colon, outside of quotes. -/
def isFiller (c : Char) : Bool := Text.isPlain c || c = ' ' || c = '='

theorem filler_of_plain {text : Text} (plain : ∀ c ∈ text, Text.isPlain c = true) :
    ∀ c ∈ text, isFiller c = true := by
  intro c member
  simp [isFiller, plain c member]

theorem not_mem_of_filler {text : Text} {d : Char} (filler : ∀ c ∈ text, isFiller c = true)
    (special : isFiller d = false) : d ∉ text := by
  intro member
  rw [filler d member] at special
  contradiction

theorem oneLine_initializer {value : Value}
    (oneLine : ∀ inner, value = .string inner → '\n' ∉ inner) :
    '\n' ∉ initializer value.literal? := by
  cases written : value.literal? with
  | none => exact List.not_mem_nil
  | some literal =>
      have sign : '\n' ∉ " = ".toList := by decide
      rw [initializer, List.mem_append, not_or]
      refine ⟨sign, ?_⟩
      rcases Value.literal?_cases written with plain | ⟨inner, same, rfl⟩
      · exact Text.not_mem_of_plain plain rfl
      · intro member
        have escaped : '\n' ∈ Text.escape inner := by simpa [Text.quote] using member
        rcases Text.mem_of_escape escaped with held | backslash
        · exact oneLine inner same held
        · contradiction

theorem getLast?_text (name : Text) (value : Value) : (text name value).getLast? = some ';' := by
  have shape : text name value =
      (declaredText name value ++ ':' :: ' ' :: value.kind.name) ++ [';'] := by
    simp [text, typeText]
  rw [shape, List.getLast?_concat]

theorem colon_mem_text (name : Text) (value : Value) : ':' ∈ text name value := by
  simp [text]

section Named

variable {name : Text} {value : Value} (identifier : Text.isIdentifier name = true)
include identifier

theorem splitName_declaredText (finite : value.IsFinite) :
    splitName (declaredText name value) = .ok (name, value.literal?) := by
  have plain := Text.plain_of_identifier identifier
  have snug := Text.snug_of_plain plain
  have equals : '=' ∉ name ++ [' '] := by
    simp [Text.not_mem_of_plain plain (show Text.isPlain '=' = false from rfl)]
  unfold splitName declaredText
  cases written : value.literal? with
  | none =>
      rw [initializer, List.append_nil, Text.cut?_of_absent equals]
      simp only [Text.trim_space_after snug]
  | some literal =>
      have cut : Text.cut? '=' (name ++ initializer (some literal) ++ [' ']) =
          some (name ++ [' '], ' ' :: (literal ++ [' '])) :=
        Text.cut?_eq_some.2 ⟨by simp [initializer], equals⟩
      have trimmed := Text.trim_space_around (Value.literal_snug written)
      have shown : literal.isEmpty = false := by
        simpa using Value.literal_ne_nil finite written
      simp only [cut, Text.trim_space_after snug, trimmed, shown, Bool.false_eq_true, ↓reduceIte]

section Scanned

variable {stop : Text → Bool} {target : Char} (only : Text.AcceptsOnly target stop)
  (special : isFiller target = false)
include only special

omit identifier in
theorem passes_filler {text : Text} (filler : ∀ c ∈ text, isFiller c = true) :
    Text.Passes stop text :=
  Text.passes_of_absent only (not_mem_of_filler filler rfl) (not_mem_of_filler filler special)

theorem passes_named : Text.Passes stop (name ++ " = ".toList) := by
  have plain := Text.plain_of_identifier identifier
  exact (passes_filler only special (filler_of_plain plain)).append
    (passes_filler only special (List.all_eq_true.1 (by decide)))

theorem passes_declaredText (closes : value.Closes) :
    Text.Passes stop (declaredText name value) := by
  have space : Text.Passes stop [' '] :=
    passes_filler only special (List.all_eq_true.1 (by decide))
  refine Text.Passes.append ?_ space
  cases written : value.literal? with
  | none =>
      rw [initializer, List.append_nil]
      exact passes_filler only special (filler_of_plain (Text.plain_of_identifier identifier))
  | some literal =>
      rw [initializer, ← List.append_assoc]
      refine (passes_named identifier only special).append ?_
      rcases Value.literal?_cases written with plain | ⟨text, rfl, rfl⟩
      · exact passes_filler only special (filler_of_plain plain)
      · exact Text.passes_literal closes

theorem scanOpen_unclosed {text : Text} (ends : text.getLast? = some '\\') :
    Text.scanOpen stop false (Declaration.text name (.string text)) = none := by
  have shape : Declaration.text name (.string text) =
      name ++ " = ".toList ++ (Text.quote text ++ ' ' :: ':' :: typeText .string) := by
    change name ++ (" = ".toList ++ Text.quote text) ++ [' '] ++ ':' :: typeText .string = _
    simp only [List.append_assoc, List.singleton_append]
  rw [shape, passes_named identifier only special, Text.scanOpen_literal, decide_eq_true ends,
    Text.scanOpen_unclosed (by decide)]
  rfl

end Scanned

theorem cutOpen?_text (closes : value.Closes) :
    Text.cutOpen? ':' (text name value) = some (declaredText name value, typeText value.kind) := by
  have passes := passes_declaredText identifier (Text.acceptsOnly_head ':') rfl closes
  rw [Text.cutOpen?, text, passes, Text.scanOpen_accepted (by decide) (by simp)]
  simp [Text.extend]

theorem parse_text (finite : value.IsFinite) (closes : value.Closes) :
    parse (text name value) = .ok ⟨name, value.kind, value⟩ := by
  simp [parse, cutOpen?_text identifier closes, splitName_declaredText identifier finite,
    bind, Except.bind, identifier, kindName_typeText, Kind.ofName?_name,
    Value.initial_literal? finite]

theorem closes_of_parse {declaration : Declaration}
    (parsed : parse (text name value) = .ok declaration) : value.Closes := by
  cases value with
  | number | unset => trivial
  | string inner =>
      intro ends
      have uncut : Text.cutOpen? ':' (text name (.string inner)) = none := by
        rw [Text.cutOpen?, scanOpen_unclosed identifier (Text.acceptsOnly_head ':') rfl ends]
        rfl
      rw [parse, uncut] at parsed
      contradiction

/-- A declaration holds no comment, whatever its string is. -/
theorem uncommented_text :
    Text.scanOpen Text.opensComment false (text name value) = none := by
  by_cases closes : value.Closes
  · have front := passes_declaredText identifier Text.acceptsOnly_slash rfl closes
    have back : Text.Passes Text.opensComment
        (':' :: typeText value.kind) := by
      apply Text.passes_of_absent Text.acceptsOnly_slash <;> cases value.kind <;> decide
    exact (front.append back).finds_none
  · cases value with
    | number | unset => exact absurd trivial closes
    | string inner =>
        exact scanOpen_unclosed identifier Text.acceptsOnly_slash rfl
          (Decidable.not_not.1 closes)

theorem head_text : (text name value).head? ≠ some ' ' := by
  have plain := Text.plain_of_identifier identifier
  cases name with
  | nil => contradiction
  | cons c rest =>
      have other : c ≠ ' ' := Text.ne_of_plain (plain c List.mem_cons_self) rfl
      simpa [text, declaredText] using other

/-- A line feed in a declaration comes from its string. -/
theorem oneLine_text (oneLine : ∀ inner, value = .string inner → '\n' ∉ inner) :
    '\n' ∉ text name value := by
  have nameLine : '\n' ∉ name := Text.not_mem_of_plain (Text.plain_of_identifier identifier) rfl
  have typeLine : '\n' ∉ ':' :: typeText value.kind := by cases value.kind <;> decide
  simp [text, declaredText, nameLine, typeLine, oneLine_initializer oneLine]

end Named

theorem literal_of_string {kind : Kind} {literal : Option Text} {inner : Text}
    (made : kind.initial literal = .ok (.string inner)) :
    ∃ spelling, literal = some spelling ∧ Text.unquote? spelling = some inner := by
  rcases Kind.initial_ok made with ⟨_, same⟩ | ⟨spelling, shape, found⟩
  · cases same
  · refine ⟨spelling, shape, ?_⟩
    cases kind with
    | integer | real =>
        obtain ⟨_, _, same⟩ := Option.map_eq_some_iff.1 found
        cases same
    | string =>
        obtain ⟨_, read, same⟩ := Option.map_eq_some_iff.1 found
        cases same
        exact read

theorem mem_of_splitName {declared name spelling : Text}
    (split : splitName declared = .ok (name, some spelling)) :
    ∀ c ∈ spelling, c ∈ declared := by
  unfold splitName at split
  cases cut : Text.cut? '=' declared with
  | none => simp [cut] at split
  | some sides =>
      obtain ⟨left, right⟩ := sides
      simp only [cut] at split
      by_cases blank : (Text.trim right).isEmpty = true
      · rw [if_pos blank] at split
        contradiction
      · rw [if_neg blank] at split
        cases split
        intro c member
        rw [(Text.cut?_eq_some.1 cut).1]
        simp [Text.mem_of_trim member]

theorem mem_of_parse {text inner : Text} {declaration : Declaration}
    (parsed : parse text = .ok declaration) (holds : declaration.value = .string inner) :
    ∀ c ∈ inner, c ∈ text := by
  obtain ⟨declared, typePart, literal, cut, split, _, _, made⟩ := parse_ok parsed
  rw [holds] at made
  obtain ⟨spelling, rfl, read⟩ := literal_of_string made
  intro c member
  apply Text.mem_of_cutOpen? cut
  apply mem_of_splitName split
  exact Text.mem_of_unquote? read c member

end Declaration

namespace Scope

theorem contains_eq_false_iff {scope : Scope} {name : Text} :
    scope.contains name = false ↔ ∀ part, name ∉ (scope.table part).names := by
  rw [← Bool.not_eq_true, contains, Bool.or_eq_true, not_or, Symbols.contains_iff,
    Symbols.contains_iff]
  constructor
  · rintro ⟨first, second⟩ part
    cases part with
    | constants => exact first
    | «variables» => exact second
  · intro absent
    exact ⟨absent .constants, absent .variables⟩

theorem entries_empty (part : Section) : (empty.table part).entries = [] := by
  cases part <;> rfl

theorem ext_entries {left right : Scope}
    (same : ∀ part, (left.table part).entries = (right.table part).entries) : left = right := by
  have constants : left.constants = right.constants := Symbols.ext (same .constants)
  have others : left.variables = right.variables := Symbols.ext (same .variables)
  cases left
  cases right
  cases constants
  cases others
  rfl

theorem add_names {scope : Scope} {name : Text} {value : Value}
    (absent : scope.contains name = false) (owner part : Section) :
    ((scope.add owner name value).table part).names =
      (scope.table part).names ++ if owner = part then [name] else [] := by
  unfold Symbols.names
  rw [add_entries absent, List.map_append]
  split <;> rfl

theorem declare_text {scope : Scope} {name : Text} {value : Value}
    (identifier : Text.isIdentifier name = true) (finite : value.IsFinite)
    (closes : value.Closes) (absent : scope.contains name = false) (part : Section) :
    scope.declare part (Declaration.text name value) = .ok (scope.add part name value) := by
  simp [declare, Declaration.parse_text identifier finite closes, bind, Except.bind, absent]

/-- Names that are new and all different are declared one after the other. -/
theorem declareAll_texts {part : Section} {entries : List (Text × Value)} {lines : List Line}
    (texts : lines.map Line.text = entries.map fun entry => Declaration.text entry.1 entry.2)
    (named : ∀ entry ∈ entries, Text.isIdentifier entry.1 = true)
    (finite : ∀ entry ∈ entries, entry.2.IsFinite) (closes : ∀ entry ∈ entries, entry.2.Closes)
    (distinct : (entries.map Prod.fst).Nodup) (scope : Scope)
    (absent : ∀ entry ∈ entries, scope.contains entry.1 = false) (rest : List (Section × Line)) :
    ∃ next : Scope, scope.declareAll (lines.map (part, ·) ++ rest) = next.declareAll rest ∧
      ∀ other, (next.table other).entries =
        (scope.table other).entries ++ if part = other then entries else [] := by
  induction entries generalizing lines scope with
  | nil =>
      rw [List.map_nil, List.map_eq_nil_iff] at texts
      subst texts
      exact ⟨scope, rfl, by simp⟩
  | cons entry others ih =>
      obtain ⟨line, later, rfl, first, following⟩ := List.map_eq_cons_iff.1 texts
      rw [List.forall_mem_cons] at named finite closes absent
      rw [List.map_cons, List.nodup_cons] at distinct
      have declared := declare_text named.1 finite.1 closes.1 absent.1 part
      -- The names still to come are new to the larger scope as well.
      have stillAbsent : ∀ other ∈ others,
          (scope.add part entry.1 entry.2).contains other.1 = false := by
        intro other member
        have old := contains_eq_false_iff.1 (absent.2 other member)
        have different : other.1 ≠ entry.1 := fun same =>
          distinct.1 (same ▸ List.mem_map_of_mem member)
        rw [contains_eq_false_iff]
        intro owner
        rw [add_names absent.1]
        split <;> simp [old owner, different]
      obtain ⟨next, ran, entries⟩ := ih following named.2 finite.2 closes.2 distinct.2 _ stillAbsent
      refine ⟨next, ?_, ?_⟩
      · simp only [List.map_cons, List.cons_append, declareAll, first, declared]
        exact ran
      · intro other
        rw [entries, add_entries absent.1]
        split <;> simp

theorem parses_of_declareAll {scope next : Scope} {declarations : List (Section × Line)}
    (declared : scope.declareAll declarations = (next, none)) :
    ∀ entry ∈ declarations, ∃ declaration, Declaration.parse entry.2.text = .ok declaration := by
  induction declarations generalizing scope with
  | nil => simp
  | cons entry rest ih =>
      obtain ⟨declaration, parsed, _, later⟩ := declareAll_cons_ok declared
      exact List.forall_mem_cons.2 ⟨⟨declaration, parsed⟩, ih later⟩

theorem declared_of_entry {scope next : Scope} {declarations : List (Section × Line)}
    (declared : scope.declareAll declarations = (next, none)) {part : Section}
    {entry : Text × Value} (member : entry ∈ (next.table part).entries) :
    entry ∈ (scope.table part).entries ∨
      ∃ source ∈ declarations, ∃ declaration,
        Declaration.parse source.2.text = .ok declaration ∧ declaration.value = entry.2 := by
  rw [declareAll_adds declared, List.mem_append] at member
  refine member.imp_right fun added => ?_
  obtain ⟨source, listed, new⟩ := List.mem_flatMap.1 added
  unfold addedEntries at new
  cases parsed : Declaration.parse source.2.text with
  | error cause => simp [parsed] at new
  | ok declaration =>
      simp only [parsed, List.mem_ite_nil_right, List.mem_singleton] at new
      exact ⟨source, listed, declaration, parsed, by rw [new.2]⟩

end Scope

end Pseudocode
