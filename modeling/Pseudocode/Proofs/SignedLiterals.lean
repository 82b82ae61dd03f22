import Pseudocode.Proofs.Division
import Pseudocode.Proofs.Numerals

/-!
A number written in a declaration and the same text assigned in a statement. A declaration reads
the sign together with the number. In an expression the number is a token of its own, read
without its sign, and the sign is an operator applied to what was read. The two come to the same
except where a number needs its sign to be what it is: the lowest integer, whose digits alone are
too large, and minus zero spelled as an integer, since integers have one zero.
-/

namespace Pseudocode

def Sign.text : Option Sign → Text
  | none => []
  | some .plus => ['+']
  | some .minus => ['-']

structure SignedLiteral where
  sign : Option Sign
  numeral : Numeral
  spaces : Text
  wellFormed : numeral.WellFormed
  blank : ∀ c ∈ spaces, isSpace c = true

namespace SignedLiteral

/-- The literal as an expression. -/
def source (literal : SignedLiteral) : Text := Sign.text literal.sign ++ literal.numeral.spelling

def text (literal : SignedLiteral) : Text := literal.source ++ literal.spaces

def isNegative (literal : SignedLiteral) : Bool := literal.sign = some .minus

/-- What the sign makes of a number that was read without it. -/
def applied (literal : SignedLiteral) (number : Number) : Except Fault Number :=
  match literal.sign with
  | none => .ok number
  | some sign => number.applySign sign

section Applied

variable (literal : SignedLiteral)

theorem applied_positive (positive : literal.isNegative = false) (number : Number) :
    literal.applied number = .ok number := by
  unfold isNegative at positive
  unfold applied
  match sign : literal.sign with
  | none => rfl
  | some .plus => rfl
  | some .minus => simp [sign] at positive

theorem applied_negative (negative : literal.isNegative = true) (number : Number) :
    literal.applied number = number.applySign .minus := by
  rw [applied, of_decide_eq_true negative]

end Applied

end SignedLiteral

theorem Integer.splitSign_text_append (text : Text) : ∃ sign : Option Sign,
    text = Sign.text sign ++ (splitSign text).2 ∧
      (splitSign text).1 = decide (sign = some .minus) := by
  unfold splitSign
  split
  · exact ⟨some .minus, rfl, rfl⟩
  · exact ⟨some .plus, rfl, rfl⟩
  · exact ⟨none, rfl, rfl⟩

/-- An integer literal is a sign and digits. -/
theorem Integer.read?_literal {text : Text} {n : Integer} (found : read? text = some n) :
    ∃ (literal : SignedLiteral) (digits : Text), literal.text = text ∧
      literal.numeral = .ofDigits digits ∧ literal.spaces = [] ∧
      n.val = Binary64.signed literal.isNegative (Text.digitsValue digits) := by
  obtain ⟨sign, shape, negative⟩ := splitSign_text_append text
  simp only [read?, Option.ite_none_left_eq_some, Bool.or_eq_true, not_or, List.isEmpty_iff,
    Bool.not_eq_true', Bool.not_eq_false, List.all_eq_true] at found
  obtain ⟨⟨filled, digits⟩, value⟩ := found
  refine ⟨⟨sign, .ofDigits (splitSign text).2, [],
    Numeral.wellFormed_ofDigits digits filled, by simp⟩, (splitSign text).2, ?_, rfl, rfl, ?_⟩
  · simp only [SignedLiteral.text, SignedLiteral.source, Numeral.spelling_ofDigits,
      List.append_nil]
    exact shape.symm
  · rw [ofInt?_eq_some.1 value, negative]
    rfl

/-- A real literal is a sign, a numeral and spaces. -/
theorem Binary64.read?_literal {text : Text} {x : Binary64} (found : read? text = some x) :
    ∃ (literal : SignedLiteral) (number : Number), literal.text = text ∧
      literal.numeral.value? = some number ∧
      x = if literal.isNegative then number.toReal.neg else number.toReal := by
  obtain ⟨sign, shape, negative⟩ := Integer.splitSign_text_append text
  cases scanned : Numeral.scan (Integer.splitSign text).2 with
  | none => simp [read?, scanned] at found
  | some taken =>
      obtain ⟨numeral, rest⟩ := taken
      simp only [read?, scanned, Option.ite_none_right_eq_some] at found
      obtain ⟨spaces, read⟩ := found
      obtain ⟨number, value, rfl⟩ := Option.map_eq_some_iff.1 read
      refine ⟨⟨sign, numeral, rest, Numeral.scan_wellFormed scanned, List.all_eq_true.1 spaces⟩,
        number, ?_, value, by rw [negative]; rfl⟩
      simp only [SignedLiteral.text, SignedLiteral.source, List.append_assoc,
        Numeral.scan_spelling scanned]
      exact shape.symm

def Sign.tokens : Option Sign → List Token
  | none => []
  | some .plus => [.operator .add]
  | some .minus => [.operator .sub]

theorem lex_signed (sign : Option Sign) (text : Text) :
    lex (Sign.text sign ++ text) = (lex text).map (Sign.tokens sign ++ ·) := by
  match sign with
  | none => cases lexed : lex text <;> simp [Sign.text, Sign.tokens, lexed, Except.map]
  | some .plus => exact lex_operator .add text
  | some .minus => exact lex_operator .sub text

namespace SignedLiteral

section Evaluation

variable (literal : SignedLiteral)

theorem lex_source : lex literal.source = match literal.numeral.value? with
    | none => .error (.badToken literal.numeral.spelling)
    | some number => .ok (Sign.tokens literal.sign ++ [.atom (.number number)]) := by
  have alone := lex_numeral literal.wellFormed (show ∀ c, ([] : Text).head? = some c → _ by simp)
  rw [List.append_nil] at alone
  rw [source, lex_signed, alone]
  cases literal.numeral.value? with
  | none => rfl
  | some number => rw [lex]; rfl

theorem evaluate_beyond (scope : Scope) (beyond : literal.numeral.value? = none) :
    scope.evaluate literal.source =
      .error (.badExpression (.badToken literal.numeral.spelling)) := by
  have lexed := literal.lex_source
  rw [beyond] at lexed
  simp only [Scope.evaluate, lexed, Except.mapError, bind, Except.bind]

theorem evaluate_source (scope : Scope) {number : Number}
    (value : literal.numeral.value? = some number) :
    scope.evaluate literal.source = literal.applied number := by
  have lexed := literal.lex_source
  rw [value] at lexed
  obtain ⟨sign, numeral, spaces, wellFormed, blank⟩ := literal
  have numeric : scope.Numeric (Sign.tokens sign ++ [.atom (.number number)]) := by
    intro name member
    match sign with
    | none => simp [Sign.tokens] at member
    | some .plus => simp [Sign.tokens] at member
    | some .minus => simp [Sign.tokens] at member
  have parsed : Expr.parse some (Sign.tokens sign ++ [.atom (.number number)]) =
      .ok (Expr.withSigns sign.toList (.leaf (.number number))) := by
    match sign with
    | none => rfl
    | some .plus => rfl
    | some .minus => rfl
  rw [Scope.evaluate_of_parsed lexed numeric parsed]
  cases sign with
  | none => rfl
  | some sign => rfl

end Evaluation

end SignedLiteral

def assignmentText (name source : Text) : Text := name ++ " = ".toList ++ source ++ ";".toList

/-- No blank at either end, and no semicolon at the last place. -/
structure Enclosed (source : Text) : Prop where
  filled : source ≠ []
  snug : Text.Snug source
  ends : source.getLast? ≠ some ';'

namespace Scope

variable {scope : Scope} {name source spaces : Text} {old : Value}

theorem source_trimmed (enclosed : Enclosed source)
    (blank : ∀ c ∈ spaces, Text.isBlank c = true) :
    Text.trimEnd (Text.trimTail (· = ';')
      (Text.trim (' ' :: (source ++ spaces ++ [';'])))) = source := by
  have snug : Text.Snug (source ++ spaces ++ [';']) := by
    constructor
    · rw [List.append_assoc, List.head?_append_of_ne_nil _ enclosed.filled]
      exact enclosed.snug.starts
    · rw [List.getLast?_concat]
      rintro c ⟨⟩
      decide
  -- The semicolon after the spaces is dropped first, then the spaces; no other semicolon is.
  have last : ∀ c, (source ++ spaces).getLast? = some c → decide (c = ';') = false := by
    rintro c ends
    apply decide_eq_false
    rintro rfl
    rw [List.getLast?_append, Option.or_eq_some_iff] at ends
    rcases ends with behind | ⟨_, within⟩
    · have semicolon := blank _ (List.mem_of_getLast? behind)
      contradiction
    · exact enclosed.ends within
  rw [Text.trim_space_before snug, Text.trimTail_append_of_all _ (by simp),
    Text.trimTail_of_last last, Text.trimEnd_snug blank enclosed.snug.ends]

theorem assigned_source (stores : scope.Holds name old) (numeric : old.kind.isNumeric = true)
    (enclosed : Enclosed source) (blank : ∀ c ∈ spaces, Text.isBlank c = true) :
    scope.assigned (assignmentText name (source ++ spaces)) =
      (scope.evaluate source >>= Number.convert old.kind).map fun number =>
        scope.variables.store name (.number number) := by
  have cut : Text.cut? '=' (assignmentText name (source ++ spaces)) =
      some (name ++ [' '], ' ' :: (source ++ spaces ++ [';'])) := by
    refine Text.cut?_eq_some.2 ⟨by simp [assignmentText], ?_⟩
    have absent := Text.not_mem_of_plain stores.plain (show Text.isPlain '=' = false from rfl)
    simp [absent]
  have trimmed := Text.trim_space_after (Text.snug_of_plain stores.plain)
  have free : scope.constants.contains name = false := by
    simp [Symbols.contains, stores.free]
  simp only [assigned, cut, trimmed, free, stores.held, source_trimmed enclosed blank,
    Bool.false_eq_true, ↓reduceIte]
  cases scope.evaluate source with
  | error fault => rfl
  | ok number =>
      simp only [bind, Except.bind, Value.coerce, numeric, Bool.not_true, Bool.false_eq_true,
        ↓reduceIte, Value.toNumber]
      cases number.convert old.kind with
      | error fault => simp [Except.map]
      | ok result => simp [Except.map]

end Scope

namespace SignedLiteral

variable (literal : SignedLiteral)

theorem mem_source : ∀ c ∈ literal.source, Text.isPlain c = true ∨ c = '+' := by
  rw [source, List.forall_mem_append]
  refine ⟨?_, Numeral.mem_spelling literal.wellFormed⟩
  match literal.sign with
  | none => simp [Sign.text]
  | some .plus => simp [Sign.text]
  | some .minus => exact List.forall_mem_singleton.2 (.inl rfl)

theorem enclosed_source : Enclosed literal.source := by
  have visible : ∀ c ∈ literal.source, Text.isBlank c = false := by
    intro c member
    rcases literal.mem_source c member with plain | rfl
    · exact Text.blank_of_plain plain
    · decide
  refine ⟨?_, ⟨fun c first => visible c (List.mem_of_mem_head? first),
    fun c last => visible c (List.mem_of_getLast? last)⟩, ?_⟩
  · obtain ⟨c, others, shape, _⟩ := Numeral.spelling_starts literal.wellFormed
    simp [source, shape]
  · intro last
    rcases literal.mem_source ';' (List.mem_of_getLast? last) with plain | same <;> contradiction

end SignedLiteral

namespace Session

section Assignment

variable {session : Session} {name : Text} {old : Value} (literal : SignedLiteral)
  (stores : session.scope.Holds name old) (numeric : old.kind.isNumeric = true)
include stores numeric

theorem assign_beyond (beyond : literal.numeral.value? = none) :
    session.assign (assignmentText name literal.text) =
      (some (.badExpression (.badToken literal.numeral.spelling)), session) := by
  have assigned := Scope.assigned_source stores numeric literal.enclosed_source
    fun c member => blank_of_space (literal.blank c member)
  rw [literal.evaluate_beyond session.scope beyond] at assigned
  simp only [assign, SignedLiteral.text, assigned, bind, Except.bind, Except.map]

theorem assign_applied {number result : Number} (value : literal.numeral.value? = some number)
    (converted : literal.applied number >>= Number.convert old.kind = .ok result) :
    session.assign (assignmentText name literal.text) =
      (none, session.setVariables (session.scope.variables.store name (.number result))) := by
  have assigned := Scope.assigned_source stores numeric literal.enclosed_source
    fun c member => blank_of_space (literal.blank c member)
  rw [literal.evaluate_source session.scope value, converted] at assigned
  simp only [assign, SignedLiteral.text, assigned, Except.map]

end Assignment

end Session

namespace Integer

theorem zero_inRange : -2 ^ (63 : Nat) ≤ (0 : Int) ∧ (0 : Int) < 2 ^ (63 : Nat) := by decide

def zero : Integer := ⟨0, zero_inRange⟩

end Integer

namespace SignedLiteral

section Integers

variable {literal : SignedLiteral} {digits : Text} {n : Integer}
  (shape : literal.numeral = .ofDigits digits)
  (meant : n.val = Binary64.signed literal.isNegative (Text.digitsValue digits))
include shape meant

theorem value?_lowest (lowest : n = .lowest) :
    literal.numeral.value? = none ∧ literal.sign = some .minus := by
  have low : n.val = -2 ^ (63 : Nat) := congrArg Integer.val lowest
  rw [low, Binary64.signed] at meant
  by_cases negative : literal.isNegative = true
  · rw [if_pos negative] at meant
    have outside : ¬ (-2 ^ (63 : Nat) ≤ (Text.digitsValue digits : Int) ∧
        (Text.digitsValue digits : Int) < 2 ^ (63 : Nat)) := by omega
    refine ⟨?_, of_decide_eq_true negative⟩
    rw [shape, Numeral.value?_ofDigits, Integer.ofInt?, dif_neg outside]
    rfl
  · rw [if_neg negative] at meant
    omega

theorem applied_integer (other : n ≠ .lowest) : ∃ m : Integer,
    literal.numeral.value? = some (.integer m) ∧
      literal.applied (.integer m) = .ok (.integer n) := by
  have range := n.inRange
  have above : n.val ≠ -2 ^ (63 : Nat) := fun same => other (Integer.ext same)
  -- Of all integers in range only the lowest has digits that are out of it.
  have fits : -2 ^ (63 : Nat) ≤ (Text.digitsValue digits : Int) ∧
      (Text.digitsValue digits : Int) < 2 ^ (63 : Nat) := by
    unfold Binary64.signed at meant
    split at meant <;> omega
  refine ⟨⟨Text.digitsValue digits, fits⟩, ?_, ?_⟩
  · rw [shape, Numeral.value?_ofDigits, Integer.ofInt?, dif_pos fits]
    rfl
  · cases negative : literal.isNegative with
    | false =>
        rw [negative] at meant
        rw [literal.applied_positive negative]
        exact congrArg (Except.ok ∘ Number.integer) (Integer.ext meant.symm)
    | true =>
        rw [negative] at meant
        have negated : Integer.neg? ⟨Text.digitsValue digits, fits⟩ = some n :=
          Integer.ofInt?_eq_some.2 meant
        simp only [literal.applied_negative negative, Number.applySign, negated]
        rfl

end Integers

end SignedLiteral

namespace Binary64

theorem neg_nearest (negative : Bool) (dividend divisor : Nat) :
    (nearest negative dividend divisor).neg = nearest (!negative) dividend divisor := by
  unfold nearest
  split <;> rfl

theorem ofInt_neg {n : Int} (nonzero : n ≠ 0) : ofInt (-n) = (ofInt n).neg := by
  have opposite : decide (-n < 0) = !decide (n < 0) := by
    rw [← decide_not]
    exact decide_eq_decide.2 (by omega)
  rw [ofInt, ofInt, neg_nearest, opposite, Int.natAbs_neg]

theorem ofInt_zero : ofInt 0 = zero false := by
  rw [ofInt, Int.natAbs_zero, Nat.zero_mul]
  exact nearest_finite false (roundUnits_eq_zero (by decide)) _

end Binary64

theorem Number.toReal_zero : (Number.integer .zero).toReal = .zero false := Binary64.ofInt_zero

namespace SignedLiteral

variable {literal : SignedLiteral} {number : Number}

/-- Negating before the conversion to a real number or after it: an integer other than zero
comes to the same. -/
theorem applied_real (value : literal.numeral.value? = some number)
    (nonzero : literal.isNegative = true → ∀ m : Integer, number = .integer m → m.val ≠ 0) :
    literal.applied number >>= Number.convert .real =
      .ok (.real (if literal.isNegative then number.toReal.neg else number.toReal)) := by
  cases negative : literal.isNegative with
  | false =>
      rw [literal.applied_positive negative, ok_bind]
      rfl
  | true =>
      rw [literal.applied_negative negative]
      cases number with
      | real x => rfl
      | integer m =>
          have other := nonzero negative m rfl
          have range := m.inRange
          have natural := (Numeral.value?_integer value).2
          -- What was read without a sign is not negative, so it can be negated.
          have fits : -2 ^ (63 : Nat) ≤ -m.val ∧ -m.val < 2 ^ (63 : Nat) := by omega
          have negated : m.neg? = some ⟨-m.val, fits⟩ := Integer.ofInt?_eq_some.2 rfl
          simp only [Number.applySign, negated, Number.checked, ok_bind, Number.convert,
            Number.toReal, Binary64.ofInt_neg other, ↓reduceIte]

end SignedLiteral

/-- Minus zero spelled as an integer. -/
def IsMinusZero (text : Text) : Prop :=
  ∃ count spaces, text = '-' :: (List.replicate (count + 1) '0' ++ spaces) ∧
    ∀ c ∈ spaces, isSpace c = true

theorem Integer.splitSign_spelled {c : Char} (starts : Numeral.starts c = true)
    (sign : Option Sign) (rest : Text) :
    splitSign (Sign.text sign ++ c :: rest) = (decide (sign = some .minus), c :: rest) := by
  match sign with
  | none =>
      rw [Sign.text, List.nil_append, splitSign]
      · rfl
      · rintro _ shape
        cases shape
        contradiction
      · rintro _ shape
        cases shape
        contradiction
  | some .plus => rfl
  | some .minus => rfl

theorem SignedLiteral.read?_text (literal : SignedLiteral) {number : Number}
    (value : literal.numeral.value? = some number) :
    Binary64.read? literal.text =
      some (if literal.isNegative then number.toReal.neg else number.toReal) := by
  obtain ⟨c, others, shape, starts⟩ := Numeral.spelling_starts literal.wellFormed
  have split : Integer.splitSign literal.text =
      (literal.isNegative, literal.numeral.spelling ++ literal.spaces) := by
    rw [text, source, List.append_assoc, shape, List.cons_append]
    exact Integer.splitSign_spelled starts _ _
  have scanned : Numeral.scan (literal.numeral.spelling ++ literal.spaces) =
      some (literal.numeral, literal.spaces) :=
    Numeral.scan_append (fun c first => Numeral.continues_of_space
      (literal.blank c (List.mem_of_mem_head? first))) literal.wellFormed
  simp only [Binary64.read?, split, scanned, List.all_eq_true.2 literal.blank, value,
    Option.map_some, ↓reduceIte]

namespace SignedLiteral

/-- A negative literal that is read as the integer zero is spelled with zeros only. -/
theorem isMinusZero_text {literal : SignedLiteral} {m : Integer}
    (negative : literal.isNegative = true) (value : literal.numeral.value? = some (.integer m))
    (zero : m.val = 0) : IsMinusZero literal.text := by
  obtain ⟨shape, natural⟩ := Numeral.value?_integer value
  have zeros := Text.zeros_of_digitsValue literal.wellFormed.whole (by omega)
  obtain ⟨c, others, spelled, _⟩ := Numeral.spelling_starts literal.wellFormed
  rw [shape, Numeral.spelling_ofDigits] at spelled
  refine ⟨others.length, literal.spaces, ?_, literal.blank⟩
  rw [text, source, of_decide_eq_true negative, shape, Numeral.spelling_ofDigits, zeros, spelled]
  rfl

/-- The literal of minus zero. -/
def minusZero (count : Nat) (spaces : Text) (blank : ∀ c ∈ spaces, isSpace c = true) :
    SignedLiteral where
  sign := some .minus
  numeral := .ofDigits (List.replicate (count + 1) '0')
  spaces := spaces
  wellFormed := Numeral.wellFormed_ofDigits (Text.digits_zeros _) (by simp)
  blank := blank

theorem value?_minusZero (count : Nat) (spaces : Text) (blank : ∀ c ∈ spaces, isSpace c = true) :
    (minusZero count spaces blank).numeral.value? = some (.integer .zero) := by
  have meant : Integer.ofInt? (Text.digitsValue (List.replicate (count + 1) '0')) =
      some .zero := by
    rw [Text.digitsValue_zeros]
    exact Integer.ofInt?_eq_some.2 rfl
  rw [minusZero, Numeral.value?_ofDigits, meant]
  rfl

end SignedLiteral

namespace Session

section Literals

variable {session : Session} {name text : Text} {old : Value}
  (stores : session.scope.Holds name old)
include stores

theorem assign_integer (integral : old.kind = .integer) {n : Integer}
    (reads : Integer.read? text = some n) (other : n ≠ .lowest) :
    session.assign (assignmentText name text) =
      (none, session.setVariables (session.scope.variables.store name (.integer n))) := by
  obtain ⟨literal, digits, rfl, shape, _, meant⟩ := Integer.read?_literal reads
  obtain ⟨m, value, applied⟩ := SignedLiteral.applied_integer shape meant other
  apply assign_applied literal stores (by rw [integral]; rfl) value
  rw [applied, integral]
  rfl

theorem assign_lowest (integral : old.kind = .integer)
    (reads : Integer.read? text = some .lowest) :
    session.assign (assignmentText name text) =
      (some (.badExpression (.badToken text.tail)), session) := by
  obtain ⟨literal, digits, rfl, shape, nothing, meant⟩ := Integer.read?_literal reads
  obtain ⟨beyond, minus⟩ := SignedLiteral.value?_lowest shape meant rfl
  rw [assign_beyond literal stores (by rw [integral]; rfl) beyond, SignedLiteral.text,
    SignedLiteral.source, minus, nothing, List.append_nil]
  rfl

theorem assign_real (real : old.kind = .real) {x : Binary64}
    (reads : Binary64.read? text = some x) (other : ¬ IsMinusZero text) :
    session.assign (assignmentText name text) =
      (none, session.setVariables (session.scope.variables.store name (.real x))) := by
  obtain ⟨literal, number, rfl, value, rfl⟩ := Binary64.read?_literal reads
  apply assign_applied literal stores (by rw [real]; rfl) value
  rw [real]
  apply SignedLiteral.applied_real value
  rintro negative m rfl zero
  exact other (SignedLiteral.isMinusZero_text negative value zero)

theorem assign_minusZero (real : old.kind = .real) (minusZero : IsMinusZero text) :
    Binary64.read? text = some (.zero true) ∧
      session.assign (assignmentText name text) =
        (none, session.setVariables
          (session.scope.variables.store name (.real (.zero false)))) := by
  obtain ⟨count, spaces, rfl, blank⟩ := minusZero
  have shape : (SignedLiteral.minusZero count spaces blank).text =
      '-' :: (List.replicate (count + 1) '0' ++ spaces) := by
    rw [SignedLiteral.text, SignedLiteral.source, SignedLiteral.minusZero,
      Numeral.spelling_ofDigits]
    rfl
  have value := SignedLiteral.value?_minusZero count spaces blank
  rw [← shape]
  constructor
  · rw [SignedLiteral.read?_text _ value, Number.toReal_zero]
    rfl
  · apply assign_applied _ stores (by rw [real]; rfl) value
    rw [real]
    exact congrArg (Except.ok ∘ Number.real) Number.toReal_zero

end Literals

/-- What a literal of the variable's type means in a declaration is what assigning it stores,
with two exceptions. The lowest integer cannot be assigned as a literal: its digits alone are no
token. Minus zero, written without point and exponent, is stored as zero. -/
theorem assign_literal (session : Session) {kind : Kind} {name literal : Text} {old value : Value}
    (numeric : kind.isNumeric = true) (reads : kind.literal? literal = some value)
    (stores : session.scope.Holds name old) (typed : old.kind = kind) :
    (value ≠ .integer .lowest → ¬ (kind = .real ∧ IsMinusZero literal) →
      session.assign (assignmentText name literal) =
        (none, session.setVariables (session.scope.variables.store name value))) ∧
    (value = .integer .lowest →
      session.assign (assignmentText name literal) =
        (some (.badExpression (.badToken literal.tail)), session)) ∧
    (kind = .real → IsMinusZero literal →
      value = .real (.zero true) ∧
      session.assign (assignmentText name literal) =
        (none, session.setVariables
          (session.scope.variables.store name (.real (.zero false))))) := by
  cases kind with
  | string => contradiction
  | integer =>
      obtain ⟨n, read, rfl⟩ := Option.map_eq_some_iff.1 reads
      refine ⟨?_, ?_, nofun⟩
      · intro other _
        exact assign_integer stores typed read fun same => other (same ▸ rfl)
      · intro lowest
        cases lowest
        exact assign_lowest stores typed read
  | real =>
      obtain ⟨x, read, rfl⟩ := Option.map_eq_some_iff.1 reads
      refine ⟨?_, nofun, ?_⟩
      · intro _ other
        exact assign_real stores typed read fun minusZero => other ⟨rfl, minusZero⟩
      · intro _ minusZero
        obtain ⟨zero, stored⟩ := assign_minusZero stores typed minusZero
        rw [read] at zero
        cases zero
        exact ⟨rfl, stored⟩

/-- A session with one variable of the type. -/
def assigning (kind : Kind) : Session where
  scope := ⟨.empty, ⟨[(['x'], .unset kind)], List.nodup_singleton _⟩⟩
  input := .ofBytes []
  output := .unlimited

theorem assigning_target (kind : Kind) : (assigning kind).scope.Holds ['x'] (.unset kind) :=
  ⟨rfl, rfl, rfl⟩

/-- Minus twelve and a half. -/
theorem scaled_fraction_stored :
    Kind.real.literal? "-1.25e+1 ".toList = some (.real (.ofBits 0xC029000000000000)) ∧
      (assigning .real).assign "x = -1.25e+1 ;".toList =
        (none, (assigning .real).setVariables ((assigning .real).scope.variables.store ['x']
          (.real (.ofBits 0xC029000000000000)))) := by
  have reads : Kind.real.literal? "-1.25e+1 ".toList =
      some (.real (.ofBits 0xC029000000000000)) := by decide +kernel
  have stored := assign_literal (assigning .real) rfl reads (assigning_target .real) rfl
  refine ⟨reads, stored.1 nofun ?_⟩
  rintro ⟨_, count, spaces, shape, _⟩
  cases shape

theorem minus_needed_in_literal :
    Kind.integer.literal? "-9223372036854775808".toList = some (.integer .lowest) ∧
      (assigning .integer).assign "x = -9223372036854775808;".toList =
        (some (.badExpression (.badToken "9223372036854775808".toList)), assigning .integer) ∧
      Kind.real.literal? "-0".toList = some (.real (.zero true)) ∧
      (assigning .real).assign "x = -0;".toList =
        (none, (assigning .real).setVariables ((assigning .real).scope.variables.store ['x']
          (.real (.zero false)))) := by
  have lowest : Integer.read? "-9223372036854775808".toList = some .lowest := by decide
  have zero := assign_minusZero (assigning_target .real) rfl
    (show IsMinusZero "-0".toList from ⟨0, [], rfl, by simp⟩)
  have refused := assign_lowest (assigning_target .integer) rfl lowest
  have statement : assignmentText ['x'] "-9223372036854775808".toList =
      "x = -9223372036854775808;".toList := by decide
  have digits : "-9223372036854775808".toList.tail = "9223372036854775808".toList := by decide
  rw [statement, digits] at refused
  exact ⟨congrArg (Option.map Value.integer) lowest, refused,
    congrArg (Option.map Value.real) zero.1, zero.2⟩

end Session

end Pseudocode
