import Pseudocode.Proofs.Descent

/-!
The grammar of expressions, and the parser against it.

    sum     := product (("+" | "-") product)*
    product := signed (("*" | "/") signed)*
    signed  := ("+" | "-") signed | primary
    primary := operand | "(" sum ")"

`Spells` is this grammar as a relation between tokens and trees. A repetition that groups to
the left is a rule with itself on the left. The parser reads one token at a time and never
goes back, so it is compared with the grammar through its states: a derivation drives it from
one state to another, and every state it reaches accounts for the tokens read so far. What
holds of this parser holds of the recursive one, which has the same trees and causes.
-/

namespace Pseudocode.Expr

variable {α : Type}

/-- The rules of the grammar, the loosest first. -/
inductive Rank where
  | sum
  | product
  | signed
  | primary
  deriving DecidableEq

inductive Spells (leaf : Atom → Option α) : Rank → List Token → Expr α → Prop where
  | operand (atom : Atom) (value : α) (known : leaf atom = some value) :
      Spells leaf .primary [.atom atom] (.leaf value)
  | group (tokens : List Token) (expr : Expr α) (inside : Spells leaf .sum tokens expr) :
      Spells leaf .primary (.opening :: (tokens ++ [.closing])) expr
  | primary (tokens : List Token) (expr : Expr α) (inside : Spells leaf .primary tokens expr) :
      Spells leaf .signed tokens expr
  | sign (op : Operator) (sign : Sign) (tokens : List Token) (expr : Expr α)
      (signs : op.sign? = some sign) (inside : Spells leaf .signed tokens expr) :
      Spells leaf .signed (.operator op :: tokens) (.signed sign expr)
  | signed (tokens : List Token) (expr : Expr α) (inside : Spells leaf .signed tokens expr) :
      Spells leaf .product tokens expr
  | multiply (op : Operator) (front back : List Token) (left right : Expr α)
      (tight : op.isAdditive = false) (before : Spells leaf .product front left)
      (after : Spells leaf .signed back right) :
      Spells leaf .product (front ++ .operator op :: back) (.binary left op right)
  | product (tokens : List Token) (expr : Expr α) (inside : Spells leaf .product tokens expr) :
      Spells leaf .sum tokens expr
  | add (op : Operator) (front back : List Token) (left right : Expr α)
      (loose : op.isAdditive = true) (before : Spells leaf .sum front left)
      (after : Spells leaf .product back right) :
      Spells leaf .sum (front ++ .operator op :: back) (.binary left op right)

section Completeness

variable (leaf : Atom → Option α)

/-- What the parser does on reading tokens of some rank, whatever follows them. -/
def Reads : Rank → List Token → Expr α → Prop
  | .sum, tokens, expr => ∀ outer rest, ∃ sum term, join sum term = expr ∧
      (Parsing.operand .start outer).run leaf (tokens ++ rest) =
        (Parsing.operator sum term outer).run leaf rest
  | .product, tokens, expr => ∀ sum outer rest,
      (Parsing.operand ⟨sum, none, []⟩ outer).run leaf (tokens ++ rest) =
        (Parsing.operator sum expr outer).run leaf rest
  | .signed, tokens, expr | .primary, tokens, expr => ∀ level outer rest,
      (Parsing.operand level outer).run leaf (tokens ++ rest) =
        (level.supply outer expr).run leaf rest

theorem reads_group (tokens : List Token) (expr : Expr α) (inside : Reads leaf .sum tokens expr) :
    Reads leaf .primary (.opening :: (tokens ++ [.closing])) expr := by
  intro level outer rest
  obtain ⟨sum, term, joined, inner⟩ := inside (level :: outer) (.closing :: rest)
  simp only [List.cons_append, List.append_assoc, List.nil_append, Parsing.run, Parsing.step]
  rw [inner]
  simp [Parsing.run, Parsing.step, joined]

theorem reads_sign (op : Operator) (sign : Sign) (tokens : List Token) (expr : Expr α)
    (signs : op.sign? = some sign) (inside : Reads leaf .signed tokens expr) :
    Reads leaf .signed (.operator op :: tokens) (.signed sign expr) := by
  intro level outer rest
  simp only [List.cons_append, Parsing.run, Parsing.step, signs]
  exact inside { level with signs := sign :: level.signs } outer rest

theorem reads_multiply (op : Operator) (front back : List Token) (left right : Expr α)
    (tight : op.isAdditive = false) (before : Reads leaf .product front left)
    (after : Reads leaf .signed back right) :
    Reads leaf .product (front ++ .operator op :: back) (.binary left op right) := by
  intro sum outer rest
  rw [List.append_assoc, before sum outer]
  simp only [List.cons_append, Parsing.run, Parsing.step, tight]
  exact after ⟨sum, some (left, op), []⟩ outer rest

theorem reads_add (op : Operator) (front back : List Token) (left right : Expr α)
    (loose : op.isAdditive = true) (before : Reads leaf .sum front left)
    (after : Reads leaf .product back right) :
    Reads leaf .sum (front ++ .operator op :: back) (.binary left op right) := by
  intro outer rest
  obtain ⟨sum, term, joined, first⟩ := before outer (.operator op :: (back ++ rest))
  refine ⟨some (left, op), right, rfl, ?_⟩
  rw [List.append_assoc, List.cons_append, first]
  simp only [Parsing.run, Parsing.step, loose, ↓reduceIte, joined]
  exact after (some (left, op)) outer rest

theorem spells_reads {rank : Rank} {tokens : List Token} {expr : Expr α}
    (spelled : Spells leaf rank tokens expr) : Reads leaf rank tokens expr := by
  induction spelled with
  | operand atom value known =>
      intro level outer rest
      simp [Parsing.run, Parsing.step, known]
  | group tokens expr _ ih => exact reads_group leaf tokens expr ih
  | primary _ _ _ ih => exact ih
  | sign op sign tokens expr signs _ ih => exact reads_sign leaf op sign tokens expr signs ih
  | signed _ _ _ ih =>
      intro sum outer rest
      exact ih ⟨sum, none, []⟩ outer rest
  | multiply op front back left right tight _ _ before after =>
      exact reads_multiply leaf op front back left right tight before after
  | product _ expr _ ih =>
      intro outer rest
      exact ⟨none, expr, rfl, ih none outer rest⟩
  | add op front back left right loose _ _ before after =>
      exact reads_add leaf op front back left right loose before after

end Completeness

section Soundness

variable (leaf : Atom → Option α)

/-- The tokens behind an operand and an operator that wait for what comes to their right. -/
def Waiting (rank : Rank) : Option (Expr α × Operator) → List Token → Prop
  | none, tokens => tokens = []
  | some (left, op), tokens => ∃ front, tokens = front ++ [.operator op] ∧
      Spells leaf rank front left ∧ op.isAdditive = (rank == .sum)

/-- The tokens behind signs, of which the last read comes first. -/
def SignTokens : List Sign → List Token → Prop
  | [], tokens => tokens = []
  | sign :: earlier, tokens => ∃ front op, tokens = front ++ [.operator op] ∧
      op.sign? = some sign ∧ SignTokens earlier front

def Level.Accounts (level : Level α) (tokens : List Token) : Prop :=
  ∃ sum product signs, tokens = sum ++ product ++ signs ∧
    Waiting leaf .sum level.sum sum ∧ Waiting leaf .product level.product product ∧
    SignTokens level.signs signs

def OuterAccounts : List (Level α) → List Token → Prop
  | [], tokens => tokens = []
  | level :: outer, tokens => ∃ before own, tokens = before ++ own ++ [.opening] ∧
      OuterAccounts outer before ∧ level.Accounts leaf own

/-- The tokens that lead the parser to a state. -/
def Parsing.Accounts : Parsing α → List Token → Prop
  | .operand level outer, tokens => ∃ before own, tokens = before ++ own ∧
      OuterAccounts leaf outer before ∧ level.Accounts leaf own
  | .operator sum term outer, tokens => ∃ before front back, tokens = before ++ front ++ back ∧
      OuterAccounts leaf outer before ∧ Waiting leaf .sum sum front ∧
      Spells leaf .product back term

theorem signs_spell (signs : List Sign) (front tokens : List Token) (expr : Expr α)
    (written : SignTokens signs front) (inside : Spells leaf .signed tokens expr) :
    Spells leaf .signed (front ++ tokens) (withSigns signs expr) := by
  induction signs generalizing front tokens expr with
  | nil =>
      cases written
      exact inside
  | cons sign earlier ih =>
      obtain ⟨before, op, rfl, signs, rest⟩ := written
      have inner := ih before (.operator op :: tokens) (.signed sign expr) rest
        (.sign op sign tokens expr signs inside)
      simpa [withSigns] using inner

theorem product_spells (product : Option (Expr α × Operator)) (front tokens : List Token)
    (expr : Expr α) (waiting : Waiting leaf .product product front)
    (inside : Spells leaf .signed tokens expr) :
    Spells leaf .product (front ++ tokens) (join product expr) := by
  cases product with
  | none =>
      cases waiting
      exact .signed tokens expr inside
  | some pair =>
      obtain ⟨before, rfl, left, tight⟩ := waiting
      simpa [join] using Spells.multiply pair.2 before tokens pair.1 expr tight left inside

theorem sum_spells (sum : Option (Expr α × Operator)) (front tokens : List Token)
    (expr : Expr α) (waiting : Waiting leaf .sum sum front)
    (inside : Spells leaf .product tokens expr) :
    Spells leaf .sum (front ++ tokens) (join sum expr) := by
  cases sum with
  | none =>
      cases waiting
      exact .product tokens expr inside
  | some pair =>
      obtain ⟨before, rfl, left, loose⟩ := waiting
      simpa [join] using Spells.add pair.2 before tokens pair.1 expr loose left inside

theorem supply_accounts (level : Level α) (outer : List (Level α))
    (before own tokens : List Token) (expr : Expr α)
    (enclosing : OuterAccounts leaf outer before) (unfinished : level.Accounts leaf own)
    (inside : Spells leaf .signed tokens expr) :
    (level.supply outer expr).Accounts leaf (before ++ own ++ tokens) := by
  obtain ⟨sum, product, signs, rfl, waitingSum, waitingProduct, written⟩ := unfinished
  refine ⟨before, sum, product ++ (signs ++ tokens), by simp, enclosing, waitingSum, ?_⟩
  exact product_spells leaf _ _ _ _ waitingProduct (signs_spell leaf _ _ _ _ written inside)

theorem operand_step_accounts (level : Level α) (outer : List (Level α)) (next : Parsing α)
    (tokens : List Token) (token : Token)
    (accounted : (Parsing.operand level outer).Accounts leaf tokens)
    (stepped : (Parsing.operand level outer).step leaf token = .ok next) :
    next.Accounts leaf (tokens ++ [token]) := by
  obtain ⟨before, own, rfl, enclosing, unfinished⟩ := accounted
  cases token with
  | atom atom =>
      cases known : leaf atom with
      | none => simp [Parsing.step, known] at stepped
      | some value =>
          simp only [Parsing.step, known] at stepped
          cases stepped
          exact supply_accounts leaf level outer before own _ _ enclosing unfinished
            (.primary _ _ (.operand atom value known))
  | operator op =>
      cases signs : op.sign? with
      | none => simp [Parsing.step, signs] at stepped
      | some sign =>
          simp only [Parsing.step, signs] at stepped
          cases stepped
          obtain ⟨sum, product, earlier, rfl, waitingSum, waitingProduct, written⟩ := unfinished
          exact ⟨before, _, by simp, enclosing, sum, product, earlier ++ [.operator op],
            List.append_assoc (sum ++ product) earlier [.operator op], waitingSum, waitingProduct,
            earlier, op, rfl, signs, written⟩
  | opening =>
      cases stepped
      exact ⟨before ++ own ++ [.opening], [], by simp, ⟨before, own, rfl, enclosing, unfinished⟩,
        [], [], [], rfl, rfl, rfl, rfl⟩
  | closing => cases stepped

theorem operator_step_accounts (sum : Option (Expr α × Operator)) (term : Expr α)
    (outer : List (Level α)) (next : Parsing α) (tokens : List Token) (token : Token)
    (accounted : (Parsing.operator sum term outer).Accounts leaf tokens)
    (stepped : (Parsing.operator sum term outer).step leaf token = .ok next) :
    next.Accounts leaf (tokens ++ [token]) := by
  obtain ⟨before, front, back, rfl, enclosing, waiting, inside⟩ := accounted
  cases token with
  | atom atom => cases outer <;> cases stepped
  | opening => cases outer <;> cases stepped
  | operator op =>
      cases loose : op.isAdditive with
      | true =>
          simp only [Parsing.step, loose] at stepped
          cases stepped
          exact ⟨before, front ++ back ++ [.operator op], by simp, enclosing,
            front ++ back ++ [.operator op], [], [], by simp,
            ⟨front ++ back, rfl, sum_spells leaf _ _ _ _ waiting inside, loose⟩, rfl, rfl⟩
      | false =>
          simp only [Parsing.step, loose] at stepped
          cases stepped
          exact ⟨before, front ++ back ++ [.operator op], by simp, enclosing,
            front, back ++ [.operator op], [], by simp, waiting,
            ⟨back, rfl, inside, loose⟩, rfl⟩
  | closing =>
      cases outer with
      | nil => cases stepped
      | cons level outer =>
          cases stepped
          obtain ⟨first, own, rfl, enclosing, unfinished⟩ := enclosing
          have grouped := supply_accounts leaf level outer first own _ _ enclosing unfinished
            (.primary _ _ (.group _ _ (sum_spells leaf _ _ _ _ waiting inside)))
          simpa using grouped

theorem step_accounts (state next : Parsing α) (tokens : List Token) (token : Token)
    (accounted : state.Accounts leaf tokens) (stepped : state.step leaf token = .ok next) :
    next.Accounts leaf (tokens ++ [token]) := by
  cases state with
  | operand level outer =>
      exact operand_step_accounts leaf level outer next tokens token accounted stepped
  | operator sum term outer =>
      exact operator_step_accounts leaf sum term outer next tokens token accounted stepped

theorem run_spells (state : Parsing α) (before tokens : List Token) (expr : Expr α)
    (accounted : state.Accounts leaf before) (parsed : state.run leaf tokens = .ok expr) :
    Spells leaf .sum (before ++ tokens) expr := by
  induction tokens generalizing state before with
  | nil =>
      cases state with
      | operand level outer => cases parsed
      | operator sum term outer =>
          cases outer with
          | cons level outer => cases parsed
          | nil =>
              cases parsed
              obtain ⟨_, front, back, rfl, rfl, waiting, inside⟩ := accounted
              simpa using sum_spells leaf _ _ _ _ waiting inside
  | cons token rest ih =>
      cases stepped : state.step leaf token with
      | error cause => simp [Parsing.run, stepped] at parsed
      | ok next =>
          simp only [Parsing.run, stepped] at parsed
          have later := ih next (before ++ [token])
            (step_accounts leaf state next before token accounted stepped) parsed
          simpa using later

end Soundness

section Parse

variable (leaf : Atom → Option α)

theorem spells_nonempty {rank : Rank} {tokens : List Token} {expr : Expr α}
    (spelled : Spells leaf rank tokens expr) : tokens ≠ [] := by
  induction spelled with
  | operand | group | sign => simp
  | primary _ _ _ ih | signed _ _ _ ih | product _ _ _ ih => exact ih
  | multiply | add => simp

theorem parse_of_spells {tokens : List Token} {expr : Expr α}
    (spelled : Spells leaf .sum tokens expr) : parse leaf tokens = .ok expr := by
  obtain ⟨sum, term, joined, run⟩ := spells_reads leaf spelled [] []
  rw [List.append_nil] at run
  simp only [parse, List.isEmpty_eq_false_iff.2 (spells_nonempty leaf spelled)]
  rw [← joined]
  exact run

theorem spells_of_parse {tokens : List Token} {expr : Expr α}
    (parsed : parse leaf tokens = .ok expr) : Spells leaf .sum tokens expr := by
  unfold parse at parsed
  split at parsed
  · contradiction
  · have initial : (Parsing.operand Level.start []).Accounts leaf [] :=
      ⟨[], [], rfl, rfl, [], [], [], rfl, rfl, rfl, rfl⟩
    simpa using run_spells leaf _ [] tokens expr initial parsed

/-- The parser gives a tree exactly when the grammar does, and then the same one. -/
theorem parse_ok_iff (tokens : List Token) (expr : Expr α) :
    parse leaf tokens = .ok expr ↔ Spells leaf .sum tokens expr :=
  ⟨spells_of_parse leaf, parse_of_spells leaf⟩

/-- Nothing but an operator can follow a whole expression. -/
theorem parse_trailing {front : List Token} {expr : Expr α} {token : Token}
    (spelled : Spells leaf .sum front expr) (other : ∀ op, token ≠ .operator op)
    (rest : List Token) : parse leaf (front ++ token :: rest) = .error (.trailing token) := by
  obtain ⟨sum, term, _, run⟩ := spells_reads leaf spelled [] (token :: rest)
  have filled : (front ++ token :: rest).isEmpty = false := by simp
  simp only [parse, filled, Bool.false_eq_true, ↓reduceIte]
  rw [run]
  cases token with
  | operator op => exact absurd rfl (other op)
  | atom | opening | closing => rfl

theorem spells_atoms {rank : Rank} {tokens : List Token} {expr : Expr α}
    (spelled : Spells leaf rank tokens expr) (atom : Atom) (member : .atom atom ∈ tokens) :
    (leaf atom).isSome = true := by
  induction spelled with
  | operand other value known =>
      simp only [List.mem_singleton, Token.atom.injEq] at member
      simp [member, known]
  | group _ _ _ ih => exact ih (by simpa using member)
  | primary _ _ _ ih | signed _ _ _ ih | product _ _ _ ih => exact ih member
  | sign _ _ _ _ _ _ ih => exact ih (by simpa using member)
  | multiply _ _ _ _ _ _ _ _ before after | add _ _ _ _ _ _ _ _ before after =>
      simp only [List.mem_append, List.mem_cons, reduceCtorEq, false_or] at member
      rcases member with inFront | inBack
      · exact before inFront
      · exact after inBack

/-- How deep in parentheses a text ends, started at some depth; `none` if a parenthesis
closes that was never opened. -/
def depthAfter : Nat → List Token → Option Nat
  | depth, [] => some depth
  | depth, .opening :: rest => depthAfter (depth + 1) rest
  | 0, .closing :: _ => none
  | depth + 1, .closing :: rest => depthAfter depth rest
  | depth, .atom _ :: rest | depth, .operator _ :: rest => depthAfter depth rest

theorem spells_balanced {rank : Rank} {tokens : List Token} {expr : Expr α}
    (spelled : Spells leaf rank tokens expr) (depth : Nat) (rest : List Token) :
    depthAfter depth (tokens ++ rest) = depthAfter depth rest := by
  induction spelled generalizing depth rest with
  | operand => simp [depthAfter]
  | group tokens _ _ ih =>
      simp only [List.cons_append, List.append_assoc, List.nil_append, depthAfter, ih]
  | primary _ _ _ ih | signed _ _ _ ih | product _ _ _ ih => exact ih depth rest
  | sign _ _ _ _ _ _ ih => simpa [depthAfter] using ih depth rest
  | multiply _ _ _ _ _ _ _ _ before after | add _ _ _ _ _ _ _ _ before after =>
      simp [depthAfter, before, after]

theorem spells_unique {tokens : List Token} {one other : Expr α}
    (first : Spells leaf .sum tokens one) (second : Spells leaf .sum tokens other) :
    one = other := by
  have parsed := parse_of_spells leaf first
  rw [parse_of_spells leaf second] at parsed
  exact (Except.ok.inj parsed).symm

/-- Tokens that no derivation produces: none at all, a name where numbers are wanted,
unbalanced parentheses, or something other than an operator after a whole expression. -/
def Stray (tokens : List Token) : Prop :=
  tokens = [] ∨ (∃ name, .atom (.name name) ∈ tokens) ∨ depthAfter 0 tokens ≠ some 0 ∨
    ∃ front expr token rest, tokens = front ++ token :: rest ∧
      Spells Atom.number? .sum front expr ∧ ∀ op, token ≠ .operator op

theorem stray_not_spelled {tokens : List Token} (stray : Stray tokens) (expr : Expr Number) :
    ¬ Spells Atom.number? .sum tokens expr := by
  intro spelled
  rcases stray with empty | ⟨name, member⟩ | unbalanced | ⟨front, whole, token, rest, shape⟩
  · exact spells_nonempty _ spelled empty
  · have known := spells_atoms _ spelled (.name name) member
    contradiction
  · have balanced := spells_balanced _ spelled 0 []
    rw [List.append_nil] at balanced
    exact unbalanced balanced
  · obtain ⟨rfl, inFront, other⟩ := shape
    have rejected := parse_trailing _ inFront other rest
    rw [parse_of_spells _ spelled] at rejected
    contradiction

/-- Parsing tokens with numbers for operands gives the tree of their derivation, of which
there is at most one; tokens without a derivation, and so all stray ones, are an invalid
expression. Descending through the rules comes to the same, on whatever line it is done. -/
theorem parse_number_exact (tokens : List Token) :
    (∀ expr, parse Atom.number? tokens = .ok expr ↔ Spells Atom.number? .sum tokens expr) ∧
    (∀ one other, Spells Atom.number? .sum tokens one → Spells Atom.number? .sum tokens other →
      one = other) ∧
    ((∀ expr, ¬ Spells Atom.number? .sum tokens expr) →
      ∃ cause, (parse Atom.number? tokens).mapError Fault.badExpression =
        .error (.badExpression cause)) ∧
    (Stray tokens → ∀ expr, ¬ Spells Atom.number? .sum tokens expr) ∧
    ∀ line, descend Atom.number? line tokens =
      (parse Atom.number? tokens).mapError (Descent.invalidOn line) := by
  refine ⟨parse_ok_iff _ tokens, fun _ _ => spells_unique _, ?_, stray_not_spelled,
    fun line => descend_eq _ line tokens⟩
  intro underivable
  cases parsed : parse Atom.number? tokens with
  | ok expr => exact absurd (spells_of_parse _ parsed) (underivable expr)
  | error cause => exact ⟨cause, rfl⟩

def two : Number := .integer ⟨2, by decide⟩

def minusTwice : List Token :=
  [.atom (.number two), .operator .sub, .operator .sub, .atom (.number two), .operator .mul,
    .atom (.number two)]

-- The second minus is a sign and belongs to the number behind it alone.
theorem minusTwice_parsed :
    Spells Atom.number? .sum minusTwice
      (.binary (.leaf two) .sub (.binary (.signed .minus (.leaf two)) .mul (.leaf two))) ∧
    ∃ cause, (parse Atom.number? (.opening :: minusTwice)).mapError Fault.badExpression =
      .error (.badExpression cause) := by
  obtain ⟨_, _, rejects, strays, _⟩ := parse_number_exact (.opening :: minusTwice)
  have unbalanced : depthAfter 0 (.opening :: minusTwice) ≠ some 0 := by decide
  exact ⟨((parse_number_exact minusTwice).1 _).1 rfl,
    rejects (strays (.inr (.inr (.inl unbalanced))))⟩

end Parse

end Pseudocode.Expr
