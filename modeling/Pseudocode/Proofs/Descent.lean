import Pseudocode.Proofs.Loading

/-!
The parser as one function for each rule of the grammar.

    sum     := product (("+" | "-") product)*
    product := signed (("*" | "/") signed)*
    signed  := ("+" | "-") signed | primary
    primary := operand | "(" sum ")"

A function reads one tree off the front of the tokens and hands back the tokens behind it; a
repetition is a loop that carries the tree it has come to. What is wrong is raised on the spot,
with the line that every function hands on. The parser that goes token by token has the same
trees and the same causes, which `descend_eq` says. A function of the descent is an equation
between runs of that parser: the state in which it is called, and the state in which it returns.
-/

namespace Pseudocode.Expr

variable {α : Type}

namespace Descent

/-- A tree and the tokens behind it, of which there are fewer than `bound`. -/
structure Found (α : Type) (bound : Nat) where
  expr : Expr α
  rest : List Token
  fewer : rest.length < bound

def Found.within {bound wider : Nat} (found : Found α bound) (wide : bound ≤ wider) :
    Found α wider := ⟨found.expr, found.rest, Nat.lt_of_lt_of_le found.fewer wide⟩

def invalidOn (line : Nat) (cause : BadExpression) : RunError := ⟨line, .badExpression cause⟩

mutual

def sum (leaf : Atom → Option α) (line : Nat) (tokens : List Token) :
    Except RunError (Found α tokens.length) := do
  let first ← product leaf line tokens
  let found ← sumAfter leaf line first.expr first.rest
  .ok (found.within first.fewer)
termination_by (tokens.length, 3)
decreasing_by
  · exact Prod.Lex.right _ (by decide)
  · exact Prod.Lex.left _ _ first.fewer

def sumAfter (leaf : Atom → Option α) (line : Nat) (left : Expr α) (tokens : List Token) :
    Except RunError (Found α (tokens.length + 1)) :=
  match tokens with
  | .operator op :: rest =>
      if op.isAdditive then do
        let right ← product leaf line rest
        let found ← sumAfter leaf line (.binary left op right.expr) right.rest
        .ok (found.within (Nat.le_add_right_of_le (Nat.le_add_right_of_le right.fewer)))
      else .ok ⟨left, .operator op :: rest, Nat.lt_succ_self _⟩
  | tokens => .ok ⟨left, tokens, Nat.lt_succ_self _⟩
termination_by (tokens.length, 0)
decreasing_by
  · exact Prod.Lex.left _ _ (Nat.lt_succ_self _)
  · exact Prod.Lex.left _ _ (Nat.lt_succ_of_lt right.fewer)

def product (leaf : Atom → Option α) (line : Nat) (tokens : List Token) :
    Except RunError (Found α tokens.length) := do
  let first ← signed leaf line tokens
  let found ← productAfter leaf line first.expr first.rest
  .ok (found.within first.fewer)
termination_by (tokens.length, 2)
decreasing_by
  · exact Prod.Lex.right _ (by decide)
  · exact Prod.Lex.left _ _ first.fewer

def productAfter (leaf : Atom → Option α) (line : Nat) (left : Expr α) (tokens : List Token) :
    Except RunError (Found α (tokens.length + 1)) :=
  match tokens with
  | .operator op :: rest =>
      if op.isAdditive then .ok ⟨left, .operator op :: rest, Nat.lt_succ_self _⟩
      else do
        let right ← signed leaf line rest
        let found ← productAfter leaf line (.binary left op right.expr) right.rest
        .ok (found.within (Nat.le_add_right_of_le (Nat.le_add_right_of_le right.fewer)))
  | tokens => .ok ⟨left, tokens, Nat.lt_succ_self _⟩
termination_by (tokens.length, 0)
decreasing_by
  · exact Prod.Lex.left _ _ (Nat.lt_succ_self _)
  · exact Prod.Lex.left _ _ (Nat.lt_succ_of_lt right.fewer)

def signed (leaf : Atom → Option α) (line : Nat) (tokens : List Token) :
    Except RunError (Found α tokens.length) :=
  match tokens with
  | .operator op :: rest =>
      match op.sign? with
      | some sign => do
          let operand ← signed leaf line rest
          .ok ⟨.signed sign operand.expr, operand.rest, Nat.lt_succ_of_lt operand.fewer⟩
      | none => primary leaf line (.operator op :: rest)
  | tokens => primary leaf line tokens
termination_by (tokens.length, 1)
decreasing_by
  · exact Prod.Lex.left _ _ (Nat.lt_succ_self _)
  · exact Prod.Lex.right _ (by decide)
  · exact Prod.Lex.right _ (by decide)

def primary (leaf : Atom → Option α) (line : Nat) (tokens : List Token) :
    Except RunError (Found α tokens.length) :=
  match tokens with
  | .atom atom :: rest =>
      match leaf atom with
      | some value => .ok ⟨.leaf value, rest, Nat.lt_succ_self _⟩
      | none => .error (invalidOn line (.unexpected (.atom atom)))
  | .opening :: rest => do
      let inside ← sum leaf line rest
      match behind : inside.rest with
      | .closing :: after =>
          have fewer : after.length < rest.length := by
            have all := inside.fewer
            rw [behind] at all
            exact Nat.lt_of_succ_lt all
          .ok ⟨inside.expr, after, Nat.lt_succ_of_lt fewer⟩
      | token :: _ => .error (invalidOn line (.notClosed token))
      | [] => .error (invalidOn line .neverClosed)
  | token :: _ => .error (invalidOn line (.unexpected token))
  | [] => .error (invalidOn line .ends)
termination_by (tokens.length, 0)
decreasing_by exact Prod.Lex.left _ _ (Nat.lt_succ_self _)

end

end Descent

/-- The tree that the tokens spell, by recursive descent. -/
def descend (leaf : Atom → Option α) (line : Nat) (tokens : List Token) :
    Except RunError (Expr α) :=
  if tokens.isEmpty then .error (Descent.invalidOn line .empty)
  else do
    let whole ← Descent.sum leaf line tokens
    match whole.rest with
    | [] => .ok whole.expr
    | token :: _ => .error (Descent.invalidOn line (.trailing token))

namespace Descent

variable (leaf : Atom → Option α) (line : Nat)

/-- No product can go on with these tokens. -/
def Loose (tokens : List Token) : Prop :=
  ∀ op rest, tokens = .operator op :: rest → op.isAdditive = true

theorem productAfter_loose (left : Expr α) (tokens : List Token)
    {found : Found α (tokens.length + 1)}
    (read : productAfter leaf line left tokens = .ok found) : Loose found.rest := by
  match tokens with
  | [] | .atom _ :: _ | .opening :: _ | .closing :: _ =>
      rw [productAfter] at read
      · cases read
        intro op rest shape
        cases shape
      · intro op rest shape
        cases shape
  | .operator op :: rest =>
      rw [productAfter] at read
      by_cases loose : op.isAdditive = true
      · rw [if_pos loose] at read
        cases read
        intro other behind shape
        cases shape
        exact loose
      · rw [if_neg loose] at read
        obtain ⟨right, _, read⟩ := bind_eq_ok.1 read
        obtain ⟨last, others, found⟩ := bind_eq_ok.1 read
        cases found
        have shorter := right.fewer
        exact productAfter_loose (.binary left op right.expr) right.rest others
termination_by tokens.length
decreasing_by simp only [List.length_cons]; omega

theorem product_loose (tokens : List Token) {found : Found α tokens.length}
    (read : product leaf line tokens = .ok found) : Loose found.rest := by
  rw [product] at read
  obtain ⟨first, _, read⟩ := bind_eq_ok.1 read
  obtain ⟨last, others, found⟩ := bind_eq_ok.1 read
  cases found
  exact productAfter_loose leaf line first.expr first.rest others

theorem join_some (left right : Expr α) (op : Operator) :
    join (some (left, op)) right = .binary left op right := rfl

/-- What the parser makes of the tokens in some state. -/
def outcome (state : Parsing α) (tokens : List Token) : Except RunError (Expr α) :=
  (state.run leaf tokens).mapError (invalidOn line)

/-- What the parser makes of the tokens behind a whole sum. -/
def outcomeBehind (outer : List (Level α)) (expr : Expr α) : List Token → Except RunError (Expr α)
  | [] =>
      match outer with
      | [] => .ok expr
      | _ :: _ => .error (invalidOn line .neverClosed)
  | token :: rest =>
      match token, outer with
      | .closing, level :: outer => outcome leaf line (level.supply outer expr) rest
      | token, [] => .error (invalidOn line (.trailing token))
      | token, _ :: _ => .error (invalidOn line (.notClosed token))

theorem outcome_of_step {state next : Parsing α} {token : Token}
    (stepped : state.step leaf token = .ok next) (rest : List Token) :
    outcome leaf line state (token :: rest) = outcome leaf line next rest := by
  simp only [outcome, Parsing.run, stepped]

theorem outcome_of_error {state : Parsing α} {token : Token} {cause : BadExpression}
    (stepped : state.step leaf token = .error cause) (rest : List Token) :
    outcome leaf line state (token :: rest) = .error (invalidOn line cause) := by
  simp only [outcome, Parsing.run, stepped]
  rfl

theorem outcome_operator (sum : Option (Expr α × Operator)) (term : Expr α)
    (outer : List (Level α)) (tokens : List Token)
    (whole : ∀ op rest, tokens ≠ .operator op :: rest) :
    outcome leaf line (.operator sum term outer) tokens =
      outcomeBehind leaf line outer (join sum term) tokens := by
  match tokens, outer with
  | [], [] => rfl
  | [], _ :: _ => rfl
  | .operator op :: rest, _ => exact absurd rfl (whole op rest)
  | .closing :: rest, level :: outer => rfl
  | .atom _ :: _, [] | .opening :: _, [] | .closing :: _, [] => rfl
  | .atom _ :: _, _ :: _ | .opening :: _, _ :: _ => rfl

mutual

theorem sum_outcome (outer : List (Level α)) (tokens : List Token) :
    outcome leaf line (.operand .start outer) tokens =
      sum leaf line tokens >>= fun found =>
        outcomeBehind leaf line outer found.expr found.rest := by
  rw [sum, Level.start, product_outcome none outer tokens]
  cases read : product leaf line tokens with
  | error error => rfl
  | ok first =>
      have loose := product_loose leaf line tokens read
      have shorter := first.fewer
      have others := sumAfter_outcome none first.expr outer first.rest loose
      simp only [ok_bind, others, join]
      cases sumAfter leaf line first.expr first.rest with
      | error error => rfl
      | ok found => rfl
termination_by (tokens.length, 3)

theorem sumAfter_outcome (sum : Option (Expr α × Operator)) (term : Expr α)
    (outer : List (Level α)) (tokens : List Token) (loose : Loose tokens) :
    outcome leaf line (.operator sum term outer) tokens =
      sumAfter leaf line (join sum term) tokens >>= fun found =>
        outcomeBehind leaf line outer found.expr found.rest := by
  match tokens with
  | .operator op :: rest =>
      have additive := loose op rest rfl
      have stepped : (Parsing.operator sum term outer).step leaf (.operator op) =
          .ok (.operand ⟨some (join sum term, op), none, []⟩ outer) := by
        simp only [Parsing.step, additive, ↓reduceIte]
      rw [outcome_of_step leaf line stepped, product_outcome (some (join sum term, op)) outer rest,
        sumAfter, if_pos additive]
      cases read : product leaf line rest with
      | error error => rfl
      | ok right =>
          have behind := product_loose leaf line rest read
          have shorter := right.fewer
          have others := sumAfter_outcome (some (join sum term, op)) right.expr outer right.rest
            behind
          rw [join_some] at others
          simp only [ok_bind, others]
          cases sumAfter leaf line (.binary (join sum term) op right.expr) right.rest with
          | error error => rfl
          | ok found => rfl
  | [] | .atom _ :: _ | .opening :: _ | .closing :: _ =>
      rw [sumAfter]
      · exact outcome_operator leaf line sum term outer _ (by simp)
      · simp
termination_by (tokens.length, 0)

theorem product_outcome (sum : Option (Expr α × Operator)) (outer : List (Level α))
    (tokens : List Token) :
    outcome leaf line (.operand ⟨sum, none, []⟩ outer) tokens =
      product leaf line tokens >>= fun found =>
        outcome leaf line (.operator sum found.expr outer) found.rest := by
  rw [product, signed_outcome ⟨sum, none, []⟩ outer tokens]
  cases read : signed leaf line tokens with
  | error error => rfl
  | ok first =>
      have shorter := first.fewer
      have others := productAfter_outcome sum first.expr outer first.rest
      simp only [ok_bind]
      rw [Level.supply, join, withSigns, List.foldl_nil, others]
      cases productAfter leaf line first.expr first.rest with
      | error error => rfl
      | ok found => rfl
termination_by (tokens.length, 2)

theorem productAfter_outcome (sum : Option (Expr α × Operator)) (left : Expr α)
    (outer : List (Level α)) (tokens : List Token) :
    outcome leaf line (.operator sum left outer) tokens =
      productAfter leaf line left tokens >>= fun found =>
        outcome leaf line (.operator sum found.expr outer) found.rest := by
  match tokens with
  | .operator op :: rest =>
      rw [productAfter]
      by_cases loose : op.isAdditive = true
      · rw [if_pos loose]
        rfl
      · have stepped : (Parsing.operator sum left outer).step leaf (.operator op) =
            .ok (.operand ⟨sum, some (left, op), []⟩ outer) := by
          simp only [Parsing.step, loose, Bool.false_eq_true, ↓reduceIte]
        rw [if_neg loose, outcome_of_step leaf line stepped,
          signed_outcome ⟨sum, some (left, op), []⟩ outer rest]
        cases read : signed leaf line rest with
        | error error => rfl
        | ok right =>
            have shorter := right.fewer
            have others := productAfter_outcome sum (.binary left op right.expr) outer right.rest
            simp only [ok_bind]
            rw [Level.supply, join, withSigns, List.foldl_nil, others]
            cases productAfter leaf line (.binary left op right.expr) right.rest with
            | error error => rfl
            | ok found => rfl
  | [] | .atom _ :: _ | .opening :: _ | .closing :: _ =>
      rw [productAfter]
      · rfl
      · simp
termination_by (tokens.length, 0)

theorem signed_outcome (level : Level α) (outer : List (Level α)) (tokens : List Token) :
    outcome leaf line (.operand level outer) tokens =
      signed leaf line tokens >>= fun found =>
        outcome leaf line (level.supply outer found.expr) found.rest := by
  match tokens with
  | .operator op :: rest =>
      rw [signed]
      cases signs : op.sign? with
      | some sign =>
          have stepped : (Parsing.operand level outer).step leaf (.operator op) =
              .ok (.operand { level with signs := sign :: level.signs } outer) := by
            simp only [Parsing.step, signs]
          rw [outcome_of_step leaf line stepped,
            signed_outcome { level with signs := sign :: level.signs } outer rest]
          cases signed leaf line rest with
          | error error => rfl
          | ok operand => rfl
      | none => exact primary_outcome level outer _ (by simp [signs])
  | [] | .atom _ :: _ | .opening :: _ | .closing :: _ =>
      rw [signed]
      · exact primary_outcome level outer _ (by simp)
      · simp
termination_by (tokens.length, 1)

theorem primary_outcome (level : Level α) (outer : List (Level α)) (tokens : List Token)
    (unsigned : ∀ op rest, tokens = .operator op :: rest → op.sign? = none) :
    outcome leaf line (.operand level outer) tokens =
      primary leaf line tokens >>= fun found =>
        outcome leaf line (level.supply outer found.expr) found.rest := by
  match tokens with
  | [] => rw [primary]; rfl
  | .atom atom :: rest =>
      rw [primary]
      cases known : leaf atom with
      | some value => exact outcome_of_step leaf line (by simp only [Parsing.step, known]) rest
      | none => exact outcome_of_error leaf line (by simp only [Parsing.step, known]) rest
  | .operator op :: rest =>
      have none := unsigned op rest rfl
      rw [primary]
      · exact outcome_of_error leaf line (by simp only [Parsing.step, none]) rest
      · simp
      · simp
  | .closing :: rest =>
      rw [primary]
      · exact outcome_of_error leaf line rfl rest
      · simp
      · simp
  | .opening :: rest =>
      have stepped : (Parsing.operand level outer).step leaf .opening =
          .ok (.operand .start (level :: outer)) := rfl
      rw [outcome_of_step leaf line stepped, sum_outcome (level :: outer) rest, primary]
      cases sum leaf line rest with
      | error error => rfl
      | ok inside =>
          simp only [ok_bind]
          obtain ⟨expr, behind, fewer⟩ := inside
          match behind with
          | [] => rfl
          | .closing :: after => rfl
          | .atom _ :: _ | .operator _ :: _ | .opening :: _ => rfl
termination_by (tokens.length, 0)

end

end Descent

/-- The descent and the parser that goes token by token give the same tree, or fail with the same
cause; the descent has it on the line it was handed. -/
theorem descend_eq (leaf : Atom → Option α) (line : Nat) (tokens : List Token) :
    descend leaf line tokens = (parse leaf tokens).mapError (Descent.invalidOn line) := by
  unfold descend parse
  by_cases none : tokens.isEmpty = true
  · rw [if_pos none, if_pos none]
    rfl
  · rw [if_neg none, if_neg none]
    change _ = Descent.outcome leaf line (.operand .start []) tokens
    rw [Descent.sum_outcome leaf line [] tokens]
    cases Descent.sum leaf line tokens with
    | error error => rfl
    | ok whole =>
        obtain ⟨expr, rest, fewer⟩ := whole
        cases rest with
        | nil => rfl
        | cons token rest => cases token <;> rfl

end Pseudocode.Expr
