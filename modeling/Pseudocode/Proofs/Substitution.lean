import Mathlib
import Pseudocode.Expr.Evaluation
import Pseudocode.Proofs.Grammar

/-!
Names in expressions. A program replaces every name by the number it holds and parses
afterwards; the plain reading parses first, with the names for operands, and looks them up
when it comes to a leaf of the tree. The two agree.

A number put in for a name is a single token, a negative one too, and the parser never looks
into it. So the parser with numbers and the parser with names go through corresponding states,
which differ only in what stands at the leaves, and end in trees of one shape or in the same
complaint.
-/

namespace Pseudocode

def Token.mapAtom (change : Atom → Atom) : Token → Token
  | .atom value => .atom (change value)
  | token => token

def BadExpression.mapAtom (change : Atom → Atom) : BadExpression → BadExpression
  | .unexpected token => .unexpected (token.mapAtom change)
  | .notClosed token => .notClosed (token.mapAtom change)
  | .trailing token => .trailing (token.mapAtom change)
  | cause => cause

namespace Expr

variable {α β : Type}

def map (change : α → β) : Expr α → Expr β
  | .leaf value => .leaf (change value)
  | .signed sign operand => .signed sign (operand.map change)
  | .binary left op right => .binary (left.map change) op (right.map change)

def leaves : Expr α → List α
  | .leaf value => [value]
  | .signed _ operand => operand.leaves
  | .binary left _ right => left.leaves ++ right.leaves

/-- A tree without what stands at its leaves. -/
def shape (expr : Expr α) : Expr Unit := expr.map fun _ => ()

theorem shape_map (change : α → β) (expr : Expr α) : (expr.map change).shape = expr.shape := by
  unfold shape
  induction expr with
  | leaf value => rfl
  | signed sign operand ih => simp only [map, ih]
  | binary left op right before after => simp only [map, before, after]

theorem spells_leaves {leaf : Atom → Option α} {rank : Rank} {tokens : List Token}
    {expr : Expr α} (spelled : Spells leaf rank tokens expr) (value : α)
    (member : value ∈ expr.leaves) : ∃ atom, .atom atom ∈ tokens ∧ leaf atom = some value := by
  induction spelled with
  | operand atom held known =>
      simp only [leaves, List.mem_singleton] at member
      exact ⟨atom, List.mem_singleton_self _, member ▸ known⟩
  | group tokens _ _ ih =>
      obtain ⟨atom, inside, known⟩ := ih member
      exact ⟨atom, by simp [inside], known⟩
  | primary _ _ _ ih | signed _ _ _ ih | product _ _ _ ih => exact ih member
  | sign op _ tokens _ _ _ ih =>
      obtain ⟨atom, inside, known⟩ := ih member
      exact ⟨atom, List.mem_cons_of_mem _ inside, known⟩
  | multiply _ _ _ _ _ _ _ _ before after | add _ _ _ _ _ _ _ _ before after =>
      rcases List.mem_append.1 member with inLeft | inRight
      · obtain ⟨atom, inside, known⟩ := before inLeft
        exact ⟨atom, List.mem_append_left _ inside, known⟩
      · obtain ⟨atom, inside, known⟩ := after inRight
        exact ⟨atom, List.mem_append_right _ (List.mem_cons_of_mem _ inside), known⟩

section OtherLeaves

def mapPending (change : α → β) (pending : Expr α × Operator) : Expr β × Operator :=
  (pending.1.map change, pending.2)

def Level.map (change : α → β) (level : Level α) : Level β where
  sum := level.sum.map (mapPending change)
  product := level.product.map (mapPending change)
  signs := level.signs

def Parsing.map (change : α → β) : Parsing α → Parsing β
  | .operand level outer => .operand (level.map change) (outer.map (Level.map change))
  | .operator sum term outer =>
      .operator (sum.map (mapPending change)) (term.map change) (outer.map (Level.map change))

theorem join_map (change : α → β) (pending : Option (Expr α × Operator)) (expr : Expr α) :
    join (pending.map (mapPending change)) (expr.map change) = (join pending expr).map change := by
  cases pending <;> rfl

theorem withSigns_map (change : α → β) (signs : List Sign) (expr : Expr α) :
    withSigns signs (expr.map change) = (withSigns signs expr).map change := by
  induction signs generalizing expr with
  | nil => rfl
  | cons sign rest ih => exact ih (.signed sign expr)

theorem supply_map (change : α → β) (level : Level α) (outer : List (Level α))
    (expr : Expr α) :
    (level.map change).supply (outer.map (Level.map change)) (expr.map change) =
      (level.supply outer expr).map change := by
  simp only [Level.supply, Level.map, Parsing.map, withSigns_map, join_map]

section Simulation

variable {leaf : Atom → Option α} {other : Atom → Option β} {change : α → β}
  {swap : Atom → Atom}

theorem operand_step_map (level : Level α) (outer : List (Level α)) (token : Token)
    (agrees : ∀ atom, token = .atom atom → other (swap atom) = (leaf atom).map change) :
    ((Parsing.operand level outer).map change).step other (token.mapAtom swap) =
      (((Parsing.operand level outer).step leaf token).map (Parsing.map change)).mapError
        (BadExpression.mapAtom swap) := by
  cases token with
  | atom atom =>
      simp only [Parsing.map, Token.mapAtom, Parsing.step, agrees atom rfl]
      cases leaf atom with
      | none => rfl
      | some value => exact congrArg Except.ok (supply_map change level outer (.leaf value))
  | operator op =>
      simp only [Parsing.map, Token.mapAtom, Parsing.step]
      cases op.sign? <;> rfl
  | opening | closing => rfl

theorem operator_step_map (sum : Option (Expr α × Operator)) (term : Expr α)
    (outer : List (Level α)) (token : Token) :
    ((Parsing.operator sum term outer).map change).step other (token.mapAtom swap) =
      (((Parsing.operator sum term outer).step leaf token).map (Parsing.map change)).mapError
        (BadExpression.mapAtom swap) := by
  cases token with
  | atom atom => cases outer <;> rfl
  | opening => cases outer <;> rfl
  | operator op =>
      simp only [Parsing.map, Token.mapAtom, Parsing.step, join_map]
      cases op.isAdditive <;> rfl
  | closing =>
      cases outer with
      | nil => rfl
      | cons level outer =>
          simp only [Parsing.map, Token.mapAtom, Parsing.step, join_map, List.map_cons]
          exact congrArg Except.ok (supply_map change level outer (join sum term))

theorem step_map (state : Parsing α) (token : Token)
    (agrees : ∀ atom, token = .atom atom → other (swap atom) = (leaf atom).map change) :
    (state.map change).step other (token.mapAtom swap) =
      ((state.step leaf token).map (Parsing.map change)).mapError
        (BadExpression.mapAtom swap) := by
  cases state with
  | operand level outer => exact operand_step_map level outer token agrees
  | operator sum term outer => exact operator_step_map sum term outer token

theorem finish_map (state : Parsing α) :
    (state.map change).finish =
      (state.finish.map (Expr.map change)).mapError (BadExpression.mapAtom swap) := by
  cases state with
  | operand level outer => rfl
  | operator sum term outer =>
      cases outer with
      | nil => exact congrArg Except.ok (join_map change sum term)
      | cons level outer => rfl

/-- Whatever the parser does with some leaves, it does the same with others in their place. -/
theorem run_map (state : Parsing α) (tokens : List Token)
    (agrees : ∀ atom, .atom atom ∈ tokens → other (swap atom) = (leaf atom).map change) :
    (state.map change).run other (tokens.map (Token.mapAtom swap)) =
      ((state.run leaf tokens).map (Expr.map change)).mapError (BadExpression.mapAtom swap) := by
  induction tokens generalizing state with
  | nil => exact finish_map state
  | cons token rest ih =>
      have first := step_map state token fun atom same => agrees atom (by simp [same])
      have later := fun next => ih next fun atom member => agrees atom (by simp [member])
      simp only [List.map_cons, Parsing.run, first]
      cases state.step leaf token with
      | error cause => rfl
      | ok next => exact later next

theorem parse_map (tokens : List Token)
    (agrees : ∀ atom, .atom atom ∈ tokens → other (swap atom) = (leaf atom).map change) :
    parse other (tokens.map (Token.mapAtom swap)) =
      ((parse leaf tokens).map (Expr.map change)).mapError (BadExpression.mapAtom swap) := by
  have ran := run_map (.operand .start []) tokens agrees
  cases tokens with
  | nil => rfl
  | cons token rest => exact ran

end Simulation

end OtherLeaves

/-- The value of a tree with names at its leaves, each looked up where it stands. -/
def evalIn (scope : Scope) : Expr Atom → Except Fault Number
  | .leaf (.number number) => .ok number
  | .leaf (.name name) => scope.number name
  | .signed sign operand => do
      let value ← operand.evalIn scope
      value.applySign sign
  | .binary left op right => do
      let a ← left.evalIn scope
      let b ← right.evalIn scope
      Number.apply op a b

end Expr

/-- What can go wrong once all operands are numbers. -/
def Fault.IsArithmetic (fault : Fault) : Prop := fault = .overflow ∨ fault = .divisionByZero

namespace Number

theorem checked_error {result : Option Integer} {fault : Fault}
    (failed : checked result = .error fault) : fault.IsArithmetic := by
  cases result with
  | none => cases failed; exact .inl rfl
  | some n => cases failed

theorem applySign_error {sign : Sign} {number : Number} {fault : Fault}
    (failed : number.applySign sign = .error fault) : fault.IsArithmetic := by
  cases sign with
  | plus => cases failed
  | minus =>
      cases number with
      | integer n => exact checked_error failed
      | real x => cases failed

theorem checkedReal_error {x : Binary64} {fault : Fault}
    (failed : checkedReal x = .error fault) : fault.IsArithmetic := by
  unfold checkedReal at failed
  split at failed
  · cases failed
  · cases failed; exact .inl rfl

theorem applyIntegers_error {op : Operator} {a b : Integer} {fault : Fault}
    (failed : applyIntegers op a b = .error fault) : fault.IsArithmetic := by
  cases op with
  | add | sub | mul => exact checked_error failed
  | div =>
      simp only [applyIntegers] at failed
      split at failed
      · cases failed; exact .inr rfl
      · split at failed
        · exact checked_error failed
        · cases failed

theorem applyReals_error {op : Operator} {x y : Binary64} {fault : Fault}
    (failed : applyReals op x y = .error fault) : fault.IsArithmetic := by
  cases op with
  | add | sub | mul => exact checkedReal_error failed
  | div =>
      simp only [applyReals] at failed
      split at failed
      · cases failed; exact .inr rfl
      · exact checkedReal_error failed

theorem apply_error {op : Operator} {a b : Number} {fault : Fault}
    (failed : apply op a b = .error fault) : fault.IsArithmetic := by
  cases a with
  | integer n =>
      cases b with
      | integer m => exact applyIntegers_error failed
      | real y => exact applyReals_error failed
  | real x => exact applyReals_error failed

end Number

theorem Expr.eval_error {expr : Expr Number} {fault : Fault}
    (failed : expr.eval = .error fault) : fault.IsArithmetic := by
  induction expr generalizing fault with
  | leaf number => cases failed
  | signed sign operand ih =>
      rcases bind_eq_error.1 failed with earlier | ⟨value, _, last⟩
      · exact ih earlier
      · exact Number.applySign_error last
  | binary left op right before after =>
      rcases bind_eq_error.1 failed with earlier | ⟨first, _, following⟩
      · exact before earlier
      · rcases bind_eq_error.1 following with later | ⟨second, _, last⟩
        · exact after later
        · exact Number.apply_error last

namespace Scope

/-- Every name among the tokens holds a number. -/
def Numeric (scope : Scope) (tokens : List Token) : Prop :=
  ∀ name, .atom (.name name) ∈ tokens → ∃ n, scope.operand? name = some (.number n)

/-- The number behind an atom; of a name without one it is never asked. -/
def held (scope : Scope) : Atom → Number
  | .number n => n
  | .name name =>
      match scope.operand? name with
      | some (.number n) => n
      | _ => .integer ⟨0, by decide⟩

theorem number_of_numeric {scope : Scope} {tokens : List Token} (numeric : scope.Numeric tokens)
    {name : Text} (member : .atom (.name name) ∈ tokens) :
    scope.number name = .ok (scope.held (.name name)) := by
  obtain ⟨n, known⟩ := numeric name member
  simp [number, held, known]

theorem resolveAll_numeric {scope : Scope} {tokens : List Token}
    (numeric : scope.Numeric tokens) :
    scope.resolveAll tokens =
      .ok (tokens.map (Token.mapAtom fun atom => .number (scope.held atom))) := by
  induction tokens with
  | nil => rfl
  | cons token rest ih =>
      have others := ih fun name member => numeric name (List.mem_cons_of_mem _ member)
      have first : scope.resolve token =
          .ok (token.mapAtom fun atom => .number (scope.held atom)) := by
        cases token with
        | atom atom =>
            cases atom with
            | number n => rfl
            | name name => simp [resolve, number_of_numeric numeric, Except.map, Token.mapAtom]
        | operator op | opening | closing => rfl
      simp [resolveAll, first, others, bind, Except.bind]

theorem eval_held {scope : Scope} {tokens : List Token} (numeric : scope.Numeric tokens)
    (tree : Expr Atom) (among : ∀ atom ∈ tree.leaves, .atom atom ∈ tokens) :
    (tree.map scope.held).eval = tree.evalIn scope := by
  induction tree with
  | leaf atom =>
      cases atom with
      | number n => rfl
      | name name =>
          have member := among (.name name) (List.mem_singleton_self _)
          exact (number_of_numeric numeric member).symm
  | signed sign operand ih => simp only [Expr.map, Expr.eval, Expr.evalIn, ih among]
  | binary left op right before after =>
      have inLeft := before fun atom member => among atom (List.mem_append_left _ member)
      have inRight := after fun atom member => among atom (List.mem_append_right _ member)
      simp only [Expr.map, Expr.eval, Expr.evalIn, inLeft, inRight]

/-- The plain reading: parse with the names for operands, then look each name up where it
stands in the tree. -/
def evaluateTree (scope : Scope) (source : Text) : Except Fault Number := do
  let tokens ← (lex source).mapError .badExpression
  let tree ← (Expr.parse some tokens).mapError .badExpression
  tree.evalIn scope

section Agreement

variable {scope : Scope} {source : Text} {tokens : List Token}
  (lexed : lex source = .ok tokens) (numeric : scope.Numeric tokens)

theorem parse_resolved (scope : Scope) (tokens : List Token) :
    Expr.parse Atom.number? (tokens.map (Token.mapAtom fun atom => .number (scope.held atom))) =
      ((Expr.parse some tokens).map (Expr.map scope.held)).mapError
        (BadExpression.mapAtom fun atom => .number (scope.held atom)) :=
  Expr.parse_map tokens fun _ _ => rfl

include numeric in
theorem eval_parsed {tree : Expr Atom} (parsed : Expr.parse some tokens = .ok tree) :
    (tree.map scope.held).eval = tree.evalIn scope := by
  refine eval_held numeric tree fun atom member => ?_
  have spelled := Expr.spells_of_parse some parsed
  obtain ⟨found, inside, same⟩ := Expr.spells_leaves spelled atom member
  cases same
  exact inside

include lexed numeric

theorem evaluate_of_parsed {tree : Expr Atom} (parsed : Expr.parse some tokens = .ok tree) :
    scope.evaluate source = tree.evalIn scope := by
  rw [← eval_parsed numeric parsed]
  simp only [evaluate, lexed, resolveAll_numeric numeric, Except.mapError, bind, Except.bind,
    parse_resolved, parsed, Except.map]

theorem evaluate_of_unparsed {cause : BadExpression}
    (unparsed : Expr.parse some tokens = .error cause) :
    scope.evaluate source =
      .error (.badExpression (cause.mapAtom fun atom => .number (scope.held atom))) := by
  simp only [evaluate, lexed, resolveAll_numeric numeric, Except.mapError, bind, Except.bind,
    parse_resolved, unparsed, Except.map]

omit numeric in
theorem evaluateTree_of_parsed (scope : Scope) {tree : Expr Atom}
    (parsed : Expr.parse some tokens = .ok tree) :
    scope.evaluateTree source = tree.evalIn scope := by
  simp only [evaluateTree, lexed, parsed, Except.mapError, bind, Except.bind]

end Agreement

/-- Wherever all names hold numbers, putting them in before parsing and looking them up in the
parsed tree come to the same: the same value, an invalid expression exactly where the grammar
has no tree for the tokens, and else the same overflow or division by zero. The numbers have no
say in the shape of the tree. -/
theorem evaluate_agrees_with_tree {scope : Scope} {source : Text} {tokens : List Token}
    (lexed : lex source = .ok tokens) (numeric : scope.Numeric tokens) :
    (∀ value, scope.evaluate source = .ok value ↔ scope.evaluateTree source = .ok value) ∧
    ((∃ cause, scope.evaluate source = .error (.badExpression cause)) ↔
      ∀ tree, ¬ Expr.Spells some .sum tokens tree) ∧
    (∀ tree, Expr.Spells some .sum tokens tree →
      scope.evaluateTree source = tree.evalIn scope ∧
      ∀ fault, (scope.evaluate source = .error fault ↔
          scope.evaluateTree source = .error fault) ∧
        (scope.evaluate source = .error fault →
          fault = .overflow ∨ fault = .divisionByZero)) ∧
    ∃ resolved, scope.resolveAll tokens = .ok resolved ∧
      ∀ form, (∃ expr, Expr.Spells Atom.number? .sum resolved expr ∧ expr.shape = form) ↔
        ∃ tree, Expr.Spells some .sum tokens tree ∧ tree.shape = form := by
  have resolved := resolveAll_numeric numeric
  have exchanged := parse_resolved scope tokens
  simp only [← Expr.parse_ok_iff]
  cases parsed : Expr.parse some tokens with
  | error cause =>
      have failed := evaluate_of_unparsed lexed numeric parsed
      have also : scope.evaluateTree source = .error (.badExpression cause) := by
        simp only [evaluateTree, lexed, parsed, Except.mapError, bind, Except.bind]
      rw [parsed] at exchanged
      refine ⟨by simp [failed, also], by simp [failed], by simp, _, resolved, ?_⟩
      simp [exchanged, Except.map, Except.mapError]
  | ok tree =>
      have valued := evaluate_of_parsed lexed numeric parsed
      have also := evaluateTree_of_parsed lexed scope parsed
      have arithmetic : ∀ fault, tree.evalIn scope = .error fault → fault.IsArithmetic := by
        intro fault failed
        rw [← eval_parsed numeric parsed] at failed
        exact Expr.eval_error failed
      rw [parsed] at exchanged
      refine ⟨by simp [valued, also], ?_, ?_, _, resolved, ?_⟩
      · constructor
        · rintro ⟨cause, failed⟩
          rw [valued] at failed
          rcases arithmetic _ failed with same | same <;> contradiction
        · intro unparsed
          exact absurd rfl (unparsed tree)
      · rintro other same
        cases same
        refine ⟨also, fun fault => ⟨by rw [valued, also], ?_⟩⟩
        rw [valued]
        exact arithmetic fault
      · intro form
        simp only [exchanged, Except.map, Except.mapError, Except.ok.injEq, exists_eq_left',
          Expr.shape_map]

/-- Two variables, one of them below zero. -/
def threeAndMinusTwo : Scope where
  constants := .empty
  «variables» :=
    ⟨[(['x'], .integer ⟨3, by decide⟩), (['y'], .integer ⟨-2, by decide⟩)], by decide⟩

def minusProduct : List Token :=
  [.atom (.name ['x']), .operator .sub, .atom (.name ['y']), .operator .mul,
    .atom (.number Expr.two)]

-- Written out as text, the number in place of `y` would bring a second minus sign.
theorem minusProduct_agrees :
    threeAndMinusTwo.evaluate "x - y * 2".toList = .ok (.integer ⟨7, by decide⟩) ∧
      threeAndMinusTwo.evaluateTree "x - y * 2".toList = .ok (.integer ⟨7, by decide⟩) := by
  have lexed : lex "x - y * 2".toList = .ok minusProduct := by cbv
  have numeric : threeAndMinusTwo.Numeric minusProduct := by
    intro name member
    simp only [minusProduct, List.mem_cons, Token.atom.injEq, Atom.name.injEq, reduceCtorEq,
      List.not_mem_nil, false_or, or_false] at member
    rcases member with rfl | rfl
    · exact ⟨.integer ⟨3, by decide⟩, rfl⟩
    · exact ⟨.integer ⟨-2, by decide⟩, rfl⟩
  have agrees := (evaluate_agrees_with_tree lexed numeric).1 (.integer ⟨7, by decide⟩)
  have value : threeAndMinusTwo.evaluate "x - y * 2".toList =
      .ok (.integer ⟨7, by decide⟩) := by cbv
  exact ⟨value, agrees.1 value⟩

end Scope

end Pseudocode
