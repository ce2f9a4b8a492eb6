import TwoLevel.Expr
import TwoLevel.Token

/-!
# Reverse Polish order

Operands come first and every operator follows its operands. Tokens are put into this order by the
operators' precedence, with a stack of operators that wait for their right operands; a sequence in
this order is built into an expression, or evaluated, with a stack of its own. Main statements: the
sequence of an expression builds that expression (`Rpn.toExpr?_ofExpr`), and evaluating a sequence
gives the value of the expression it builds (`Rpn.eval_eq_of_toExpr?`).
-/

namespace TwoLevel

/-- An operand by name, or an operator. A parenthesis without a partner is kept as an operand. -/
inductive RpnItem where
  | operand (name : String)
  | operator (o : Operator)
deriving DecidableEq, Repr

/-- A sequence in reverse Polish order. -/
abbrev Rpn := List RpnItem

namespace Rpn

/-! ## From tokens -/

/-- What waits for its right operand or its partner, latest first. -/
inductive Pending where
  | opened
  | operator (o : Operator)
deriving DecidableEq, Repr

namespace Pending

def item : Pending → RpnItem
  | .opened => .operand "("
  | .operator o => .operator o

def isOperator : Pending → Bool
  | .opened => false
  | .operator _ => true

/-- Whether it comes before a later operator: one that binds at least as tightly does. -/
def precedes (later : Operator) : Pending → Bool
  | .opened => false
  | .operator o => later.precedence ≤ o.precedence

end Pending

/-- Puts tokens into reverse Polish order, given what waits. A closing parenthesis releases the
operators back to its partner, or all of them and itself if it has none. -/
def reorder : List Token → List Pending → Rpn
  | [], waiting => waiting.map Pending.item
  | .operand name :: ts, waiting => .operand name :: reorder ts waiting
  | .lparen :: ts, waiting => reorder ts (.opened :: waiting)
  | .rparen :: ts, waiting =>
    (waiting.takeWhile Pending.isOperator).map Pending.item ++
      match waiting.dropWhile Pending.isOperator with
      -- nothing is open: the parenthesis goes to the output
      | [] => .operand ")" :: reorder ts []
      -- the two parentheses are done with
      | _ :: rest => reorder ts rest
  | .operator o :: ts, waiting =>
    (waiting.takeWhile (Pending.precedes o)).map Pending.item ++
      reorder ts (.operator o :: waiting.dropWhile (Pending.precedes o))

/-- The tokens in reverse Polish order. Neither parentheses nor operands are checked. -/
def ofTokens (tokens : List Token) : Rpn := reorder tokens []

/-! ## To expressions -/

inductive ParseError where
  | missingOperand (o : Operator)
  | unbalanced
  | nothing
  | missingOperator (parts : List Expr)
deriving DecidableEq, Repr

def ParseError.message : ParseError → String
  | .missingOperand o => "Invalid expression: " ++ o.name ++ " is missing an operand."
  | .unbalanced => "Invalid expression: unbalanced parentheses."
  | .nothing => "Invalid expression: nothing to evaluate."
  | .missingOperator parts =>
    "Invalid expression: missing operator between " ++
      ", ".intercalate (parts.map Expr.render) ++ "."

/-- Takes one item to a stack of expressions, latest first. -/
def buildStep (stack : List Expr) : RpnItem → Except ParseError (List Expr)
  | .operand name =>
    if name = "(" ∨ name = ")" then .error .unbalanced else .ok (.var name :: stack)
  | .operator .not =>
    match stack with
    | e :: rest => .ok (.not e :: rest)
    | [] => .error (.missingOperand .not)
  | .operator (.binary c) =>
    match stack with
    | r :: l :: rest => .ok (.binary c l r :: rest)
    | _ => .error (.missingOperand (.binary c))

/-- The stack that a sequence leaves on top of the given one. -/
def build (stack : List Expr) (items : Rpn) : Except ParseError (List Expr) :=
  items.foldlM buildStep stack

theorem build_append (stack : List Expr) (s t : Rpn) :
    build stack (s ++ t) = build stack s >>= fun stack => build stack t :=
  List.foldlM_append

/-- The expression that a sequence builds. -/
def toExpr? (items : Rpn) : Except ParseError Expr :=
  match build [] items with
  | .error e => .error e
  | .ok [] => .error .nothing
  | .ok [e] => .ok e
  | .ok stack => .error (.missingOperator stack.reverse)

def ofExpr : Expr → Rpn
  | .var name => [.operand name]
  | .not e => ofExpr e ++ [.operator .not]
  | .binary c l r => ofExpr l ++ ofExpr r ++ [.operator (.binary c)]

-- The sequence of an expression, no name of which is a parenthesis, puts that expression on the
-- stack.
theorem build_ofExpr {e : Expr} (h : ∀ n ∈ e.names, n ≠ "(" ∧ n ≠ ")") (stack : List Expr) :
    build stack (ofExpr e) = .ok (e :: stack) := by
  induction e generalizing stack with
  | var name =>
    have := h name (by simp [Expr.names])
    simp [build, ofExpr, buildStep, this.1, this.2]
  | not e ih =>
    rw [ofExpr, build_append, ih h]
    rfl
  | binary c l r ihl ihr =>
    simp only [Expr.names, List.mem_append] at h
    rw [ofExpr, build_append, build_append, ihl fun n hn => h n (.inl hn)]
    show (build (l :: stack) (ofExpr r) >>= _) = _
    rw [ihr fun n hn => h n (.inr hn)]
    rfl

theorem toExpr?_ofExpr {e : Expr} (h : ∀ n ∈ e.names, n ≠ "(" ∧ n ≠ ")") :
    toExpr? (ofExpr e) = .ok e := by
  rw [toExpr?, build_ofExpr h]

/-! ## Evaluation -/

inductive EvalError where
  | missingOperand
  | noValue
deriving DecidableEq, Repr

def EvalError.message : EvalError → String
  | .missingOperand => "pop from empty list"
  | .noValue => "list index out of range"

/-- Takes one item to a stack of truth values, latest first. -/
def evalStep (value : String → Bool) (stack : List Bool) : RpnItem → Except EvalError (List Bool)
  | .operand name => .ok (value name :: stack)
  | .operator .not =>
    match stack with
    | a :: rest => .ok ((!a) :: rest)
    | [] => .error .missingOperand
  | .operator (.binary c) =>
    match stack with
    | b :: a :: rest => .ok (c.apply a b :: rest)
    | _ => .error .missingOperand

/-- The stack that a sequence leaves on top of the given one. -/
def evalFrom (value : String → Bool) (stack : List Bool) (items : Rpn) :
    Except EvalError (List Bool) :=
  items.foldlM (evalStep value) stack

/-- The value of a sequence when each name has the given value: the first of those left. -/
def eval (items : Rpn) (value : String → Bool) : Except EvalError Bool :=
  match evalFrom value [] items with
  | .error e => .error e
  | .ok stack =>
    match stack.getLast? with
    | some b => .ok b
    | none => .error .noValue

/-- An operator takes as many operands off the stack as its arity says, the last one first, and its
truth function gets them in the order in which they were written. -/
theorem evalStep_operator {value : String → Bool} {o : Operator} {operands : List Bool}
    (h : operands.length = o.arity) (rest : List Bool) : ∃ b, o.apply operands = .ok b ∧
      evalStep value (operands.reverse ++ rest) (.operator o) = .ok (b :: rest) := by
  have hok := Operator.apply_isOk_iff.2 h
  cases happly : o.apply operands with
  | error e => rw [happly] at hok; cases hok
  | ok b =>
    refine ⟨b, rfl, ?_⟩
    unfold Operator.apply at happly
    split at happly <;> cases happly <;> rfl

theorem evalStep_of_buildStep {value : String → Bool} {item : RpnItem} {s t : List Expr}
    (h : buildStep s item = .ok t) :
    evalStep value (s.map (Expr.eval value)) item = .ok (t.map (Expr.eval value)) := by
  rcases item with name | _ | c
  · simp only [buildStep] at h
    split at h
    · exact absurd h (by simp)
    · cases h; rfl
  · rcases s with _ | ⟨e, s⟩ <;> cases h
    have hnot : [e.eval value].length = Operator.not.arity := rfl
    rcases evalStep_operator hnot (s.map (Expr.eval value)) with ⟨b, hb, hstep⟩
    cases hb
    exact hstep
  · rcases s with _ | ⟨r, _ | ⟨l, s⟩⟩ <;> cases h
    have hbinary : [l.eval value, r.eval value].length = (Operator.binary c).arity := rfl
    rcases evalStep_operator hbinary (s.map (Expr.eval value)) with ⟨b, hb, hstep⟩
    cases hb
    exact hstep

-- Evaluation follows building: its stack holds the values of the expressions on the other.
theorem evalFrom_of_build {value : String → Bool} {items : Rpn} {s t : List Expr}
    (h : build s items = .ok t) :
    evalFrom value (s.map (Expr.eval value)) items = .ok (t.map (Expr.eval value)) := by
  induction items generalizing s with
  | nil => cases h; rfl
  | cons item items ih =>
    rw [build, List.foldlM_cons] at h
    cases hs : buildStep s item with
    | error e => rw [hs] at h; cases h
    | ok s' =>
      rw [hs] at h
      rw [evalFrom, List.foldlM_cons, evalStep_of_buildStep hs]
      exact ih h

/-- A sequence that builds an expression has the value of the expression. -/
theorem eval_eq_of_toExpr? {items : Rpn} {e : Expr} (h : toExpr? items = .ok e)
    (value : String → Bool) : eval items value = .ok (e.eval value) := by
  unfold toExpr? at h
  split at h <;> cases h
  next hb =>
    have := @evalFrom_of_build value _ _ _ hb
    simp only [List.map_nil, List.map_cons] at this
    simp [eval, this]

end Rpn

end TwoLevel
