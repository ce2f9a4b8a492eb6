import TwoLevel.Operator

/-!
# Expressions

Boolean expression trees over named variables, their fully parenthesised text, and their value under
an assignment of the names, which depends on their own names alone (`Expr.eval_congr`).
-/

namespace TwoLevel

inductive Expr where
  | var (name : String)
  | not (operand : Expr)
  | binary (c : Connective) (left right : Expr)
deriving DecidableEq, Repr

namespace Expr

/-- The text of an expression, with parentheses around every operator and its operands. -/
def render : Expr → String
  | .var name => name
  | .not e => "(" ++ Operator.not.name ++ " " ++ e.render ++ ")"
  | .binary c l r => "(" ++ l.render ++ " " ++ c.name ++ " " ++ r.render ++ ")"

def names : Expr → List String
  | .var name => [name]
  | .not e => e.names
  | .binary _ l r => l.names ++ r.names

/-- The value when each name has the given value. -/
def eval (value : String → Bool) : Expr → Bool
  | .var name => value name
  | .not e => !e.eval value
  | .binary c l r => c.apply (l.eval value) (r.eval value)

-- Only the values of an expression's own names matter.
theorem eval_congr {v w : String → Bool} {e : Expr} (h : ∀ n ∈ e.names, v n = w n) :
    e.eval v = e.eval w := by
  induction e with
  | var name => exact h name (by simp [names])
  | not e ih => simp [eval, ih h]
  | binary c l r ihl ihr =>
    simp only [names, List.mem_append] at h
    simp [eval, ihl fun n hn => h n (.inl hn), ihr fun n hn => h n (.inr hn)]

end Expr

end TwoLevel
