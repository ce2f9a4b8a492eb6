import TwoLevel.Rpn

/-!
# Formulas

A text that has been read: the names of its variables, its reverse Polish order and its expression.
Any text whose items build one expression is a formula; the place of an operator between its
operands is not checked. Main statement: evaluation of a formula that was read does not fail
(`Formula.eval_of_parse`).
-/

namespace TwoLevel

structure Formula where
  names : SortedSet String
  rpn : Rpn
  expr : Expr
deriving DecidableEq

namespace Formula

def ofTokens (tokens : List Token) : Except Rpn.ParseError Formula :=
  (Rpn.ofTokens tokens).toExpr?.map fun expr =>
    ⟨Token.operandNames tokens, Rpn.ofTokens tokens, expr⟩

def parse (text : String) : Except Rpn.ParseError Formula := ofTokens (Token.ofText text)

/-- The formula's value when each name has the given value. -/
def eval (f : Formula) (value : String → Bool) : Except Rpn.EvalError Bool := f.rpn.eval value

/-- What a formula that was read consists of. -/
theorem parse_eq_ok_iff {text : String} {f : Formula} :
    parse text = .ok f ↔ f.names = Token.operandNames (Token.ofText text) ∧
      f.rpn = Rpn.ofTokens (Token.ofText text) ∧ f.rpn.toExpr? = .ok f.expr := by
  unfold parse ofTokens
  apply Iff.intro
  · intro h
    cases he : (Rpn.ofTokens (Token.ofText text)).toExpr? with
    | error e => simp [he, Except.map] at h
    | ok e =>
      simp only [he, Except.map, Except.ok.injEq] at h
      subst h
      exact ⟨rfl, rfl, he⟩
  · rcases f with ⟨names, rpn, expr⟩
    rintro ⟨rfl, rfl, he⟩
    rw [he]
    rfl

theorem toExpr?_of_parse {text : String} {f : Formula} (h : parse text = .ok f) :
    f.rpn.toExpr? = .ok f.expr := (parse_eq_ok_iff.mp h).2.2

/-- A formula that was read has the value of its expression. -/
theorem eval_of_parse {text : String} {f : Formula} (h : parse text = .ok f)
    (value : String → Bool) : f.eval value = .ok (f.expr.eval value) :=
  Rpn.eval_eq_of_toExpr? (toExpr?_of_parse h) value

end Formula

end TwoLevel
