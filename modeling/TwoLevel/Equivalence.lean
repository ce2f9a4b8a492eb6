import TwoLevel.RingExpr.Satisfiable

/-!
# Equivalence

Two expressions are equivalent if no assignment of the names tells them apart, and that is whether
the sum modulo two of their forms is satisfiable. Main statements: `Expr.equivalent_iff` and
`Expr.constantly_iff`. Whoever asks for equivalence may use any test that answers rightly; this
search is one (`EquivalenceTest.ringSearch`).
-/

namespace TwoLevel

namespace Expr

/-- Whether two expressions agree under every assignment of their names. -/
def equivalent (a b : Expr) : Bool :=
  !(RingExpr.ofExpr a + RingExpr.ofExpr b).satisfiable

theorem equivalent_iff {a b : Expr} : a.equivalent b = true ↔ ∀ v, a.eval v = b.eval v := by
  rw [equivalent, Bool.not_eq_true', ← Bool.not_eq_true, RingExpr.satisfiable_iff]
  simp [RingExpr.eval_add, RingExpr.eval_ofExpr]

/-- Whether an expression has one value under every assignment of its names. -/
def constantly (e : Expr) (b : Bool) : Bool :=
  !(if b then .one + RingExpr.ofExpr e else RingExpr.ofExpr e).satisfiable

theorem constantly_iff {e : Expr} {b : Bool} : e.constantly b = true ↔ ∀ v, e.eval v = b := by
  rw [constantly, Bool.not_eq_true', ← Bool.not_eq_true, RingExpr.satisfiable_iff]
  cases b <;> simp [RingExpr.eval_add, RingExpr.eval_ofExpr, RingExpr.eval]

end Expr

/-- A test of equivalence: whether two expressions agree under every assignment, and whether one has
a single value under every assignment. Of how it finds out nothing is asked. -/
structure EquivalenceTest where
  equivalent : Expr → Expr → Bool
  equivalent_iff : ∀ {a b : Expr}, equivalent a b = true ↔ ∀ v, a.eval v = b.eval v
  constantly : Expr → Bool → Bool
  constantly_iff : ∀ {e : Expr} {b : Bool}, constantly e b = true ↔ ∀ v, e.eval v = b

/-- The test by satisfiability of sums modulo two. -/
def EquivalenceTest.ringSearch : EquivalenceTest :=
  ⟨Expr.equivalent, Expr.equivalent_iff, Expr.constantly, Expr.constantly_iff⟩

end TwoLevel
