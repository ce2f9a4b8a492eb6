import TwoLevel.Expr

/-!
# Ring expressions

Sums modulo two and products of names, in which `1 + e` is the negation of `e`. The sum `a + b` and
the product `a * b` keep their operands flat and in ascending order, let equal addends cancel and
equal factors coincide. So expressions that differ in the order and the grouping of their operands
have one form, which no search has to tell apart. Main statements: `RingExpr.eval_add`,
`RingExpr.eval_mul` and `RingExpr.eval_ofExpr`, by which the forms keep the values.
-/

namespace TwoLevel

inductive RingExpr where
  | zero
  | one
  | var (name : String)
  | times (factor rest : RingExpr)
  | plus (addend rest : RingExpr)
deriving DecidableEq, Repr

namespace RingExpr

def eval (value : String → Bool) : RingExpr → Bool
  | .zero => false
  | .one => true
  | .var name => value name
  | .times x r => x.eval value && r.eval value
  | .plus x r => x.eval value ^^ r.eval value

def names : RingExpr → List String
  | .zero => []
  | .one => []
  | .var name => [name]
  | .times x r => x.names ++ r.names
  | .plus x r => x.names ++ r.names

theorem eval_congr {v w : String → Bool} {e : RingExpr} (h : ∀ n ∈ e.names, v n = w n) :
    e.eval v = e.eval w := by
  induction e with
  | zero | one => rfl
  | var name => exact h name (by simp [names])
  | times x r ihx ihr | plus x r ihx ihr =>
    simp only [names, List.mem_append] at h
    simp [eval, ihx fun n hn => h n (.inl hn), ihr fun n hn => h n (.inr hn)]

/-! ## The order of operands -/

/-- The place of the outermost constructor in the order. -/
def rank : RingExpr → Nat
  | .zero => 0
  | .one => 1
  | .var _ => 2
  | .times _ _ => 3
  | .plus _ _ => 4

/-- Compares constructor by constructor, names by their characters. -/
def compare : RingExpr → RingExpr → Ordering
  | .var m, .var n => Ord.compare m n
  | .times x r, .times y s => (x.compare y).then (r.compare s)
  | .plus x r, .plus y s => (x.compare y).then (r.compare s)
  | a, b => Ord.compare a.rank b.rank

/-! ## Sums -/

/-- The first addend and the sum of the others. -/
def splitSum : RingExpr → RingExpr × RingExpr
  | .plus x r => (x, r)
  | e => (e, .zero)

def addends : RingExpr → Nat
  | .zero => 0
  | .plus _ r => r.addends + 1
  | _ => 1

/-- A sum with one more addend in front. -/
def consSum (x : RingExpr) : RingExpr → RingExpr
  | .zero => x
  | r => .plus x r

theorem eval_splitSum (v : String → Bool) (e : RingExpr) :
    (e.splitSum.1.eval v ^^ e.splitSum.2.eval v) = e.eval v := by
  cases e <;> simp [splitSum, eval]

theorem length_names_splitSum (e : RingExpr) :
    e.splitSum.1.names.length + e.splitSum.2.names.length = e.names.length := by
  cases e <;> simp [splitSum, names]

theorem addends_splitSum_lt {e : RingExpr} (h : e ≠ .zero) : e.splitSum.2.addends < e.addends := by
  cases e <;> simp_all [splitSum, addends]

theorem eval_consSum (v : String → Bool) (x r : RingExpr) :
    (consSum x r).eval v = (x.eval v ^^ r.eval v) := by
  cases r <;> simp [consSum, eval]

theorem length_names_consSum (x r : RingExpr) :
    (consSum x r).names.length = x.names.length + r.names.length := by
  cases r <;> simp [consSum, names]

/-- The sum modulo two: the addends of both in ascending order, without those that both have. -/
def add (a b : RingExpr) : RingExpr :=
  if _ha : a = .zero then b
  else if _hb : b = .zero then a
  else
    let x := a.splitSum
    let y := b.splitSum
    if x.1 = y.1 then add x.2 y.2
    else if x.1.compare y.1 = .lt then consSum x.1 (add x.2 b)
    else consSum y.1 (add a y.2)
termination_by a.addends + b.addends
decreasing_by
  · have := addends_splitSum_lt _ha
    have := addends_splitSum_lt _hb
    omega
  · have := addends_splitSum_lt _ha
    omega
  · have := addends_splitSum_lt _hb
    omega

instance : Add RingExpr := ⟨add⟩

theorem eval_add (v : String → Bool) (a b : RingExpr) :
    (a + b).eval v = (a.eval v ^^ b.eval v) := by
  show (add a b).eval v = _
  fun_induction add a b with
  | case1 => simp [eval]
  | case2 => simp [eval]
  | case3 a b _ _ x y h ih =>
    rw [ih, ← eval_splitSum v a, ← eval_splitSum v b, show a.splitSum.1 = b.splitSum.1 from h]
    cases b.splitSum.1.eval v <;> simp [x, y]
  | case4 a b _ _ x y _ _ ih =>
    rw [eval_consSum, ih, ← eval_splitSum v a, Bool.xor_assoc]
  | case5 a b _ _ x y _ _ ih =>
    rw [eval_consSum, ih, ← eval_splitSum v b, Bool.xor_left_comm]

theorem length_names_add_le (a b : RingExpr) :
    (a + b).names.length ≤ a.names.length + b.names.length := by
  show (add a b).names.length ≤ _
  fun_induction add a b with
  | case1 => simp [names]
  | case2 => simp [names]
  | case3 a b _ _ x y _ ih =>
    have := length_names_splitSum a
    have := length_names_splitSum b
    simp only [x, y] at ih ⊢
    omega
  | case4 a b _ _ x y _ _ ih =>
    have := length_names_splitSum a
    rw [length_names_consSum]
    simp only [x] at ih ⊢
    omega
  | case5 a b _ _ x y _ _ ih =>
    have := length_names_splitSum b
    rw [length_names_consSum]
    simp only [y] at ih ⊢
    omega

/-! ## Products -/

/-- The first factor and the product of the others. -/
def splitProduct : RingExpr → RingExpr × RingExpr
  | .times x r => (x, r)
  | e => (e, .one)

def factors : RingExpr → Nat
  | .one => 0
  | .times _ r => r.factors + 1
  | _ => 1

/-- A product with one more factor in front. -/
def consProduct (x : RingExpr) : RingExpr → RingExpr
  | .zero => .zero
  | .one => x
  | r => .times x r

/-- What a factor has in common with its negation; factors are ordered by it. -/
def core : RingExpr → RingExpr
  | .plus .one r => r
  | e => e

theorem eval_splitProduct (v : String → Bool) (e : RingExpr) :
    (e.splitProduct.1.eval v && e.splitProduct.2.eval v) = e.eval v := by
  cases e <;> simp [splitProduct, eval]

theorem length_names_splitProduct (e : RingExpr) :
    e.splitProduct.1.names.length + e.splitProduct.2.names.length = e.names.length := by
  cases e <;> simp [splitProduct, names]

theorem factors_splitProduct_lt {e : RingExpr} (h : e ≠ .one) :
    e.splitProduct.2.factors < e.factors := by
  cases e <;> simp_all [splitProduct, factors]

theorem eval_consProduct (v : String → Bool) (x r : RingExpr) :
    (consProduct x r).eval v = (x.eval v && r.eval v) := by
  cases r <;> simp [consProduct, eval]

theorem length_names_consProduct_le (x r : RingExpr) :
    (consProduct x r).names.length ≤ x.names.length + r.names.length := by
  cases r <;> simp [consProduct, names]

theorem eq_or_eq_core (e : RingExpr) : e = .plus .one e.core ∨ e = e.core := by
  unfold core
  split
  · exact .inl rfl
  · exact .inr rfl

-- Of two unequal factors with one core, one is the negation of the other.
theorem eval_of_core_eq {v : String → Bool} {x y : RingExpr} (h : x.core = y.core) (hne : x ≠ y) :
    (x.eval v && y.eval v) = false := by
  rcases eq_or_eq_core x with hx | hx <;> rcases eq_or_eq_core y with hy | hy
  · exact absurd (by rw [hx, hy, h]) hne
  · rw [hx, hy, h]
    simp [eval]
  · rw [hx, hy, h]
    simp [eval]
  · exact absurd (by rw [hx, hy, h]) hne

/-- The product: the factors of both in ascending order, each once. It is zero where a factor meets
its negation. -/
def mul (a b : RingExpr) : RingExpr :=
  if a = .zero ∨ b = .zero then .zero
  else if _ha : a = .one then b
  else if _hb : b = .one then a
  else
    let x := a.splitProduct
    let y := b.splitProduct
    if x.1.core = y.1.core then
      if x.1 = y.1 then consProduct x.1 (mul x.2 y.2) else .zero
    else if x.1.core.compare y.1.core = .lt then consProduct x.1 (mul x.2 b)
    else consProduct y.1 (mul a y.2)
termination_by a.factors + b.factors
decreasing_by
  · have := factors_splitProduct_lt _ha
    have := factors_splitProduct_lt _hb
    omega
  · have := factors_splitProduct_lt _ha
    omega
  · have := factors_splitProduct_lt _hb
    omega

instance : Mul RingExpr := ⟨mul⟩

theorem eval_mul (v : String → Bool) (a b : RingExpr) :
    (a * b).eval v = (a.eval v && b.eval v) := by
  show (mul a b).eval v = _
  fun_induction mul a b with
  | case1 a b h => rcases h with rfl | rfl <;> simp [eval]
  | case2 => simp [eval]
  | case3 => simp [eval]
  | case4 a b _ _ _ x y _ h ih =>
    rw [eval_consProduct, ih, ← eval_splitProduct v a, ← eval_splitProduct v b,
      show a.splitProduct.1 = b.splitProduct.1 from h]
    cases b.splitProduct.1.eval v <;> simp [x, y]
  | case5 a b _ _ _ x y h hne =>
    have := eval_of_core_eq (v := v) h hne
    rw [← eval_splitProduct v a, ← eval_splitProduct v b]
    cases hx : x.1.eval v <;> simp_all [eval, x, y]
  | case6 a b _ _ _ x y _ _ ih =>
    rw [eval_consProduct, ih, ← eval_splitProduct v a, Bool.and_assoc]
  | case7 a b _ _ _ x y _ _ ih =>
    rw [eval_consProduct, ih, ← eval_splitProduct v b, Bool.and_left_comm]

theorem length_names_mul_le (a b : RingExpr) :
    (a * b).names.length ≤ a.names.length + b.names.length := by
  show (mul a b).names.length ≤ _
  fun_induction mul a b with
  | case1 => simp [names]
  | case2 => simp [names]
  | case3 => simp [names]
  | case4 a b _ _ _ x y _ _ ih =>
    have := length_names_splitProduct a
    have := length_names_splitProduct b
    have := length_names_consProduct_le x.1 (mul x.2 y.2)
    simp only [x, y] at this ih ⊢
    omega
  | case5 => simp [names]
  | case6 a b _ _ _ x y _ _ ih =>
    have := length_names_splitProduct a
    have := length_names_consProduct_le x.1 (mul x.2 b)
    simp only [x] at this ih ⊢
    omega
  | case7 a b _ _ _ x y _ _ ih =>
    have := length_names_splitProduct b
    have := length_names_consProduct_le y.1 (mul a y.2)
    simp only [y] at this ih ⊢
    omega

/-! ## From expressions -/

def ofExpr : Expr → RingExpr
  | .var name => .var name
  | .not e => .one + ofExpr e
  | .binary .and l r => ofExpr l * ofExpr r
  | .binary .nand l r => .one + ofExpr l * ofExpr r
  | .binary .or l r => .one + (.one + ofExpr l) * (.one + ofExpr r)
  | .binary .nor l r => (.one + ofExpr l) * (.one + ofExpr r)
  | .binary .xor l r => ofExpr l + ofExpr r

theorem eval_ofExpr (v : String → Bool) (e : Expr) : (ofExpr e).eval v = e.eval v := by
  induction e with
  | var name => rfl
  | not e ih => simp [ofExpr, Expr.eval, eval_add, eval, ih]
  | binary c l r ihl ihr =>
    cases c <;> simp [ofExpr, Expr.eval, Connective.apply, eval_add, eval_mul, eval, ihl, ihr]

end RingExpr

end TwoLevel
