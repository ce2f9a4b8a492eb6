import TwoLevel.ProductTerm
import TwoLevel.Proofs.Lexing
import TwoLevel.Proofs.Rows

/-!
# Sums of products as formulas

The text of a sum of products is a sum of the grammar, with each product in parentheses unless it is
a single literal.  Main statements: reading the text gives the left-associated sum of the products
(`parse_renderSum`), whose value in a row tells whether the row is in the cube of some pattern
(`eval_sumExpr_iff_cube`).
-/

namespace TwoLevel

/-- Operands joined by one connective from the left. -/
def Expr.joined (c : Connective) (e : Expr) (es : List Expr) : Expr := es.foldl (.binary c) e

theorem Expr.eval_joined_and (v : String → Bool) (e : Expr) (es : List Expr) :
    (Expr.joined .and e es).eval v = (e :: es).all (·.eval v) := by
  induction es generalizing e with
  | nil => simp [Expr.joined]
  | cons d es ih =>
    have hstep : Expr.joined .and e (d :: es) = Expr.joined .and (.binary .and e d) es := rfl
    rw [hstep, ih]
    simp only [List.all_cons, Expr.eval, Connective.apply, Bool.and_assoc]

theorem Expr.eval_joined_or (v : String → Bool) (e : Expr) (es : List Expr) :
    (Expr.joined .or e es).eval v = (e :: es).any (·.eval v) := by
  induction es generalizing e with
  | nil => simp [Expr.joined]
  | cons d es ih =>
    have hstep : Expr.joined .or e (d :: es) = Expr.joined .or (.binary .or e d) es := rfl
    rw [hstep, ih]
    simp only [List.any_cons, Expr.eval, Connective.apply, Bool.or_assoc]

theorem Expr.names_joined (c : Connective) (e : Expr) (es : List Expr) :
    (Expr.joined c e es).names = (e :: es).flatMap Expr.names := by
  induction es generalizing e with
  | nil => simp [Expr.joined]
  | cons d es ih =>
    have hstep : Expr.joined c e (d :: es) = Expr.joined c (.binary c e d) es := rfl
    rw [hstep, ih]
    simp only [List.flatMap_cons, Expr.names, List.append_assoc]

-- The grammar joins operands one at a time; `hstep` is the rule that does it.
theorem Grammar.derives_joined {α : Type} {c : Connective} {k j : Grammar.Phrase}
    (hstep : ∀ {ts us : List String} {l r : Expr}, Grammar.Derives k ts l →
      Grammar.Derives j us r → Grammar.Derives k (ts ++ c.name :: us) (.binary c l r))
    {words : α → List String} {expr : α → Expr} {xs : List α}
    (hxs : ∀ x ∈ xs, Grammar.Derives j (words x) (expr x)) {ts : List String} {e : Expr}
    (h : Grammar.Derives k ts e) :
    Grammar.Derives k (ts ++ xs.flatMap fun x => c.name :: words x)
      (Expr.joined c e (xs.map expr)) := by
  induction xs generalizing ts e with
  | nil =>
    rw [List.flatMap_nil, List.append_nil]
    exact h
  | cons x xs ih =>
    have hx := hstep h (hxs x List.mem_cons_self)
    have hrest := ih (fun y hy => hxs y (List.mem_cons_of_mem x hy)) hx
    rw [List.flatMap_cons, ← List.append_assoc]
    exact hrest

namespace ProductTerm

open Grammar (Derives)
open Token (IsName IsWord lex)

/-! ## Products -/

def Literal.words (l : Literal) : List String :=
  if l.positive then [l.name] else [Operator.not.name, l.name]

def Literal.toExpr (l : Literal) : Expr :=
  if l.positive then .var l.name else .not (.var l.name)

/-- The product of some literals.  Without any it is the variable that its text would name. -/
def productExpr : List Literal → Expr
  | [] => .var "1"
  | l :: ls => Expr.joined .and l.toExpr (ls.map Literal.toExpr)

theorem lex_literal {l : Literal} (h : IsName l.name) : lex l.render = l.words := by
  have hnot : IsWord Operator.not.name.toList := by decide +kernel
  unfold Literal.render Literal.words
  split
  · exact Token.lex_word h.isWord
  · rw [Token.lex_append_space, Token.lex_word hnot, Token.lex_word h.isWord]
    rfl

theorem derives_words {l : Literal} (h : Grammar.IsVariable l.name) :
    Derives .factor l.words l.toExpr := by
  unfold Literal.words Literal.toExpr
  split
  · exact .ofPrimary (.name h)
  · exact .negation (.name h)

theorem derives_literal {l : Literal} (h : IsName l.name) :
    Derives .factor (lex l.render) l.toExpr := by
  rw [lex_literal h]
  exact derives_words h.isVariable

-- Literals with the connective between them.
theorem derives_productExpr (words : Literal → List String) {l : Literal} {ls : List Literal}
    (h : ∀ t ∈ l :: ls, Derives .factor (words t) t.toExpr) :
    Derives .product (words l ++ ls.flatMap fun t => Connective.and.name :: words t)
      (productExpr (l :: ls)) :=
  Grammar.derives_joined (.product (.inl rfl)) (fun t ht => h t (List.mem_cons_of_mem l ht))
    (.ofFactor (h l List.mem_cons_self))

theorem isName_one : IsName "1" := by
  have hvariable : Grammar.IsVariable "1" := by decide
  have hword : IsWord "1".toList := by decide +kernel
  exact ⟨hvariable, hword⟩

theorem derives_renderLiterals {ls : List Literal} (h : ∀ l ∈ ls, IsName l.name) :
    Derives .product (lex (renderLiterals ls)) (productExpr ls) := by
  match ls, h with
  | [], _ =>
    rw [renderLiterals, Token.lex_word isName_one.isWord]
    exact .ofFactor (.ofPrimary (.name isName_one.isVariable))
  | [l], h =>
    rw [renderLiterals]
    exact .ofFactor (derives_literal (h l List.mem_cons_self))
  | l :: l' :: ls, h =>
    have hand : IsWord Connective.and.name.toList := by decide +kernel
    have hjoined := derives_productExpr (fun t => lex t.render) fun t ht => derives_literal (h t ht)
    have hrender : renderLiterals (l :: l' :: ls) =
        "(" ++ conjunction.intercalate ((l :: l' :: ls).map Literal.render) ++ ")" := rfl
    rw [hrender, Token.lex_parens, conjunction, List.map_cons, Token.lex_intercalate hand,
      List.flatMap_map]
    exact .ofFactor (.ofPrimary (.parens (.ofProduct hjoined)))

theorem eval_literal (v : String → Bool) (l : Literal) :
    l.toExpr.eval v = (v l.name == l.positive) := by
  unfold Literal.toExpr
  split
  · rename_i hpos
    rw [Expr.eval, hpos]
    cases v l.name <;> rfl
  · rename_i hneg
    rw [Bool.not_eq_true] at hneg
    rw [Expr.eval, Expr.eval, hneg]
    cases v l.name <;> rfl

theorem eval_productExpr (v : String → Bool) {ls : List Literal} (hne : ls ≠ []) :
    (productExpr ls).eval v = ls.all fun l => v l.name == l.positive := by
  cases ls with
  | nil => exact absurd rfl hne
  | cons l ls =>
    rw [productExpr, Expr.eval_joined_and, List.all_cons, List.all_cons, eval_literal, List.all_map]
    congr 1
    apply congrArg
    funext t
    exact eval_literal v t

theorem names_literal (l : Literal) : l.toExpr.names = [l.name] := by
  unfold Literal.toExpr
  split <;> rfl

theorem names_productExpr {ls : List Literal} (hne : ls ≠ []) :
    (productExpr ls).names = ls.map Literal.name := by
  cases ls with
  | nil => exact absurd rfl hne
  | cons l ls =>
    rw [productExpr, Expr.names_joined, List.flatMap_cons, names_literal, List.flatMap_map,
      List.map_cons, List.singleton_append, ← List.flatMap_pure_eq_map]
    exact congrArg (l.name :: ·) (List.flatMap_congr fun t _ => names_literal t)

/-! ## Literals of a pattern -/

theorem mem_names_of_mem_literals {bits : Pattern} {names : List String} {l : Literal}
    (h : l ∈ literals bits names) : l.name ∈ names := by
  rcases List.mem_filterMap.mp h with ⟨⟨c, name⟩, hzip, hl⟩
  have hname : l.name = name := by
    dsimp only at hl
    split at hl
    · cases hl; rfl
    · split at hl
      · cases hl; rfl
      · cases hl
  rw [hname]
  exact (List.of_mem_zip hzip).2

theorem literals_cons (c : Char) (bits : Pattern) (name : String) (names : List String) :
    literals (c :: bits) (name :: names) =
      if c = '1' then ⟨name, true⟩ :: literals bits names
      else if c = '0' then ⟨name, false⟩ :: literals bits names
      else literals bits names := by
  unfold literals
  rw [List.zip_cons_cons, List.filterMap_cons]
  dsimp only
  split_ifs <;> rfl

-- The literals of a term hold under the values whose digits the term admits.
theorem all_literals_iff {bits : Pattern} {names : List String}
    (h : Pattern.IsTerm names.length bits) (v : String → Bool) :
    ((literals bits names).all fun l => v l.name == l.positive) = true ↔
      bits.Admits (names.map fun name => Assignment.digit (v name)) := by
  induction bits generalizing names with
  | nil =>
    have hlen := h.length_eq
    rw [List.length_nil] at hlen
    rw [List.eq_nil_of_length_eq_zero hlen.symm]
    simp [literals, Pattern.Admits]
  | cons c bits ih =>
    cases names with
    | nil => exact absurd h.length_eq (by simp)
    | cons name names =>
      rw [literals_cons, List.map_cons, Pattern.admits_cons_iff, ← ih h.of_cons]
      rcases h.places c List.mem_cons_self with rfl | rfl | rfl
      · cases hv : v name <;> simp [Assignment.digit, hv]
      · cases hv : v name <;> simp [Assignment.digit, hv]
      · simp

/-! ## Sums -/

/-- The sum of the products of some implicants.  Without any there is no such sum, and the default
stands for it. -/
def sumExpr (names : List String) : List Implicant → Expr
  | [] => .var ""
  | x :: xs =>
    Expr.joined .or (productExpr (literals x.bits names))
      (xs.map fun y => productExpr (literals y.bits names))

-- The variables of a sum are the names of its literals.
theorem mem_names_sumExpr {names : List String} {selected : List Implicant} (hne : selected ≠ [])
    (hliterals : ∀ x ∈ selected, literals x.bits names ≠ []) {name : String} :
    name ∈ (sumExpr names selected).names ↔
      ∃ x ∈ selected, ∃ l ∈ literals x.bits names, l.name = name := by
  have hproducts : (sumExpr names selected).names =
      selected.flatMap fun x => (productExpr (literals x.bits names)).names := by
    cases selected with
    | nil => exact absurd rfl hne
    | cons x xs =>
      rw [sumExpr, Expr.names_joined, List.flatMap_cons, List.flatMap_map, List.flatMap_cons]
  rw [hproducts, List.mem_flatMap]
  apply exists_congr
  intro x
  apply and_congr_right
  intro hx
  rw [names_productExpr (hliterals x hx), List.mem_map]

theorem derives_renderSum {names : List String} (hnames : ∀ name ∈ names, IsName name)
    {selected : List Implicant} (hne : selected ≠ []) :
    Derives .sum (lex (renderSum selected names)) (sumExpr names selected) := by
  have hor : IsWord Connective.or.name.toList := by decide +kernel
  have hproduct (x : Implicant) :
      Derives .product (lex (render x.bits names)) (productExpr (literals x.bits names)) :=
    derives_renderLiterals fun l hl => hnames l.name (mem_names_of_mem_literals hl)
  cases selected with
  | nil => exact absurd rfl hne
  | cons x xs =>
    rw [renderSum, disjunction, List.map_cons, Token.lex_intercalate hor, List.flatMap_map]
    exact Grammar.derives_joined (.sum (.inl rfl)) (fun y _ => hproduct y) (.ofProduct (hproduct x))

/-- The text of a sum of products over names of formulas is read as the sum. -/
theorem parse_renderSum {names : List String} (hnames : ∀ name ∈ names, IsName name)
    {selected : List Implicant} (hne : selected ≠ []) :
    Formula.parse (renderSum selected names) =
      .ok ⟨Token.operandNames (Token.ofText (renderSum selected names)),
        Rpn.ofExpr (sumExpr names selected), sumExpr names selected⟩ :=
  Formula.parse_of_derives (derives_renderSum hnames hne)

theorem eval_sumExpr {names : List String} {selected : List Implicant} (hne : selected ≠ [])
    (v : String → Bool) : (sumExpr names selected).eval v =
      selected.any fun x => (productExpr (literals x.bits names)).eval v := by
  cases selected with
  | nil => exact absurd rfl hne
  | cons x xs =>
    rw [sumExpr, Expr.eval_joined_or, List.any_cons, List.any_cons, List.any_map]
    rfl

/-- In a row the sum of terms with literals is true exactly if one of them admits the row. -/
theorem eval_sumExpr_iff {names : List String} (hnodup : names.Nodup) {selected : List Implicant}
    (hne : selected ≠ []) (hterm : ∀ x ∈ selected, Pattern.IsTerm names.length x.bits)
    (hliterals : ∀ x ∈ selected, literals x.bits names ≠ []) (n : Nat) :
    (sumExpr names selected).eval (Assignment.ofRow n names).value = true ↔
      ∃ x ∈ selected, x.bits.Admits (Pattern.lowBits names.length n) := by
  have hproduct (x : Implicant) (hx : x ∈ selected) :
      (productExpr (literals x.bits names)).eval (Assignment.ofRow n names).value = true ↔
        x.bits.Admits (Pattern.lowBits names.length n) := by
    rw [eval_productExpr _ (hliterals x hx), all_literals_iff (hterm x hx),
      Assignment.digits_ofRow hnodup]
  rw [eval_sumExpr hne, List.any_eq_true]
  exact exists_congr fun x => and_congr_right fun hx => hproduct x hx

-- The rows in which the sum is true are those of the cubes.
theorem eval_sumExpr_iff_cube {names : List String} (hnodup : names.Nodup)
    {selected : List Implicant} (hne : selected ≠ [])
    (hterm : ∀ x ∈ selected, Pattern.IsTerm names.length x.bits)
    (hliterals : ∀ x ∈ selected, literals x.bits names ≠ []) {n : Nat}
    (hn : n < 2 ^ names.length) :
    (sumExpr names selected).eval (Assignment.ofRow n names).value = true ↔
      ∃ x ∈ selected, (n : Int) ∈ x.bits.cube := by
  rw [eval_sumExpr_iff hnodup hne hterm hliterals]
  apply exists_congr
  intro x
  apply and_congr_right
  intro hx
  exact (Pattern.natCast_mem_cube (hterm x hx).length_eq hn).symm

end ProductTerm

end TwoLevel
