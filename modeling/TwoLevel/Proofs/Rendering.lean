import TwoLevel.Proofs.ReversePolish

/-!
# Rendered expressions

The text of an expression has parentheses around every operator, so that as a phrase each of its
parts is a primary and no precedence is at work.  Main statement: the text of any expression over
plain names is read as that expression (`parse_render`).
-/

namespace TwoLevel

namespace Token

open Unicode (isBlank upper)

/-- A name that can stand in a text by itself: one word in upper case that is neither a parenthesis
nor an operator. -/
structure IsPlain (name : String) : Prop where
  ne_empty : name ≠ ""
  not_blank : ∀ c ∈ name.toList, isBlank c = false
  not_paren : ∀ c ∈ name.toList, c ≠ '(' ∧ c ≠ ')'
  upper_eq : upper name.toList = name.toList
  ne_operator : ∀ o ∈ Operator.all, name ≠ o.name

-- As with `IsWord` the test runs over the characters of the name.
instance (name : String) : Decidable (IsPlain name) :=
  decidable_of_iff
    (name ≠ "" ∧ name.toList.all (fun c => isBlank c = false) = true ∧
      name.toList.all (fun c => c ≠ '(' ∧ c ≠ ')') = true ∧ upper name.toList = name.toList ∧
      ∀ o ∈ Operator.all, name ≠ o.name)
    (by
      simp only [List.all_eq_true, decide_eq_true_eq]
      exact ⟨fun h => ⟨h.1, h.2.1, h.2.2.1, h.2.2.2.1, h.2.2.2.2⟩,
        fun h => ⟨h.ne_empty, h.not_blank, h.not_paren, h.upper_eq, h.ne_operator⟩⟩)

theorem IsPlain.isWord {name : String} (h : IsPlain name) : IsWord name.toList := by
  have hne : name.toList ≠ [] := by
    intro he
    exact h.ne_empty (String.toList_eq_nil_iff.mp he)
  refine ⟨hne, ?_⟩
  intro c hc
  -- upper case of the whole name has every character of it, so each is final by itself
  have hupper : c ∈ upper name.toList := by rw [h.upper_eq]; exact hc
  exact ⟨h.not_blank c hc, (h.not_paren c hc).1, (h.not_paren c hc).2,
    Unicode.upperChar_of_mem_upper hupper⟩

theorem IsPlain.isName {name : String} (h : IsPlain name) : IsName name := by
  have hparen (paren : Char) (hp : paren = '(' ∨ paren = ')') :
      name ≠ String.ofList [paren] := by
    intro he
    have hmem : paren ∈ name.toList := by rw [he]; simp
    rcases h.not_paren paren hmem with ⟨hl, hr⟩
    exact hp.elim hl hr
  have hvariable : Grammar.IsVariable name :=
    ⟨hparen '(' (.inl rfl), hparen ')' (.inr rfl),
      fun o => h.ne_operator o (Operator.mem_all o)⟩
  exact ⟨hvariable, h.isWord⟩

end Token

namespace Grammar

open Token (IsName lex)

theorem lex_render_not (e : Expr) :
    lex (Expr.not e).render = "(" :: (Operator.not.name :: lex e.render) ++ [")"] := by
  have hrender : (Expr.not e).render = "(" ++ (Operator.not.name ++ " " ++ e.render) ++ ")" := by
    simp only [Expr.render, String.append_assoc]
  rw [hrender, Token.lex_parens, Token.lex_append_space, Token.lex_word (Token.isWord_name .not)]
  rfl

theorem lex_render_binary (c : Connective) (l r : Expr) :
    lex (Expr.binary c l r).render = "(" :: (lex l.render ++ c.name :: lex r.render) ++ [")"] := by
  have hrender : (Expr.binary c l r).render =
      "(" ++ (l.render ++ (" " ++ c.name ++ " ") ++ r.render) ++ ")" := by
    simp only [Expr.render, String.append_assoc]
  have hword : Token.IsWord c.name.toList := Token.isWord_name (.binary c)
  rw [hrender, Token.lex_parens, Token.lex_append_word hword]

-- A primary is a sum and a factor as well, so a connective of either kind can join two of them.
theorem derives_binary {c : Connective} {ts us : List String} {l r : Expr}
    (hl : Derives .primary ts l) (hr : Derives .primary us r) :
    Derives .sum (ts ++ c.name :: us) (.binary c l r) := by
  have hloose (hc : c = .or ∨ c = .nor ∨ c = .xor) :
      Derives .sum (ts ++ c.name :: us) (.binary c l r) :=
    .sum hc (.ofProduct (.ofFactor (.ofPrimary hl))) (.ofFactor (.ofPrimary hr))
  have htight (hc : c = .and ∨ c = .nand) :
      Derives .sum (ts ++ c.name :: us) (.binary c l r) :=
    .ofProduct (.product hc (.ofFactor (.ofPrimary hl)) (.ofPrimary hr))
  cases c with
  | and => exact htight (.inl rfl)
  | nand => exact htight (.inr rfl)
  | or => exact hloose (.inl rfl)
  | nor => exact hloose (.inr (.inl rfl))
  | xor => exact hloose (.inr (.inr rfl))

theorem derives_render {e : Expr} (h : ∀ name ∈ e.names, IsName name) :
    Derives .primary (lex e.render) e := by
  induction e with
  | var name =>
    have hname := h name (by simp [Expr.names])
    rw [Expr.render, Token.lex_word hname.isWord]
    exact .name hname.isVariable
  | not e ih =>
    rw [lex_render_not]
    exact .parens (.ofProduct (.ofFactor (.negation (ih h))))
  | binary c l r ihl ihr =>
    simp only [Expr.names, List.mem_append] at h
    rw [lex_render_binary]
    exact .parens (derives_binary (ihl fun n hn => h n (.inl hn)) (ihr fun n hn => h n (.inr hn)))

end Grammar

namespace Formula

/-- The text of an expression over plain names is read as that expression, and the names of the
formula are the leaves of the expression, each once and in ascending order. -/
theorem parse_render {e : Expr} (h : ∀ name ∈ e.names, Token.IsPlain name) :
    parse e.render = .ok ⟨SortedSet.ofList e.names, Rpn.ofExpr e, e⟩ := by
  have hprimary := Grammar.derives_render fun name hname => (h name hname).isName
  have hderives : Grammar.Derives .sum (Token.lex e.render) e :=
    .ofProduct (.ofFactor (.ofPrimary hprimary))
  have hrpn : Rpn.ofTokens (Token.ofText e.render) = Rpn.ofExpr e :=
    Grammar.ofTokens_of_derives hderives
  have hparse : parse e.render =
      .ok ⟨Token.operandNames (Token.ofText e.render), Rpn.ofExpr e, e⟩ := by
    rw [parse, ofTokens, hrpn, Grammar.build_of_derives hderives]
    rfl
  have hnames := names_eq_of_parse hparse
  rw [hparse]
  dsimp only at hnames
  rw [hnames]

-- Without the parentheses around it a negated negation would not be read.
theorem parse_render_nested_negation :
    parse (Expr.not (.not (.binary .nand (.var "É") (.not (.var "1"))))).render =
      .ok ⟨SortedSet.ofList ["É", "1"],
        Rpn.ofExpr (.not (.not (.binary .nand (.var "É") (.not (.var "1"))))),
        .not (.not (.binary .nand (.var "É") (.not (.var "1"))))⟩ := by
  have hnames : ∀ name ∈ ["É", "1"], Token.IsPlain name := by decide +kernel
  exact parse_render (e := .not (.not (.binary .nand (.var "É") (.not (.var "1"))))) hnames

end Formula

end TwoLevel
