import TwoLevel.Proofs.Conservation

/-!
# Putting accepted texts together

A text that is read has balanced parentheses, and reading a balanced stretch never takes off the
stack what waited before it, wherever its operators stand.  So texts that are read may be put in
parentheses, negated and joined, as the expressions they stand for are.  Main statements: balanced
tokens are read as they are read alone (`readsAs_of_balanced`), and what the composed texts are read
as (`parse_compose`).
-/

namespace TwoLevel

namespace Rpn

/-! ## Balanced stretches -/

-- An operator releases nothing below a stack that lets it wait.
theorem precedes_append_of_stops {o : Operator} {below : List Pending}
    (h : Stops o.precedence below) (top : List Pending) :
    (top ++ below).takeWhile (Pending.precedes o) = top.takeWhile (Pending.precedes o) ∧
      (top ++ below).dropWhile (Pending.precedes o) =
        top.dropWhile (Pending.precedes o) ++ below := by
  induction top with
  | nil => exact ⟨takeWhile_precedes_of_stops h, dropWhile_precedes_of_stops h⟩
  | cons p top ih =>
    by_cases hp : p.precedes o = true
    · rw [List.cons_append, List.takeWhile_cons_of_pos hp, List.takeWhile_cons_of_pos hp,
        List.dropWhile_cons_of_pos hp, List.dropWhile_cons_of_pos hp, ih.1]
      exact ⟨rfl, ih.2⟩
    · rw [List.cons_append, List.takeWhile_cons_of_neg hp, List.takeWhile_cons_of_neg hp,
        List.dropWhile_cons_of_neg hp, List.dropWhile_cons_of_neg hp]
      exact ⟨rfl, rfl⟩

-- The operators of the stretch itself may wait above a stack that lets every operator wait.  They
-- come and go by the stretch alone, so what it releases does not depend on what waits below.
theorem reorder_of_balanced {tokens : List Token} (h : Token.Balanced tokens)
    (pend : List Pending) (hpend : ∀ p ∈ pend, Binds 0 p) :
    ∃ (out : Rpn) (pend' : List Pending), (∀ p ∈ pend', Binds 0 p) ∧
      ∀ waiting, Stops 0 waiting → ∀ rest,
        reorder (tokens ++ rest) (pend ++ waiting) = out ++ reorder rest (pend' ++ waiting) := by
  induction h generalizing pend with
  | nil => exact ⟨[], pend, hpend, fun _ _ _ => rfl⟩
  | operand name _ ih =>
    rcases ih pend hpend with ⟨out, pend', hpend', hrun⟩
    refine ⟨.operand name :: out, pend', hpend', ?_⟩
    intro waiting hstop rest
    rw [List.cons_append, reorder, hrun waiting hstop rest, List.cons_append]
  | operator o _ ih =>
    have hkept : ∀ p ∈ .operator o :: pend.dropWhile (Pending.precedes o), Binds 0 p := by
      intro p hp
      rcases List.mem_cons.mp hp with rfl | hp
      · exact Nat.zero_le _
      · exact hpend p ((List.dropWhile_suffix _).mem hp)
    rcases ih _ hkept with ⟨out, pend', hpend', hrun⟩
    refine ⟨(pend.takeWhile (Pending.precedes o)).map Pending.item ++ out, pend', hpend', ?_⟩
    intro waiting hstop rest
    have hbelow : Stops o.precedence waiting := hstop.mono (Nat.zero_le _)
    rcases precedes_append_of_stops hbelow pend with ⟨htake, hdrop⟩
    rw [List.cons_append, reorder, htake, hdrop, ← List.cons_append, hrun waiting hstop rest,
      List.append_assoc]
  | @parens inner outer _ _ ihinner ihouter =>
    rcases ihinner [] (by simp) with ⟨out, released, hreleased, hrun⟩
    rcases ihouter pend hpend with ⟨out', pend', hpend', hrun'⟩
    refine ⟨out ++ released.map Pending.item ++ out', pend', hpend', ?_⟩
    intro waiting hstop rest
    -- inside, the opened parenthesis is what lets every operator wait
    have hinside := hrun (.opened :: (pend ++ waiting)) trivial (.rparen :: (outer ++ rest))
    rw [List.nil_append] at hinside
    calc reorder (.lparen :: inner ++ .rparen :: outer ++ rest) (pend ++ waiting)
        = reorder (inner ++ .rparen :: (outer ++ rest)) (.opened :: (pend ++ waiting)) := by
          rw [List.append_assoc, List.cons_append, List.cons_append, reorder]
      _ = out ++ (released.map Pending.item ++ reorder (outer ++ rest) (pend ++ waiting)) := by
          rw [hinside, reorder_rparen _ hreleased]
      _ = out ++ released.map Pending.item ++ out' ++ reorder rest (pend' ++ waiting) := by
          rw [hrun' waiting hstop rest]
          simp only [List.append_assoc]

/-- Balanced tokens are read in parentheses, or before a closing one, as they are read alone. -/
theorem readsAs_of_balanced {tokens : List Token} (h : Token.Balanced tokens) :
    ReadsAs 0 tokens (ofTokens tokens) := by
  rcases reorder_of_balanced h [] (by simp) with ⟨out, pend, hpend, hrun⟩
  have hreads : ReadsAs 0 tokens (out ++ pend.map Pending.item) := ⟨out, pend, hpend, rfl, hrun⟩
  rw [hreads.ofTokens_eq]
  exact hreads

/-! ## Sequences that build expressions -/

theorem toExpr?_not {items : Rpn} {e : Expr} (h : toExpr? items = .ok e) :
    toExpr? (items ++ [.operator .not]) = .ok (.not e) := by
  have hnames : ∀ n ∈ (Expr.not e).names, n ≠ "(" ∧ n ≠ ")" :=
    fun n hn => not_paren_of_mem_names h n hn
  rw [eq_ofExpr_of_toExpr? h]
  exact toExpr?_ofExpr hnames

theorem toExpr?_binary {c : Connective} {s t : Rpn} {l r : Expr} (hl : toExpr? s = .ok l)
    (hr : toExpr? t = .ok r) :
    toExpr? (s ++ t ++ [.operator (.binary c)]) = .ok (.binary c l r) := by
  have hnames : ∀ n ∈ (Expr.binary c l r).names, n ≠ "(" ∧ n ≠ ")" := by
    intro n hn
    rcases List.mem_append.mp hn with hn | hn
    · exact not_paren_of_mem_names hl n hn
    · exact not_paren_of_mem_names hr n hn
  rw [eq_ofExpr_of_toExpr? hl, eq_ofExpr_of_toExpr? hr]
  exact toExpr?_ofExpr hnames

end Rpn

/-! ## Tokens of composed texts -/

namespace Token

theorem ofText_parens (s : String) :
    ofText ("(" ++ s ++ ")") = .lparen :: ofText s ++ [.rparen] := by
  rw [ofText, lex_parens, List.map_append]
  rfl

theorem ofText_append_operator (s t : String) (o : Operator) :
    ofText (s ++ (" " ++ o.name ++ " ") ++ t) = ofText s ++ .operator o :: ofText t := by
  rw [ofText, lex_append_word (isWord_name o), List.map_append, List.map_cons,
    Grammar.ofWord_name]
  rfl

theorem operandNames_append (ts us : List Token) :
    operandNames (ts ++ us) = operandNames ts ∪ operandNames us := by
  apply SortedSet.ext
  intro name
  rw [SortedSet.mem_union, mem_operandNames, mem_operandNames, mem_operandNames, List.mem_append]

theorem operandNames_parens (ts : List Token) :
    operandNames (.lparen :: ts ++ [.rparen]) = operandNames ts := by
  apply SortedSet.ext
  intro name
  simp [mem_operandNames]

end Token

/-! ## Formulas of composed texts -/

namespace Formula

variable {s t : String} {f g : Formula}

theorem readsAs_of_parse (h : parse s = .ok f) : Rpn.ReadsAs 0 (Token.ofText s) f.rpn := by
  rw [(parse_eq_ok_iff.mp h).2.1]
  exact Rpn.readsAs_of_balanced (balanced_of_parse h)

theorem parse_parens (h : parse s = .ok f) : parse ("(" ++ s ++ ")") = .ok f := by
  rcases parse_eq_ok_iff.mp h with ⟨hnames, -, hbuild⟩
  rw [parse_eq_ok_iff, Token.ofText_parens, Token.operandNames_parens]
  exact ⟨hnames, ((readsAs_of_parse h).parens 0).ofTokens_eq.symm, hbuild⟩

theorem parse_not (h : parse s = .ok f) :
    parse ("NOT (" ++ s ++ ")") =
      .ok ⟨f.names, f.rpn ++ [.operator .not], .not f.expr⟩ := by
  rcases parse_eq_ok_iff.mp h with ⟨hnames, -, hbuild⟩
  have htext : "NOT (" ++ s ++ ")" = Operator.not.name ++ " " ++ ("(" ++ s ++ ")") := by
    have hleft : "NOT (" = Operator.not.name ++ " " ++ "(" := by decide
    rw [hleft]
    simp only [String.append_assoc]
  have htokens : Token.ofText ("NOT (" ++ s ++ ")") =
      .operator .not :: (.lparen :: Token.ofText s ++ [.rparen]) := by
    rw [htext, Token.ofText, Token.lex_append_space, Token.lex_word (Token.isWord_name .not),
      List.map_append, ← Token.ofText, Token.ofText_parens, List.map_singleton,
      Grammar.ofWord_name]
    rfl
  have hreads := ((readsAs_of_parse h).parens 5).not rfl
  rw [parse_eq_ok_iff, htokens]
  refine ⟨?_, hreads.ofTokens_eq.symm, Rpn.toExpr?_not hbuild⟩
  rw [hnames, ← Token.operandNames_parens]
  rfl

theorem parse_binary (c : Connective) (hs : parse s = .ok f) (ht : parse t = .ok g) :
    parse ("(" ++ s ++ ") " ++ c.name ++ " (" ++ t ++ ")") =
      .ok ⟨f.names ∪ g.names, f.rpn ++ g.rpn ++ [.operator (.binary c)],
        .binary c f.expr g.expr⟩ := by
  rcases parse_eq_ok_iff.mp hs with ⟨hnamess, -, hbuilds⟩
  rcases parse_eq_ok_iff.mp ht with ⟨hnamest, -, hbuildt⟩
  have htext : "(" ++ s ++ ") " ++ c.name ++ " (" ++ t ++ ")" =
      "(" ++ s ++ ")" ++ (" " ++ (Operator.binary c).name ++ " ") ++ ("(" ++ t ++ ")") := by
    have hclose : ") " = ")" ++ " " := by decide
    have hopen : " (" = " " ++ "(" := by decide
    rw [hclose, hopen, Operator.name]
    simp only [String.append_assoc]
  have htokens : Token.ofText ("(" ++ s ++ ") " ++ c.name ++ " (" ++ t ++ ")") =
      (.lparen :: Token.ofText s ++ [.rparen]) ++
        .operator (.binary c) :: (.lparen :: Token.ofText t ++ [.rparen]) := by
    rw [htext, Token.ofText_append_operator, Token.ofText_parens, Token.ofText_parens]
  have hreads : Rpn.ReadsAs (Operator.binary c).precedence _ _ :=
    ((readsAs_of_parse hs).parens _).binary rfl ((readsAs_of_parse ht).parens _)
  rw [parse_eq_ok_iff, htokens]
  refine ⟨?_, hreads.ofTokens_eq.symm, Rpn.toExpr?_binary hbuilds hbuildt⟩
  have hoperator (ts : List Token) :
      Token.operandNames (.operator (.binary c) :: ts) = Token.operandNames ts := rfl
  rw [Token.operandNames_append, hoperator, Token.operandNames_parens, Token.operandNames_parens,
    hnamess, hnamest]

/-- What can be read may be put in parentheses, where it is read as before, negated in parentheses,
and joined in parentheses by any connective.  Nothing is asked of the places of its operators. -/
theorem parse_compose {s t : String} {f g : Formula} (hs : parse s = .ok f) (ht : parse t = .ok g)
    (c : Connective) :
    parse ("(" ++ s ++ ")") = .ok f ∧
      parse ("NOT (" ++ s ++ ")") = .ok ⟨f.names, f.rpn ++ [.operator .not], .not f.expr⟩ ∧
      parse ("(" ++ s ++ ") " ++ c.name ++ " (" ++ t ++ ")") =
        .ok ⟨f.names ∪ g.names, f.rpn ++ g.rpn ++ [.operator (.binary c)],
          .binary c f.expr g.expr⟩ :=
  ⟨parse_parens hs, parse_not hs, parse_binary c hs ht⟩

-- Both texts have their operators last.
theorem parse_compose_operators_last :
    parse "a b and" = .ok ⟨SortedSet.ofList ["A", "B"],
        [.operand "A", .operand "B", .operator (.binary .and)],
        .binary .and (.var "A") (.var "B")⟩ ∧
      parse "(a b and) XOR (b not)" = .ok ⟨SortedSet.ofList ["A", "B"],
        [.operand "A", .operand "B", .operator (.binary .and), .operand "B", .operator .not,
          .operator (.binary .xor)],
        .binary .xor (.binary .and (.var "A") (.var "B")) (.not (.var "B"))⟩ := by
  have hleft : parse "a b and" = .ok ⟨SortedSet.ofList ["A", "B"],
      [.operand "A", .operand "B", .operator (.binary .and)],
      .binary .and (.var "A") (.var "B")⟩ := rfl
  have hright : parse "b not" = .ok ⟨SortedSet.ofList ["B"],
      [.operand "B", .operator .not], .not (.var "B")⟩ := rfl
  exact ⟨hleft, (parse_compose hleft hright .xor).2.2⟩

end Formula

end TwoLevel
