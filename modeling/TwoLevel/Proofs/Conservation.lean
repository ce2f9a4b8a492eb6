import TwoLevel.Proofs.ReversePolish

/-!
# What reading keeps

Reading moves operators behind their operands and drops the parentheses that are partners.  Nothing
else is lost, and nothing is added: a parenthesis without a partner is still there, and keeps the
sequence from being an expression.  Main statements: no parenthesis is without a partner exactly if
the parentheses are balanced (`balanced_iff_unmatched`), what a sequence has of each item
(`count_ofTokens`), and what becomes of the words of a text (`items_conserved`).
-/

namespace TwoLevel

namespace Token

/-! ## Partners -/

/-- Every parenthesis has a partner, and pairs lie inside each other or side by side. -/
inductive Balanced : List Token → Prop
  | nil : Balanced []
  | operand (name : String) {ts : List Token} : Balanced ts → Balanced (.operand name :: ts)
  | operator (o : Operator) {ts : List Token} : Balanced ts → Balanced (.operator o :: ts)
  | parens {ts us : List Token} :
      Balanced ts → Balanced us → Balanced (.lparen :: ts ++ .rparen :: us)

/-- Numbers of parentheses without a partner. -/
structure Unmatched where
  closing : Nat
  opening : Nat
deriving DecidableEq, Repr

/-- Goes on to a token.  A closing parenthesis is the partner of the latest opening one that has
none yet. -/
def Unmatched.next : Unmatched → Token → Unmatched
  | ⟨closing, opening⟩, .lparen => ⟨closing, opening + 1⟩
  | ⟨closing, 0⟩, .rparen => ⟨closing + 1, 0⟩
  | ⟨closing, opening + 1⟩, .rparen => ⟨closing, opening⟩
  | m, .operand _ => m
  | m, .operator _ => m

def unmatchedFrom (m : Unmatched) (tokens : List Token) : Unmatched := tokens.foldl Unmatched.next m

/-- How many parentheses have no partner. -/
def unmatched (tokens : List Token) : Unmatched := unmatchedFrom ⟨0, 0⟩ tokens

theorem unmatchedFrom_cons (m : Unmatched) (t : Token) (ts : List Token) :
    unmatchedFrom m (t :: ts) = unmatchedFrom (m.next t) ts := rfl

theorem closing_le_unmatchedFrom (m : Unmatched) (tokens : List Token) :
    m.closing ≤ (unmatchedFrom m tokens).closing := by
  induction tokens generalizing m with
  | nil => exact Nat.le_refl _
  | cons t ts ih =>
    have hnext : m.closing ≤ (m.next t).closing := by
      rcases m with ⟨closing, _ | opening⟩ <;> cases t <;> simp [Unmatched.next]
    exact Nat.le_trans hnext (ih _)

theorem Balanced.unmatchedFrom_eq {tokens : List Token} (h : Balanced tokens) (m : Unmatched) :
    unmatchedFrom m tokens = m := by
  induction h generalizing m with
  | nil => rfl
  | operand name _ ih => exact ih m
  | operator o _ ih => exact ih m
  | @parens ts us _ _ iht ihu =>
    rw [unmatchedFrom, List.cons_append, List.foldl_cons, List.foldl_append]
    change unmatchedFrom (unmatchedFrom (m.next .lparen) ts) (.rparen :: us) = m
    rw [iht, unmatchedFrom_cons, ihu]
    rfl

/-- Closes a number of parentheses that were opened before: balanced stretches, with one closing
parenthesis after each of them but the last. -/
def Closes : Nat → List Token → Prop
  | 0, tokens => Balanced tokens
  | n + 1, tokens =>
    ∃ inner rest, tokens = inner ++ .rparen :: rest ∧ Balanced inner ∧ Closes n rest

-- What may stand before any balanced stretch may stand before the first one.
theorem Closes.append {n : Nat} {tokens : List Token} (h : Closes n tokens) (front : List Token)
    (hfront : ∀ {ts : List Token}, Balanced ts → Balanced (front ++ ts)) :
    Closes n (front ++ tokens) := by
  cases n with
  | zero => exact hfront h
  | succ n =>
    rcases h with ⟨inner, rest, rfl, hinner, hrest⟩
    exact ⟨front ++ inner, rest, by rw [List.append_assoc], hfront hinner, hrest⟩

theorem closes_of_unmatchedFrom {n : Nat} {tokens : List Token}
    (h : unmatchedFrom ⟨0, n⟩ tokens = ⟨0, 0⟩) : Closes n tokens := by
  induction tokens generalizing n with
  | nil =>
    have hn : n = 0 := congrArg Unmatched.opening h
    rw [hn]
    exact .nil
  | cons t ts ih =>
    rw [unmatchedFrom_cons] at h
    cases t with
    | operand name => exact (ih h).append [.operand name] (.operand name)
    | operator o => exact (ih h).append [.operator o] (.operator o)
    | lparen =>
      rcases ih h with ⟨inner, rest, rfl, hinner, hrest⟩
      have hpair {us : List Token} (hus : Balanced us) :
          Balanced (.lparen :: inner ++ [.rparen] ++ us) := by
        rw [List.append_assoc]
        exact .parens hinner hus
      have hcloses := hrest.append (.lparen :: inner ++ [.rparen]) hpair
      rw [List.append_assoc] at hcloses
      exact hcloses
    | rparen =>
      cases n with
      | zero =>
        have hclosing := closing_le_unmatchedFrom ⟨1, 0⟩ ts
        rw [show Unmatched.next ⟨0, 0⟩ .rparen = ⟨1, 0⟩ from rfl] at h
        rw [h] at hclosing
        exact absurd hclosing (by decide)
      | succ n => exact ⟨[], ts, rfl, .nil, ih h⟩

/-- Parentheses are balanced exactly if none is without a partner. -/
theorem balanced_iff_unmatched {tokens : List Token} :
    Balanced tokens ↔ unmatched tokens = ⟨0, 0⟩ :=
  ⟨fun h => h.unmatchedFrom_eq ⟨0, 0⟩, closes_of_unmatchedFrom⟩

instance (tokens : List Token) : Decidable (Balanced tokens) :=
  decidable_of_iff _ balanced_iff_unmatched.symm

-- As many are opened as are closed, but in the wrong order.
example : ¬Balanced [.rparen, .operand "A", .lparen] := by decide

/-- What a token is in a sequence; a parenthesis with a partner is nothing there. -/
def item? : Token → Option RpnItem
  | .operand name => some (.operand name)
  | .operator o => some (.operator o)
  | .lparen => none
  | .rparen => none

/-- Parentheses without a partner as items. -/
def Unmatched.items (m : Unmatched) : Rpn :=
  List.replicate m.closing (.operand ")") ++ List.replicate m.opening (.operand "(")

theorem Unmatched.count_items (m : Unmatched) (x : RpnItem) :
    m.items.count x =
      if x = .operand ")" then m.closing else if x = .operand "(" then m.opening else 0 := by
  simp only [Unmatched.items, List.count_append, List.count_replicate, beq_iff_eq]
  by_cases hclosing : x = .operand ")"
  · subst hclosing
    simp
  · by_cases hopening : x = .operand "("
    · subst hopening
      simp
    · simp [Ne.symm hclosing, Ne.symm hopening, hclosing, hopening]

end Token

namespace Rpn

open Token (item? unmatched unmatchedFrom)

/-! ## Items of a sequence -/

/-- The operators that wait, as items. -/
def waitingOperators (waiting : List Pending) : Rpn :=
  (waiting.filter Pending.isOperator).map Pending.item

theorem waitingOperators_opened (waiting : List Pending) :
    waitingOperators (.opened :: waiting) = waitingOperators waiting := rfl

theorem waitingOperators_operator (o : Operator) (waiting : List Pending) :
    waitingOperators (.operator o :: waiting) = .operator o :: waitingOperators waiting := rfl

theorem waitingOperators_append (s t : List Pending) :
    waitingOperators (s ++ t) = waitingOperators s ++ waitingOperators t := by
  rw [waitingOperators, List.filter_append, List.map_append]
  rfl

theorem waitingOperators_of_isOperator {s : List Pending} (h : ∀ p ∈ s, p.isOperator = true) :
    waitingOperators s = s.map Pending.item := by
  rw [waitingOperators, List.filter_eq_self.mpr h]

-- What is left at the end are operators and opened parentheses.
theorem count_map_item (x : RpnItem) (waiting : List Pending) :
    (waiting.map Pending.item).count x = (waitingOperators waiting).count x +
      (List.replicate (waiting.count .opened) (RpnItem.operand "(")).count x := by
  induction waiting with
  | nil => rfl
  | cons p waiting ih =>
    cases p with
    | opened =>
      rw [waitingOperators_opened, List.map_cons, List.count_cons, ih, List.count_cons_self,
        List.replicate_succ, List.count_cons, Pending.item]
      omega
    | operator o =>
      rw [waitingOperators_operator, List.map_cons, List.count_cons, ih, List.count_cons,
        List.count_cons_of_ne (by simp), Pending.item]
      omega

-- Releasing operators down to some item takes no opened parenthesis off the stack.
theorem waiting_split {released : Pending → Bool} (h : released .opened = false)
    (waiting : List Pending) :
    waitingOperators waiting = (waiting.takeWhile released).map Pending.item ++
        waitingOperators (waiting.dropWhile released) ∧
      waiting.count .opened = (waiting.dropWhile released).count .opened := by
  have hoperator : ∀ p ∈ waiting.takeWhile released, p.isOperator = true := by
    intro p hp
    cases p with
    | opened => rw [List.mem_takeWhile_imp hp] at h; cases h
    | operator o => rfl
  have hopened : (waiting.takeWhile released).count .opened = 0 := by
    rw [List.count_eq_zero]
    intro hmem
    cases hoperator _ hmem
  have hsplit : waiting.takeWhile released ++ waiting.dropWhile released = waiting :=
    List.takeWhile_append_dropWhile
  constructor
  · conv_lhs => rw [← hsplit]
    rw [waitingOperators_append, waitingOperators_of_isOperator hoperator]
  · conv_lhs => rw [← hsplit]
    rw [List.count_append, hopened, Nat.zero_add]

-- What comes next below the operators is no operator.
theorem eq_opened_of_dropWhile {waiting rest : List Pending} {p : Pending}
    (h : waiting.dropWhile Pending.isOperator = p :: rest) : p = .opened := by
  have hne : waiting.dropWhile Pending.isOperator ≠ [] := by simp [h]
  have hhead := List.head_dropWhile_not Pending.isOperator hne
  simp only [h, List.head_cons] at hhead
  cases p with
  | opened => rfl
  | operator o => cases hhead

/-- What comes out is what waits, what the tokens bring, and the parentheses without a partner. -/
theorem count_reorder (x : RpnItem) (tokens : List Token) (waiting : List Pending)
    (closing : Nat) :
    (reorder tokens waiting).count x + (List.replicate closing (RpnItem.operand ")")).count x =
      (waitingOperators waiting).count x + (tokens.filterMap item?).count x +
        (unmatchedFrom ⟨closing, waiting.count .opened⟩ tokens).items.count x := by
  induction tokens generalizing waiting closing with
  | nil =>
    rw [reorder, count_map_item]
    simp only [unmatchedFrom, List.foldl_nil, List.filterMap_nil, List.count_nil,
      Token.Unmatched.items, List.count_append]
    omega
  | cons t ts ih =>
    rw [Token.unmatchedFrom_cons]
    cases t with
    | operand name =>
      have hrest := ih waiting closing
      have hitem : item? (.operand name) = some (.operand name) := rfl
      rw [reorder, List.filterMap_cons_some hitem, List.count_cons, List.count_cons,
        Token.Unmatched.next]
      omega
    | lparen =>
      have hrest := ih (.opened :: waiting) closing
      rw [List.count_cons_self, waitingOperators_opened] at hrest
      rw [reorder, List.filterMap_cons_none rfl, Token.Unmatched.next]
      exact hrest
    | rparen =>
      have hopened : Pending.isOperator .opened = false := rfl
      have hwait := congrArg (List.count x) (waiting_split hopened waiting).1
      have hcount := (waiting_split hopened waiting).2
      rw [List.count_append] at hwait
      rw [reorder, List.count_append, List.filterMap_cons_none rfl]
      cases hdrop : waiting.dropWhile Pending.isOperator with
      | nil =>
        -- nothing is open, and the parenthesis comes out
        have hrest := ih [] (closing + 1)
        rw [hdrop] at hwait hcount
        rw [hcount, List.count_nil, Token.Unmatched.next]
        rw [List.count_nil, List.replicate_succ, List.count_cons] at hrest
        simp only [List.count_cons]
        omega
      | cons p rest =>
        -- the latest opened one is the partner, and neither of the two comes out
        have hrest := ih rest closing
        rw [hdrop, eq_opened_of_dropWhile hdrop] at hwait hcount
        rw [waitingOperators_opened] at hwait
        rw [List.count_cons_self] at hcount
        rw [hcount, Token.Unmatched.next]
        dsimp only
        omega
    | operator o =>
      have hopened : Pending.precedes o .opened = false := rfl
      have hwait := congrArg (List.count x) (waiting_split hopened waiting).1
      have hrest := ih (.operator o :: waiting.dropWhile (Pending.precedes o)) closing
      have hitem : item? (.operator o) = some (.operator o) := rfl
      rw [waitingOperators_operator, List.count_cons, List.count_cons_of_ne (by simp),
        ← (waiting_split hopened waiting).2] at hrest
      rw [List.count_append] at hwait
      rw [reorder, List.count_append, List.filterMap_cons_some hitem, List.count_cons,
        Token.Unmatched.next]
      omega

/-- What a sequence has of each item: as many as the tokens bring, and one for each parenthesis
without a partner. -/
theorem count_ofTokens (x : RpnItem) (tokens : List Token) :
    (ofTokens tokens).count x =
      (tokens.filterMap item?).count x + (unmatched tokens).items.count x := by
  have hrun := count_reorder x tokens [] 0
  have hwaiting : (waitingOperators []).count x = 0 := rfl
  rw [hwaiting, List.replicate_zero, List.count_nil, List.count_nil, Nat.zero_add,
    Nat.add_zero] at hrun
  exact hrun

end Rpn

/-! ## Words -/

namespace Token

theorem item?_ofWord_eq_operator_iff {word : String} {o : Operator} :
    item? (ofWord word) = some (.operator o) ↔ word = o.name := by
  apply Iff.intro
  · intro h
    rw [← word_ofWord word]
    cases hw : ofWord word with
    | lparen | rparen | operand => rw [hw] at h; cases h
    | operator p => rw [hw] at h; cases h; rfl
  · rintro rfl
    rw [Grammar.ofWord_name]
    rfl

theorem isVariable_of_item?_ofWord {word name : String}
    (h : item? (ofWord word) = some (.operand name)) : Grammar.IsVariable name := by
  cases hw : ofWord word with
  | lparen | rparen | operator => rw [hw] at h; cases h
  | operand n =>
    rw [hw] at h
    cases h
    exact isVariable_of_ofWord hw

theorem operandName?_ofWord (word : String) :
    (ofWord word).operandName? = Option.guard (fun w => decide (Grammar.IsVariable w)) word := by
  by_cases h : Grammar.IsVariable word
  · simp [h.ofWord_eq, operandName?, h]
  · cases hw : ofWord word with
    | lparen | rparen | operator => simp [operandName?, Option.guard, h]
    | operand name =>
      have hname : word = name := by rw [← word_ofWord word, hw, Token.word]
      rw [← hname] at hw
      exact absurd (isVariable_of_ofWord hw) h

theorem filterMap_operandName?_ofWord (words : List String) :
    (words.map ofWord).filterMap operandName? =
      words.filter fun w => decide (Grammar.IsVariable w) := by
  rw [List.filterMap_map, ← List.filterMap_eq_filter]
  exact List.filterMap_congr fun w _ => operandName?_ofWord w

end Token

namespace Rpn

open Token (item? unmatched)

theorem filterMap_leafName?_ofWords (words : List String) :
    (ofTokens (words.map Token.ofWord)).filterMap leafName? =
      words.filter fun w => decide (Grammar.IsVariable w) := by
  have hvariables (name : String) (h : .operand name ∈ words.map Token.ofWord) :
      Grammar.IsVariable name := by
    rcases List.mem_map.mp h with ⟨w, -, hw⟩
    exact Token.isVariable_of_ofWord hw
  rw [ofTokens, filterMap_leafName?_reorder [] hvariables, Token.filterMap_operandName?_ofWord]

theorem count_operator_ofWords (words : List String) (o : Operator) :
    (ofTokens (words.map Token.ofWord)).count (.operator o) = words.count o.name := by
  have hparens : (unmatched (words.map Token.ofWord)).items.count (.operator o) = 0 := by
    rw [Token.Unmatched.count_items, if_neg (by simp), if_neg (by simp)]
  rw [count_ofTokens, hparens, Nat.add_zero, List.filterMap_map, List.count_filterMap, List.count]
  apply List.countP_congr
  intro w _
  rw [beq_iff_eq, beq_iff_eq]
  exact Token.item?_ofWord_eq_operator_iff

-- A word in the place of an operand is never a parenthesis.
theorem count_paren_ofWords (words : List String) {paren : String}
    (hparen : paren = "(" ∨ paren = ")") :
    (ofTokens (words.map Token.ofWord)).count (.operand paren) =
      (unmatched (words.map Token.ofWord)).items.count (.operand paren) := by
  have hnone : ((words.map Token.ofWord).filterMap item?).count (.operand paren) = 0 := by
    rw [List.count_eq_zero, List.filterMap_map, List.mem_filterMap]
    rintro ⟨w, -, hw⟩
    have hvariable := Token.isVariable_of_item?_ofWord hw
    exact hparen.elim hvariable.ne_lparen hvariable.ne_rparen
  rw [count_ofTokens, hnone, Nat.zero_add]

end Rpn

/-! ## Nodes of an expression -/

namespace Expr

/-- The operators of the nodes, in the order in which they are written. -/
def operators : Expr → List Operator
  | .var _ => []
  | .not e => .not :: e.operators
  | .binary c l r => l.operators ++ .binary c :: r.operators

theorem names_ne_nil (e : Expr) : e.names ≠ [] := by
  induction e with
  | var name => simp [names]
  | not e ih => exact ih
  | binary c l r ihl ihr => simp [names, ihl]

end Expr

namespace Rpn

theorem count_operator_ofExpr (o : Operator) (e : Expr) :
    (ofExpr e).count (.operator o) = e.operators.count o := by
  induction e with
  | var name => simp [ofExpr, Expr.operators]
  | not e ih => simp [ofExpr, Expr.operators, List.count_append, List.count_cons, ih]
  | binary c l r ihl ihr =>
    simp only [ofExpr, Expr.operators, List.count_append, List.count_cons, List.count_nil, ihl,
      ihr, beq_iff_eq, RpnItem.operator.injEq]
    omega

theorem mem_names_of_mem_ofExpr {name : String} {e : Expr} (h : .operand name ∈ ofExpr e) :
    name ∈ e.names := by
  induction e with
  | var n => simpa [ofExpr, Expr.names] using h
  | not e ih => exact ih (by simpa [ofExpr] using h)
  | binary c l r ihl ihr =>
    have hmem : .operand name ∈ ofExpr l ∨ .operand name ∈ ofExpr r := by
      simpa [ofExpr] using h
    exact List.mem_append.mpr (hmem.imp ihl ihr)

end Rpn

/-! ## Texts that are read -/

namespace Formula

variable {text : String} {f : Formula}

-- A parenthesis without a partner would be an item, and no expression has such an item.
theorem balanced_of_parse (h : parse text = .ok f) : Token.Balanced (Token.ofText text) := by
  rcases parse_eq_ok_iff.mp h with ⟨-, hrpn, hbuild⟩
  have hnone (paren : String) (hparen : paren = "(" ∨ paren = ")") :
      (Token.unmatched (Token.ofText text)).items.count (.operand paren) = 0 := by
    rw [Token.ofText, ← Rpn.count_paren_ofWords _ hparen, ← Token.ofText, ← hrpn,
      Rpn.eq_ofExpr_of_toExpr? hbuild, List.count_eq_zero]
    intro hmem
    have hname := Rpn.not_paren_of_mem_names hbuild paren (Rpn.mem_names_of_mem_ofExpr hmem)
    exact hparen.elim hname.1 hname.2
  have hopening := hnone "(" (.inl rfl)
  have hclosing := hnone ")" (.inr rfl)
  rw [Token.Unmatched.count_items, if_neg (by decide), if_pos rfl] at hopening
  rw [Token.Unmatched.count_items, if_pos rfl] at hclosing
  rw [Token.balanced_iff_unmatched]
  exact congrArg₂ Token.Unmatched.mk hclosing hopening

theorem names_expr_of_parse (h : parse text = .ok f) :
    f.expr.names = (Token.lex text).filter fun w => decide (Grammar.IsVariable w) := by
  rcases parse_eq_ok_iff.mp h with ⟨-, hrpn, hbuild⟩
  rw [Rpn.names_of_toExpr? hbuild, hrpn, Token.ofText, Rpn.filterMap_leafName?_ofWords]

theorem operators_perm_of_parse (h : parse text = .ok f) :
    f.expr.operators.Perm ((Token.lex text).filterMap Operator.ofName?) := by
  rcases parse_eq_ok_iff.mp h with ⟨-, hrpn, hbuild⟩
  have hword (o : Operator) :
      ((Token.lex text).filterMap Operator.ofName?).count o = (Token.lex text).count o.name := by
    rw [List.count_filterMap, List.count]
    apply List.countP_congr
    intro w _
    rw [beq_iff_eq, beq_iff_eq]
    exact Operator.ofName?_eq_some_iff
  rw [List.perm_iff_count]
  intro o
  rw [hword, ← Rpn.count_operator_ofWords, ← Token.ofText, ← hrpn, ← Rpn.count_operator_ofExpr,
    ← Rpn.eq_ofExpr_of_toExpr? hbuild]

/-- Reading loses nothing and makes nothing up.  Whatever the words are, operands stay in their
order, and operators and parentheses without a partner in their number; so a text that is read has
its parentheses balanced, and its other words are the nodes of its expression. -/
theorem items_conserved :
    (∀ words : List String,
      (Rpn.ofTokens (words.map Token.ofWord)).filterMap Rpn.leafName? =
          words.filter (fun w => decide (Grammar.IsVariable w)) ∧
        (∀ o : Operator,
          (Rpn.ofTokens (words.map Token.ofWord)).count (.operator o) = words.count o.name) ∧
        (Rpn.ofTokens (words.map Token.ofWord)).count (.operand "(") =
          (Token.unmatched (words.map Token.ofWord)).opening ∧
        (Rpn.ofTokens (words.map Token.ofWord)).count (.operand ")") =
          (Token.unmatched (words.map Token.ofWord)).closing) ∧
    ∀ text f, parse text = .ok f →
      Token.Balanced (Token.ofText text) ∧
        f.expr.names = (Token.lex text).filter (fun w => decide (Grammar.IsVariable w)) ∧
        f.expr.operators.Perm ((Token.lex text).filterMap Operator.ofName?) ∧
        f.names = SortedSet.ofList f.expr.names ∧ f.names.toList ≠ [] := by
  constructor
  · intro words
    refine ⟨Rpn.filterMap_leafName?_ofWords words, Rpn.count_operator_ofWords words, ?_, ?_⟩
    · rw [Rpn.count_paren_ofWords words (.inl rfl), Token.Unmatched.count_items,
        if_neg (by decide), if_pos rfl]
    · rw [Rpn.count_paren_ofWords words (.inr rfl), Token.Unmatched.count_items, if_pos rfl]
  · intro text f h
    refine ⟨balanced_of_parse h, names_expr_of_parse h, operators_perm_of_parse h,
      names_eq_of_parse h, ?_⟩
    intro hempty
    have hsome := List.exists_mem_of_ne_nil _ f.expr.names_ne_nil
    rcases hsome with ⟨name, hname⟩
    have hmem := (mem_names_of_parse h).mpr hname
    rw [SortedSet.mem_iff, hempty] at hmem
    cases hmem

-- No operator stands where the grammar would have it, and the text is read all the same; the
-- parentheses of the second one are in the wrong order, so both are left.
theorem items_conserved_misplaced :
    (∃ f, parse "a not and (b c or)" = .ok f ∧
      Token.Balanced (Token.ofText "a not and (b c or)") ∧ f.expr.names = ["A", "B", "C"] ∧
        f.expr.operators.Perm [.not, .binary .and, .binary .or]) ∧
    (Rpn.ofTokens ([")", "A", "("].map Token.ofWord)).count (.operand "(") = 1 := by
  have hparse : parse "a not and (b c or)" = .ok ⟨SortedSet.ofList ["A", "B", "C"],
      [.operand "A", .operator .not, .operand "B", .operand "C", .operator (.binary .or),
        .operator (.binary .and)],
      .binary .and (.not (.var "A")) (.binary .or (.var "B") (.var "C"))⟩ := rfl
  rcases items_conserved.2 _ _ hparse with ⟨hbalanced, hnames, hoperators, -, -⟩
  have hopening := (items_conserved.1 [")", "A", "("]).2.2.1
  exact ⟨⟨_, hparse, hbalanced, hnames.trans rfl, hoperators.trans (by decide)⟩,
    hopening.trans rfl⟩

end Formula

end TwoLevel
