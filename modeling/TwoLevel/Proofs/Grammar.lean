import TwoLevel.Rpn

/-!
# The grammar of formulas

A sum joins products, a product joins factors, and a factor is a primary that may be negated.  The
words of a phrase are read with a stack that holds pending operators of the phrase on top of
whatever was pending before.  Main statement: the words of a sum come out in the reverse Polish
order of its expression, and build it (`toExpr?_of_derives`).
-/

namespace TwoLevel

namespace Rpn

/-! ## Reading a phrase in any context -/

/-- The latest pending item lets operators of a precedence wait above it. -/
def Stops (n : Nat) : List Pending → Prop
  | .operator o :: _ => o.precedence < n
  | _ => True

/-- An operator that binds at least as tightly as a precedence. -/
def Binds (n : Nat) : Pending → Prop
  | .opened => False
  | .operator o => n ≤ o.precedence

/-- Tokens are read into a sequence whatever follows them, and whatever waits below, as long as it
lets the operators of the tokens wait above it. -/
def ReadsAs (n : Nat) (tokens : List Token) (items : Rpn) : Prop :=
  ∃ (out : Rpn) (pend : List Pending), (∀ p ∈ pend, Binds n p) ∧
    out ++ pend.map Pending.item = items ∧
    ∀ waiting, Stops n waiting → ∀ rest,
      reorder (tokens ++ rest) waiting = out ++ reorder rest (pend ++ waiting)

theorem precedes_of_binds {o : Operator} {p : Pending} (h : Binds o.precedence p) :
    p.precedes o = true := by
  cases p with
  | opened => exact h.elim
  | operator q => exact decide_eq_true h

theorem isOperator_of_binds {n : Nat} {p : Pending} (h : Binds n p) : p.isOperator = true := by
  cases p with
  | opened => exact h.elim
  | operator q => rfl

theorem takeWhile_precedes_of_stops {o : Operator} {waiting : List Pending}
    (h : Stops o.precedence waiting) : waiting.takeWhile (Pending.precedes o) = [] := by
  match waiting, h with
  | [], _ => rfl
  | .opened :: _, _ => rfl
  | .operator q :: _, h =>
    have hq : ¬o.precedence ≤ q.precedence := Nat.not_le.mpr h
    simp [Pending.precedes, hq]

theorem dropWhile_precedes_of_stops {o : Operator} {waiting : List Pending}
    (h : Stops o.precedence waiting) : waiting.dropWhile (Pending.precedes o) = waiting := by
  have hsplit := List.takeWhile_append_dropWhile (p := Pending.precedes o) (l := waiting)
  rw [takeWhile_precedes_of_stops h, List.nil_append] at hsplit
  exact hsplit

-- An operator releases the pending operators of the phrase before it and nothing below them.
theorem reorder_operator {o : Operator} {pend waiting : List Pending} (rest : List Token)
    (hpend : ∀ p ∈ pend, Binds o.precedence p) (hstop : Stops o.precedence waiting) :
    reorder (.operator o :: rest) (pend ++ waiting) =
      pend.map Pending.item ++ reorder rest (.operator o :: waiting) := by
  have hall : ∀ p ∈ pend, p.precedes o = true := fun p hp => precedes_of_binds (hpend p hp)
  rw [reorder, List.takeWhile_append_of_pos hall, List.dropWhile_append_of_pos hall,
    takeWhile_precedes_of_stops hstop, dropWhile_precedes_of_stops hstop, List.append_nil]

-- A closing parenthesis releases the operators above its partner, and both go.
theorem reorder_rparen {n : Nat} {pend waiting : List Pending} (rest : List Token)
    (hpend : ∀ p ∈ pend, Binds n p) :
    reorder (.rparen :: rest) (pend ++ .opened :: waiting) =
      pend.map Pending.item ++ reorder rest waiting := by
  have hall : ∀ p ∈ pend, p.isOperator = true := fun p hp => isOperator_of_binds (hpend p hp)
  have hopen : Pending.isOperator .opened = false := rfl
  rw [reorder, List.takeWhile_append_of_pos hall, List.dropWhile_append_of_pos hall,
    List.takeWhile_cons_of_neg (by simp [hopen]), List.dropWhile_cons_of_neg (by simp [hopen]),
    List.append_nil]

theorem Stops.mono {n m : Nat} (hnm : n ≤ m) {waiting : List Pending} (h : Stops n waiting) :
    Stops m waiting := by
  match waiting, h with
  | [], _ => trivial
  | .opened :: _, _ => trivial
  | .operator _ :: _, h => exact Nat.lt_of_lt_of_le h hnm

theorem Binds.mono {n m : Nat} (hnm : n ≤ m) {p : Pending} (h : Binds m p) : Binds n p := by
  cases p with
  | opened => exact h.elim
  | operator o => exact Nat.le_trans hnm h

-- An operator joins what its last operand leaves pending, below it on the stack.
theorem binds_append_operator {o : Operator} {pend : List Pending}
    (h : ∀ p ∈ pend, Binds (o.precedence + 1) p) :
    ∀ p ∈ pend ++ [.operator o], Binds o.precedence p := by
  intro p hp
  rcases List.mem_append.mp hp with hp | hp
  · exact (h p hp).mono (Nat.le_succ _)
  · rw [List.mem_singleton.mp hp]
    exact Nat.le_refl _

/-! ## How phrases are put together -/

namespace ReadsAs

theorem mono {n m : Nat} (hnm : n ≤ m) {tokens : List Token} {items : Rpn}
    (h : ReadsAs m tokens items) : ReadsAs n tokens items := by
  rcases h with ⟨out, pend, hpend, hitems, hrun⟩
  exact ⟨out, pend, fun p hp => (hpend p hp).mono hnm, hitems,
    fun waiting hstop rest => hrun waiting (hstop.mono hnm) rest⟩

theorem operand (n : Nat) (name : String) : ReadsAs n [.operand name] [.operand name] := by
  have hread : ∀ waiting, Stops n waiting → ∀ rest,
      reorder ([.operand name] ++ rest) waiting =
        [.operand name] ++ reorder rest ([] ++ waiting) := by
    intro waiting _ rest
    rfl
  exact ⟨[.operand name], [], by simp, rfl, hread⟩

-- Inside parentheses nothing that waits outside can be reached, so any precedence will do.
theorem parens {n : Nat} (m : Nat) {tokens : List Token} {items : Rpn}
    (h : ReadsAs n tokens items) : ReadsAs m (.lparen :: tokens ++ [.rparen]) items := by
  rcases h with ⟨out, pend, hpend, hitems, hrun⟩
  refine ⟨items, [], by simp, by simp, ?_⟩
  intro waiting _ rest
  have hinner := hrun (.opened :: waiting) trivial (.rparen :: rest)
  calc reorder (.lparen :: tokens ++ [.rparen] ++ rest) waiting
      = reorder (tokens ++ .rparen :: rest) (.opened :: waiting) := by
        rw [List.append_assoc, List.cons_append, List.singleton_append, reorder]
    _ = out ++ (pend.map Pending.item ++ reorder rest waiting) := by
        rw [hinner, reorder_rparen rest hpend]
    _ = items ++ reorder rest ([] ++ waiting) := by
        rw [← List.append_assoc, hitems, List.nil_append]

-- The operand is read above the negation, which is released after it.
theorem not {n : Nat} (hn : Operator.not.precedence = n) {tokens : List Token} {items : Rpn}
    (h : ReadsAs (n + 1) tokens items) :
    ReadsAs n (.operator .not :: tokens) (items ++ [.operator .not]) := by
  rcases h with ⟨out, pend, hpend, hitems, hrun⟩
  subst hn
  refine ⟨out, pend ++ [.operator .not], binds_append_operator hpend, ?_, ?_⟩
  · rw [List.map_append, ← List.append_assoc, hitems]
    rfl
  · intro waiting hstop rest
    -- a prefix operator has no operand before it, so it releases nothing of its own phrase
    have hpop : reorder (.operator .not :: (tokens ++ rest)) ([] ++ waiting) =
        reorder (tokens ++ rest) (.operator .not :: waiting) :=
      reorder_operator _ (by simp) hstop
    have habove : Stops (Operator.not.precedence + 1) (.operator .not :: waiting) :=
      Nat.lt_succ_self _
    rw [List.nil_append] at hpop
    rw [List.cons_append, hpop, hrun _ habove, List.append_assoc]
    rfl

-- The left operand is complete when the operator comes; the right one is read above it.
theorem binary {n : Nat} {o : Operator} (hn : o.precedence = n) {ts us : List Token}
    {l r : Rpn} (hl : ReadsAs n ts l) (hr : ReadsAs (n + 1) us r) :
    ReadsAs n (ts ++ .operator o :: us) (l ++ r ++ [.operator o]) := by
  rcases hl with ⟨outl, pendl, hpendl, hitemsl, hrunl⟩
  rcases hr with ⟨outr, pendr, hpendr, hitemsr, hrunr⟩
  subst hn
  refine ⟨l ++ outr, pendr ++ [.operator o], binds_append_operator hpendr, ?_, ?_⟩
  · rw [← hitemsr, List.map_append]
    simp only [List.append_assoc, List.map_cons, List.map_nil, Pending.item]
  · intro waiting hstop rest
    have habove : Stops (o.precedence + 1) (.operator o :: waiting) := Nat.lt_succ_self _
    rw [List.append_assoc, List.cons_append, hrunl waiting hstop,
      reorder_operator _ hpendl hstop, hrunr _ habove, ← hitemsl]
    simp only [List.append_assoc, List.singleton_append]

-- A phrase that is all there is comes out whole.
theorem ofTokens_eq {n : Nat} {tokens : List Token} {items : Rpn} (h : ReadsAs n tokens items) :
    ofTokens tokens = items := by
  rcases h with ⟨out, pend, -, hitems, hrun⟩
  have hend := hrun [] trivial []
  rw [List.append_nil, List.append_nil, reorder, hitems] at hend
  exact hend

end ReadsAs

end Rpn

/-! ## Derivations -/

namespace Grammar

/-- The kinds of phrases, from the loosest to the tightest. -/
inductive Phrase where
  | sum | product | factor | primary

/-- A word that names a variable. -/
structure IsVariable (word : String) : Prop where
  ne_lparen : word ≠ "("
  ne_rparen : word ≠ ")"
  ne_operator : ∀ o : Operator, word ≠ o.name

theorem isVariable_iff {word : String} :
    IsVariable word ↔ word ≠ "(" ∧ word ≠ ")" ∧ ∀ o ∈ Operator.all, word ≠ o.name :=
  ⟨fun h => ⟨h.ne_lparen, h.ne_rparen, fun o _ => h.ne_operator o⟩,
    fun h => ⟨h.1, h.2.1, fun o => h.2.2 o (Operator.mem_all o)⟩⟩

instance (word : String) : Decidable (IsVariable word) := decidable_of_iff _ isVariable_iff.symm

/-- The words of a phrase, with the expression that the phrase stands for.  Binary operators group
to the left, and parentheses leave no trace in the expression. -/
inductive Derives : Phrase → List String → Expr → Prop
  | sum {c : Connective} {ts us : List String} {l r : Expr} (hc : c = .or ∨ c = .nor ∨ c = .xor) :
      Derives .sum ts l → Derives .product us r →
        Derives .sum (ts ++ c.name :: us) (.binary c l r)
  | ofProduct {ts : List String} {e : Expr} : Derives .product ts e → Derives .sum ts e
  | product {c : Connective} {ts us : List String} {l r : Expr} (hc : c = .and ∨ c = .nand) :
      Derives .product ts l → Derives .factor us r →
        Derives .product (ts ++ c.name :: us) (.binary c l r)
  | ofFactor {ts : List String} {e : Expr} : Derives .factor ts e → Derives .product ts e
  | negation {ts : List String} {e : Expr} :
      Derives .primary ts e → Derives .factor (Operator.not.name :: ts) (.not e)
  | ofPrimary {ts : List String} {e : Expr} : Derives .primary ts e → Derives .factor ts e
  | name {name : String} : IsVariable name → Derives .primary [name] (.var name)
  | parens {ts : List String} {e : Expr} :
      Derives .sum ts e → Derives .primary ("(" :: ts ++ [")"]) e

theorem IsVariable.ofWord_eq {word : String} (h : IsVariable word) :
    Token.ofWord word = .operand word := by
  have hnone : Operator.ofName? word = none := by
    cases ho : Operator.ofName? word with
    | none => rfl
    | some o => exact absurd (Operator.ofName?_eq_some_iff.mp ho) (h.ne_operator o)
  rw [Token.ofWord, if_neg h.ne_lparen, if_neg h.ne_rparen, hnone]

theorem ofWord_name (o : Operator) : Token.ofWord o.name = .operator o := by
  have key : ∀ o ∈ Operator.all, o.name ≠ "(" ∧ o.name ≠ ")" := by decide
  rcases key o (Operator.mem_all o) with ⟨hl, hr⟩
  rw [Token.ofWord, if_neg hl, if_neg hr, Operator.ofName?_eq_some_iff.mpr rfl]

theorem ofWord_connective_name (c : Connective) :
    Token.ofWord c.name = .operator (.binary c) := ofWord_name (.binary c)

/-- The least precedence that an operator outside all parentheses of a phrase can have. -/
def Phrase.precedence : Phrase → Nat
  | .sum => 2
  | .product => 3
  | .factor => 4
  | .primary => 5

theorem readsAs_of_derives {k : Phrase} {words : List String} {e : Expr} (h : Derives k words e) :
    Rpn.ReadsAs k.precedence (words.map Token.ofWord) (Rpn.ofExpr e) := by
  induction h with
  | @sum c ts us l r hc _ _ ihl ihr =>
    have hp : (Operator.binary c).precedence = 2 := by
      rcases hc with rfl | rfl | rfl <;> rfl
    rw [List.map_append, List.map_cons, ofWord_connective_name]
    exact Rpn.ReadsAs.binary hp ihl ihr
  | ofProduct _ ih => exact ih.mono (by decide)
  | @product c ts us l r hc _ _ ihl ihr =>
    have hp : (Operator.binary c).precedence = 3 := by
      rcases hc with rfl | rfl <;> rfl
    rw [List.map_append, List.map_cons, ofWord_connective_name]
    exact Rpn.ReadsAs.binary hp ihl ihr
  | ofFactor _ ih => exact ih.mono (by decide)
  | negation _ ih =>
    rw [List.map_cons, ofWord_name]
    exact ih.not rfl
  | ofPrimary _ ih => exact ih.mono (by decide)
  | name hv =>
    rw [List.map_singleton, hv.ofWord_eq]
    exact Rpn.ReadsAs.operand _ _
  | parens _ ih =>
    rw [List.map_append, List.map_cons]
    exact ih.parens _

theorem names_of_derives {k : Phrase} {words : List String} {e : Expr} (h : Derives k words e) :
    ∀ name ∈ e.names, IsVariable name := by
  induction h with
  | sum _ _ _ ihl ihr | product _ _ _ ihl ihr =>
    intro name hname
    rcases List.mem_append.mp hname with hl | hr
    · exact ihl name hl
    · exact ihr name hr
  | ofProduct _ ih | ofFactor _ ih | negation _ ih | ofPrimary _ ih | parens _ ih => exact ih
  | name hv =>
    intro name hname
    rw [List.mem_singleton.mp hname]
    exact hv

theorem ofTokens_of_derives {words : List String} {e : Expr} (h : Derives .sum words e) :
    Rpn.ofTokens (words.map Token.ofWord) = Rpn.ofExpr e :=
  (readsAs_of_derives h).ofTokens_eq

theorem build_of_derives {words : List String} {e : Expr} (h : Derives .sum words e) :
    (Rpn.ofExpr e).toExpr? = .ok e :=
  Rpn.toExpr?_ofExpr fun name hname =>
    ⟨(names_of_derives h name hname).ne_lparen, (names_of_derives h name hname).ne_rparen⟩

/-- The words of a sum come out in the reverse Polish order of its expression, and that sequence
builds the expression. -/
theorem toExpr?_of_derives {words : List String} {e : Expr} (h : Derives .sum words e) :
    Rpn.ofTokens (words.map Token.ofWord) = Rpn.ofExpr e ∧
      (Rpn.ofTokens (words.map Token.ofWord)).toExpr? = .ok e := by
  have hitems := ofTokens_of_derives h
  refine ⟨hitems, ?_⟩
  rw [hitems]
  exact build_of_derives h

-- `NOT` takes the parentheses alone, and `AND` takes its two sides before `OR` does.
theorem toExpr?_sum_of_negation :
    ∃ e, Derives .sum ["A", "OR", "NOT", "(", "B", "XOR", "C", ")", "AND", "D"] e ∧
      (Rpn.ofTokens (["A", "OR", "NOT", "(", "B", "XOR", "C", ")", "AND", "D"].map
        Token.ofWord)).toExpr? = .ok e := by
  have hvar {name : String} (h : IsVariable name) : Derives .factor [name] (.var name) :=
    .ofPrimary (.name h)
  have hinner : Derives .sum ["B", "XOR", "C"] (.binary .xor (.var "B") (.var "C")) :=
    .sum (.inr (.inr rfl)) (.ofProduct (.ofFactor (hvar (by decide))))
      (.ofFactor (hvar (by decide)))
  have hproduct : Derives .product ["NOT", "(", "B", "XOR", "C", ")", "AND", "D"]
      (.binary .and (.not (.binary .xor (.var "B") (.var "C"))) (.var "D")) :=
    .product (.inl rfl) (.ofFactor (.negation (.parens hinner))) (hvar (by decide))
  have hsum : Derives .sum ["A", "OR", "NOT", "(", "B", "XOR", "C", ")", "AND", "D"]
      (.binary .or (.var "A")
        (.binary .and (.not (.binary .xor (.var "B") (.var "C"))) (.var "D"))) :=
    .sum (.inl rfl) (.ofProduct (.ofFactor (hvar (by decide)))) hproduct
  exact ⟨_, hsum, (toExpr?_of_derives hsum).2⟩

end Grammar

end TwoLevel
