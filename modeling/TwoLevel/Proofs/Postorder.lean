import TwoLevel.Proofs.ReversePolish

/-!
# Forests in postorder

The expressions on a stack, each in postorder and one after the other from the bottom up, are the
sequence that was read.  So the stack is known from the sequence alone, and so is the item that
cannot be taken to it.  Main statements: which sequence leaves which stack (`build_eq_ok_iff`), and
that a sequence builds an expression exactly if it is the postorder of that expression, while every
other one is refused for what comes first after some whole expressions (`toExpr?_iff_postorder`).
-/

namespace TwoLevel

/-- No leaf of the expression has the name of a parenthesis. -/
def Expr.ParenFree (e : Expr) : Prop := ∀ name ∈ e.names, name ≠ "(" ∧ name ≠ ")"

instance (e : Expr) : Decidable e.ParenFree :=
  inferInstanceAs (Decidable (∀ name ∈ e.names, name ≠ "(" ∧ name ≠ ")"))

namespace Rpn

/-! ## Stacks -/

theorem parenFree_of_build {items : Rpn} {stack : List Expr} (h : build [] items = .ok stack) :
    ∀ e ∈ stack, e.ParenFree := by
  intro e he name hname
  have hleaf : name ∈ leaves stack :=
    List.mem_flatMap.mpr ⟨e, List.mem_reverse.mpr he, hname⟩
  have hleaves : leaves stack = items.filterMap leafName? := leaves_of_build h
  rw [hleaves, List.mem_filterMap] at hleaf
  obtain ⟨item, -, hitem⟩ := hleaf
  exact (leafName?_eq_some_iff.mp hitem).2

-- A whole expression is put on the stack whatever the stack holds already.
theorem build_postorder {stack : List Expr} (h : ∀ e ∈ stack, e.ParenFree) :
    build [] (postorder stack) = .ok stack := by
  induction stack with
  | nil => rfl
  | cons e stack ih =>
    have hrest := ih fun d hd => h d (List.mem_cons_of_mem e hd)
    rw [postorder_cons, build_append, hrest]
    show build stack (ofExpr e) = .ok (e :: stack)
    exact build_ofExpr (h e List.mem_cons_self) stack

/-- The stack that a sequence leaves is the one of which it is the postorder. -/
theorem build_eq_ok_iff {items : Rpn} {stack : List Expr} :
    build [] items = .ok stack ↔ (∀ e ∈ stack, e.ParenFree) ∧ postorder stack = items := by
  constructor
  · intro h
    have hview : postorder stack = items.flatMap fun item => [item] :=
      view_of_build postorder_of_buildStep h
    rw [List.flatMap_singleton'] at hview
    exact ⟨parenFree_of_build h, hview⟩
  · rintro ⟨hfree, rfl⟩
    exact build_postorder hfree

/-! ## Where building stops -/

/-- An item cannot be taken to a stack if it is a parenthesis, or an operator with too few operands
there. -/
theorem buildStep_eq_error_iff {stack : List Expr} {item : RpnItem} {err : ParseError} :
    buildStep stack item = .error err ↔
      (∃ name, item = .operand name ∧ (name = "(" ∨ name = ")") ∧ err = .unbalanced) ∨
        ∃ o, item = .operator o ∧ stack.length < o.arity ∧ err = .missingOperand o := by
  rcases item with name | _ | c
  · by_cases hname : name = "(" ∨ name = ")"
    · simp [buildStep, hname, eq_comm]
    · simp [buildStep, hname]
  · rcases stack with _ | ⟨e, stack⟩
    · simp [buildStep, Operator.arity, eq_comm]
    · simp [buildStep, Operator.arity]
  · rcases stack with _ | ⟨r, _ | ⟨l, stack⟩⟩
    · simp [buildStep, Operator.arity, eq_comm]
    · simp [buildStep, Operator.arity, eq_comm]
    · apply iff_of_false
      · simp [buildStep]
      · rintro (⟨name, hitem, -⟩ | ⟨o, hitem, hfew, -⟩)
        · cases hitem
        · cases hitem
          simp only [List.length_cons, Operator.arity] at hfew
          omega

-- The items before the one that is refused have left a stack.
theorem build_eq_error_iff {stack : List Expr} {items : Rpn} {err : ParseError} :
    build stack items = .error err ↔ ∃ before item after reached,
      items = before ++ item :: after ∧ build stack before = .ok reached ∧
        buildStep reached item = .error err := by
  constructor
  · intro h
    induction items generalizing stack with
    | nil => cases h
    | cons item items ih =>
      rw [build, List.foldlM_cons] at h
      cases hs : buildStep stack item with
      | error e =>
        rw [hs] at h
        cases h
        exact ⟨[], item, items, stack, rfl, rfl, hs⟩
      | ok next =>
        rw [hs] at h
        obtain ⟨before, bad, after, reached, rfl, hbefore, hbad⟩ := ih h
        refine ⟨item :: before, bad, after, reached, rfl, ?_, hbad⟩
        rw [build, List.foldlM_cons, hs]
        exact hbefore
  · rintro ⟨before, item, after, reached, rfl, hbefore, hitem⟩
    rw [build_append, hbefore]
    show build reached (item :: after) = .error err
    rw [build, List.foldlM_cons, hitem]
    rfl

/-! ## Expressions -/

theorem toExpr?_eq_ok_iff {items : Rpn} {e : Expr} :
    toExpr? items = .ok e ↔ e.ParenFree ∧ ofExpr e = items := by
  constructor
  · intro h
    exact ⟨not_paren_of_mem_names h, (eq_ofExpr_of_toExpr? h).symm⟩
  · rintro ⟨hfree, rfl⟩
    exact toExpr?_ofExpr hfree

/-- What a sequence is refused for.  After some whole expressions there is a parenthesis, or an
operator that asks for more of them than there are; or the sequence ends, with no expression at all
or with several. -/
inductive Refused : Rpn → ParseError → Prop
  | unbalanced {parts : List Expr} {name : String} {after : Rpn} :
      (∀ e ∈ parts, e.ParenFree) → name = "(" ∨ name = ")" →
        Refused (parts.flatMap ofExpr ++ .operand name :: after) .unbalanced
  | missingOperand {parts : List Expr} {o : Operator} {after : Rpn} :
      (∀ e ∈ parts, e.ParenFree) → parts.length < o.arity →
        Refused (parts.flatMap ofExpr ++ .operator o :: after) (.missingOperand o)
  | nothing : Refused [] .nothing
  | missingOperator {parts : List Expr} : (∀ e ∈ parts, e.ParenFree) → 2 ≤ parts.length →
      Refused (parts.flatMap ofExpr) (.missingOperator parts)

theorem toExpr?_of_build_error {items : Rpn} {err : ParseError} (h : build [] items = .error err) :
    toExpr? items = .error err := by
  rw [toExpr?, h]

theorem toExpr?_of_two_le {items : Rpn} {stack : List Expr} (h : build [] items = .ok stack)
    (hmany : 2 ≤ stack.length) : toExpr? items = .error (.missingOperator stack.reverse) := by
  rw [toExpr?, h]
  cases stack with
  | nil => cases hmany
  | cons e stack =>
    cases stack with
    | nil => exact absurd hmany (by simp)
    | cons d stack => rfl

-- The parts of a refused sequence from left to right are those of the stack from the bottom up.
theorem build_flatMap {parts : List Expr} (h : ∀ e ∈ parts, e.ParenFree) :
    build [] (parts.flatMap ofExpr) = .ok parts.reverse := by
  have hfree : ∀ e ∈ parts.reverse, e.ParenFree := fun e he => h e (List.mem_reverse.mp he)
  have hstack := build_postorder hfree
  rwa [postorder, List.reverse_reverse] at hstack

theorem toExpr?_of_refused {items : Rpn} {err : ParseError} (h : Refused items err) :
    toExpr? items = .error err := by
  cases h with
  | unbalanced hfree hname =>
    apply toExpr?_of_build_error
    refine build_eq_error_iff.mpr ⟨_, _, _, _, rfl, build_flatMap hfree, ?_⟩
    exact buildStep_eq_error_iff.mpr (.inl ⟨_, rfl, hname, rfl⟩)
  | @missingOperand parts o after hfree hfew =>
    apply toExpr?_of_build_error
    refine build_eq_error_iff.mpr ⟨_, _, _, _, rfl, build_flatMap hfree, ?_⟩
    refine buildStep_eq_error_iff.mpr (.inr ⟨o, rfl, ?_, rfl⟩)
    rwa [List.length_reverse]
  | nothing => rfl
  | missingOperator hfree hmany =>
    have hmissing := toExpr?_of_two_le (build_flatMap hfree) (by rwa [List.length_reverse])
    rwa [List.reverse_reverse] at hmissing

theorem refused_of_build_error {items : Rpn} {err : ParseError} (h : build [] items = .error err) :
    Refused items err := by
  obtain ⟨before, item, after, reached, rfl, hbefore, hitem⟩ := build_eq_error_iff.mp h
  obtain ⟨hfree, rfl⟩ := build_eq_ok_iff.mp hbefore
  have hparts : ∀ e ∈ reached.reverse, e.ParenFree := fun e he => hfree e (List.mem_reverse.mp he)
  rcases buildStep_eq_error_iff.mp hitem with ⟨name, rfl, hname, rfl⟩ | ⟨o, rfl, hfew, rfl⟩
  · exact .unbalanced hparts hname
  · exact .missingOperand hparts (by rwa [List.length_reverse])

theorem refused_of_toExpr? {items : Rpn} {err : ParseError} (h : toExpr? items = .error err) :
    Refused items err := by
  unfold toExpr? at h
  split at h
  · rename_i e hbuild
    cases h
    exact refused_of_build_error hbuild
  · rename_i hbuild
    cases h
    obtain ⟨-, rfl⟩ := build_eq_ok_iff.mp hbuild
    exact .nothing
  · cases h
  · rename_i stack hnil hone hbuild
    cases h
    obtain ⟨hfree, rfl⟩ := build_eq_ok_iff.mp hbuild
    refine .missingOperator (fun e he => hfree e (List.mem_reverse.mp he)) ?_
    rw [List.length_reverse]
    match stack with
    | [] => exact absurd rfl (hnil ·)
    | [e] => exact absurd rfl (hone e ·)
    | _ :: _ :: _ => simp

theorem refused_iff {items : Rpn} {err : ParseError} :
    toExpr? items = .error err ↔ Refused items err := ⟨refused_of_toExpr?, toExpr?_of_refused⟩

/-- Building an expression undoes postorder.  An expression without parentheses among its names is
built from its postorder; a sequence builds an expression only if it is the postorder of that
expression, so no two of them build the same; and every other sequence is refused. -/
theorem toExpr?_iff_postorder :
    (∀ e : Expr, e.ParenFree → toExpr? (ofExpr e) = .ok e) ∧
    (∀ items, (∃ e, toExpr? items = .ok e) ↔ ∃ e : Expr, e.ParenFree ∧ ofExpr e = items) ∧
    (∀ items e, toExpr? items = .ok e → e.ParenFree ∧ ofExpr e = items) ∧
    (∀ s t e, toExpr? s = .ok e → toExpr? t = .ok e → s = t) ∧
    (∀ items, (¬∃ e : Expr, e.ParenFree ∧ ofExpr e = items) → ∃ err, toExpr? items = .error err) ∧
    ∀ items err, toExpr? items = .error err ↔ Refused items err := by
  refine ⟨?_, ?_, ?_, ?_, ?_, ?_⟩
  · intro e hfree
    exact toExpr?_ofExpr hfree
  · intro items
    exact exists_congr fun e => toExpr?_eq_ok_iff
  · intro items e h
    exact toExpr?_eq_ok_iff.mp h
  · intro s t e hs ht
    have hs := toExpr?_eq_ok_iff.mp hs
    have ht := toExpr?_eq_ok_iff.mp ht
    rw [← hs.2, ht.2]
  · intro items hnone
    cases h : toExpr? items with
    | error err => exact ⟨err, rfl⟩
    | ok e => exact absurd ⟨e, toExpr?_eq_ok_iff.mp h⟩ hnone
  · intro items err
    exact refused_iff

-- Leaves may be spelled like operators.  In the second sequence an operator comes too early, and it
-- is this one that is complained about, not the parenthesis after it.
theorem toExpr?_iff_postorder_operator_names :
    (toExpr? [.operand "AND", .operator .not, .operand "NOT", .operator (.binary .xor)] =
        .ok (.binary .xor (.not (.var "AND")) (.var "NOT")) ∧
      ∀ s, toExpr? s = .ok (.binary .xor (.not (.var "AND")) (.var "NOT")) →
        s = [.operand "AND", .operator .not, .operand "NOT", .operator (.binary .xor)]) ∧
    (∃ err, toExpr? [.operand "A", .operator (.binary .and), .operand "("] = .error err) ∧
    toExpr? [.operand "A", .operator (.binary .and), .operand "("] =
      .error (.missingOperand (.binary .and)) := by
  obtain ⟨hbuild, hiff, -, hinj, hother, hrefused⟩ := toExpr?_iff_postorder
  have hfree : (Expr.binary .xor (.not (.var "AND")) (.var "NOT")).ParenFree := by decide
  have hone := hbuild _ hfree
  have hparts : ∀ e ∈ [Expr.var "A"], e.ParenFree := by decide
  have herror : toExpr? [.operand "A", .operator (.binary .and), .operand "("] =
      .error (.missingOperand (.binary .and)) :=
    (hrefused _ _).mpr (.missingOperand hparts (by decide))
  have hnone : ¬∃ e : Expr, e.ParenFree ∧
      ofExpr e = [.operand "A", .operator (.binary .and), .operand "("] := by
    intro hex
    obtain ⟨e, he⟩ := (hiff _).mpr hex
    rw [herror] at he
    cases he
  exact ⟨⟨hone, fun s hs => hinj s _ _ hs hone⟩, hother _ hnone, herror⟩

end Rpn

end TwoLevel
