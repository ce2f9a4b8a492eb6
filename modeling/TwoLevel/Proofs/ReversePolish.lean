import TwoLevel.Assignment
import TwoLevel.Proofs.Lexing

/-!
# Sequences and the expressions they build

Building and evaluating run over the same sequence with a stack each.  At every moment the one stack
holds the expressions whose values the other holds, and the leaves of these expressions are the
operands met so far.  Main statements: a sequence that builds an expression is evaluated to the
value of that expression alone (`evalFrom_of_toExpr?`), and the names of a formula are the leaves of
its expression (`names_eq_of_parse`).
-/

namespace TwoLevel

/-! ## Values -/

namespace Expr

/-- The value of an expression: a leaf has that of its name, and the operator of a node is applied
to the values of its operands, in the order in which they were written. -/
inductive HasValue (value : String → Bool) : Expr → Bool → Prop
  | var (name : String) : HasValue value (.var name) (value name)
  | not {e : Expr} {x b : Bool} : HasValue value e x → Operator.not.apply [x] = .ok b →
      HasValue value (.not e) b
  | binary {c : Connective} {l r : Expr} {x y b : Bool} : HasValue value l x →
      HasValue value r y → (Operator.binary c).apply [x, y] = .ok b →
        HasValue value (.binary c l r) b

theorem hasValue_iff {value : String → Bool} {e : Expr} {b : Bool} :
    HasValue value e b ↔ e.eval value = b := by
  apply Iff.intro
  · intro h
    induction h with
    | var name => rfl
    | not _ happly ih =>
      rw [eval, ih]
      exact Except.ok.inj happly
    | binary _ _ happly ihl ihr =>
      rw [eval, ihl, ihr]
      exact Except.ok.inj happly
  · rintro rfl
    induction e with
    | var name => exact .var name
    | not e ih => exact .not ih rfl
    | binary c l r ihl ihr => exact .binary ihl ihr rfl

end Expr

namespace Rpn

/-- A sequence that builds an expression leaves one value when it is evaluated, that of the
expression and no other; so does every text that is read. -/
theorem evalFrom_of_toExpr? (a : Assignment) :
    (∀ items e, toExpr? items = .ok e →
      (∀ b, e.HasValue a.value b ↔ e.eval a.value = b) ∧
        evalFrom a.value [] items = .ok [e.eval a.value] ∧
          eval items a.value = .ok (e.eval a.value)) ∧
    ∀ text f, Formula.parse text = .ok f →
      (∀ b, f.expr.HasValue a.value b ↔ f.expr.eval a.value = b) ∧
        evalFrom a.value [] f.rpn = .ok [f.expr.eval a.value] ∧
          f.eval a.value = .ok (f.expr.eval a.value) := by
  have hitems (items : Rpn) (e : Expr) (h : toExpr? items = .ok e) :
      (∀ b, e.HasValue a.value b ↔ e.eval a.value = b) ∧
        evalFrom a.value [] items = .ok [e.eval a.value] ∧
          eval items a.value = .ok (e.eval a.value) := by
    refine ⟨fun b => Expr.hasValue_iff, ?_, eval_eq_of_toExpr? h a.value⟩
    -- both stacks are empty at first, and the built one has a single expression in the end
    unfold toExpr? at h
    split at h <;> cases h
    rename_i hbuild
    exact evalFrom_of_build hbuild
  refine ⟨hitems, ?_⟩
  intro text f hparse
  exact hitems f.rpn f.expr (Formula.toExpr?_of_parse hparse)

-- The operators of the text stand in no place of the grammar, and the formula is `(NOT A) AND B`.
theorem evalFrom_of_toExpr?_misplaced :
    ∃ f, Formula.parse "a not and b" = .ok f ∧ f.rpn.toExpr? = .ok f.expr ∧
      f.expr.HasValue (Assignment.mk [("B", true)]).value true ∧
      evalFrom (Assignment.mk [("B", true)]).value [] f.rpn = .ok [true] ∧
      f.eval (Assignment.mk [("B", true)]).value = .ok true := by
  have hparse : Formula.parse "a not and b" =
      .ok ⟨SortedSet.ofList ["A", "B"],
        [.operand "A", .operator .not, .operand "B", .operator (.binary .and)],
        .binary .and (.not (.var "A")) (.var "B")⟩ := rfl
  have hbuild := Formula.toExpr?_of_parse hparse
  have hitems := (evalFrom_of_toExpr? ⟨[("B", true)]⟩).1 _ _ hbuild
  have htext := (evalFrom_of_toExpr? ⟨[("B", true)]⟩).2 _ _ hparse
  exact ⟨_, hparse, hbuild, (hitems.1 true).mpr rfl, hitems.2.1, htext.2.2⟩

/-! ## What a run adds up to -/

-- If every step appends something to a view of the stack, a run appends it item by item.
theorem view_of_build {α : Type} {view : List Expr → List α} {added : RpnItem → List α}
    (hstep : ∀ {item : RpnItem} {s t : List Expr}, buildStep s item = .ok t →
      view t = view s ++ added item) {items : Rpn} {s t : List Expr} (h : build s items = .ok t) :
    view t = view s ++ items.flatMap added := by
  induction items generalizing s with
  | nil =>
    cases h
    rw [List.flatMap_nil, List.append_nil]
  | cons item items ih =>
    rw [build, List.foldlM_cons] at h
    cases hs : buildStep s item with
    | error e => rw [hs] at h; cases h
    | ok s' =>
      rw [hs] at h
      rw [ih h, hstep hs, List.flatMap_cons, List.append_assoc]

/-! ## Leaves -/

/-- The name of an operand that can be a leaf: a parenthesis cannot. -/
def leafName? : RpnItem → Option String
  | .operand name => if name = "(" ∨ name = ")" then none else some name
  | .operator _ => none

/-- The leaves of the expressions on a stack, from the bottom up. -/
def leaves (stack : List Expr) : List String := stack.reverse.flatMap Expr.names

theorem leaves_cons (e : Expr) (stack : List Expr) :
    leaves (e :: stack) = leaves stack ++ e.names := by
  rw [leaves, List.reverse_cons, List.flatMap_append, List.flatMap_singleton]
  rfl

theorem leaves_of_buildStep {item : RpnItem} {s t : List Expr} (h : buildStep s item = .ok t) :
    leaves t = leaves s ++ (leafName? item).toList := by
  rcases item with name | _ | c
  · simp only [buildStep] at h
    split at h
    · cases h
    · rename_i hname
      cases h
      rw [leaves_cons, leafName?, if_neg hname]
      rfl
  · rcases s with _ | ⟨e, s⟩ <;> cases h
    rw [leaves_cons, leaves_cons, leafName?, Option.toList_none, List.append_nil]
    rfl
  · rcases s with _ | ⟨r, _ | ⟨l, s⟩⟩ <;> cases h
    rw [leaves_cons, leaves_cons, leaves_cons, leafName?, Option.toList_none, List.append_nil,
      List.append_assoc]
    rfl

theorem leaves_of_build {items : Rpn} {s t : List Expr} (h : build s items = .ok t) :
    leaves t = leaves s ++ items.filterMap leafName? := by
  rw [List.filterMap_eq_flatMap_toList]
  exact view_of_build leaves_of_buildStep h

-- The leaves of the expression are the operands of the sequence, in the same order.
theorem names_of_toExpr? {items : Rpn} {e : Expr} (h : toExpr? items = .ok e) :
    e.names = items.filterMap leafName? := by
  unfold toExpr? at h
  split at h <;> cases h
  rename_i hbuild
  have hleaves := leaves_of_build hbuild
  simpa [leaves] using hleaves

theorem leafName?_eq_some_iff {item : RpnItem} {name : String} :
    leafName? item = some name ↔ item = .operand name ∧ name ≠ "(" ∧ name ≠ ")" := by
  rcases item with n | o
  · by_cases hn : n = "(" ∨ n = ")"
    · simp only [leafName?, hn, if_true, RpnItem.operand.injEq]
      apply iff_of_false (by simp)
      rintro ⟨rfl, hl, hr⟩
      exact hn.elim hl hr
    · rw [not_or] at hn
      simp only [leafName?, hn.1, hn.2, or_self, if_false, Option.some.injEq, RpnItem.operand.injEq]
      apply Iff.intro
      · rintro rfl
        exact ⟨rfl, hn⟩
      · exact And.left
  · simp [leafName?]

theorem not_paren_of_mem_names {items : Rpn} {e : Expr} (h : toExpr? items = .ok e) :
    ∀ name ∈ e.names, name ≠ "(" ∧ name ≠ ")" := by
  intro name hname
  rw [names_of_toExpr? h, List.mem_filterMap] at hname
  rcases hname with ⟨item, -, hitem⟩
  exact (leafName?_eq_some_iff.mp hitem).2

theorem leafName?_item (p : Pending) : leafName? p.item = none := by
  cases p <;> rfl

theorem filterMap_leafName?_pending (waiting : List Pending) :
    (waiting.map Pending.item).filterMap leafName? = [] := by
  rw [List.filterMap_map, List.filterMap_eq_nil_iff]
  exact fun p _ => leafName?_item p

-- Operators and parentheses move; operands do not.
theorem filterMap_leafName?_reorder {tokens : List Token} (waiting : List Pending)
    (h : ∀ name, .operand name ∈ tokens → Grammar.IsVariable name) :
    (reorder tokens waiting).filterMap leafName? = tokens.filterMap Token.operandName? := by
  induction tokens generalizing waiting with
  | nil => exact filterMap_leafName?_pending waiting
  | cons t ts ih =>
    have hts (name : String) (hname : .operand name ∈ ts) : Grammar.IsVariable name :=
      h name (List.mem_cons_of_mem t hname)
    have hrest (waiting : List Pending) := ih waiting hts
    cases t with
    | operand name =>
      have hvar := h name List.mem_cons_self
      have hleaf : leafName? (.operand name) = some name := by
        rw [leafName?, if_neg (by simp [hvar.ne_lparen, hvar.ne_rparen])]
      rw [reorder, List.filterMap_cons_some hleaf, hrest]
      rfl
    | lparen =>
      rw [reorder, hrest]
      rfl
    | rparen =>
      rw [reorder, List.filterMap_append, filterMap_leafName?_pending, List.nil_append]
      split
      · exact hrest []
      · exact hrest _
    | operator o =>
      rw [reorder, List.filterMap_append, filterMap_leafName?_pending, List.nil_append, hrest]
      rfl

/-! ## Postorder -/

/-- The sequences of the expressions on a stack, from the bottom up. -/
def postorder (stack : List Expr) : Rpn := stack.reverse.flatMap ofExpr

theorem postorder_cons (e : Expr) (stack : List Expr) :
    postorder (e :: stack) = postorder stack ++ ofExpr e := by
  rw [postorder, List.reverse_cons, List.flatMap_append, List.flatMap_singleton]
  rfl

theorem postorder_of_buildStep {item : RpnItem} {s t : List Expr} (h : buildStep s item = .ok t) :
    postorder t = postorder s ++ [item] := by
  rcases item with name | _ | c
  · simp only [buildStep] at h
    split at h
    · cases h
    · cases h
      exact postorder_cons _ _
  · rcases s with _ | ⟨e, s⟩ <;> cases h
    rw [postorder_cons, postorder_cons, ofExpr, List.append_assoc]
  · rcases s with _ | ⟨r, _ | ⟨l, s⟩⟩ <;> cases h
    rw [postorder_cons, postorder_cons, postorder_cons, ofExpr]
    simp only [List.append_assoc]

/-- A sequence that builds an expression is the sequence of that expression. -/
theorem eq_ofExpr_of_toExpr? {items : Rpn} {e : Expr} (h : toExpr? items = .ok e) :
    items = ofExpr e := by
  unfold toExpr? at h
  split at h <;> cases h
  rename_i hbuild
  have hview := view_of_build postorder_of_buildStep hbuild
  rw [List.flatMap_singleton'] at hview
  simpa [postorder] using hview.symm

end Rpn

namespace Formula

/-- The names of a formula are the leaves of its expression, each once and in ascending order. -/
theorem names_eq_of_parse {text : String} {f : Formula} (h : parse text = .ok f) :
    f.names = SortedSet.ofList f.expr.names := by
  have hrpn : f.rpn = Rpn.ofTokens (Token.ofText text) := (parse_eq_ok_iff.mp h).2.1
  have hleaves := Rpn.names_of_toExpr? (toExpr?_of_parse h)
  have hvariables (name : String) (hname : .operand name ∈ Token.ofText text) :
      Grammar.IsVariable name := (Token.isName_of_mem_ofText hname).isVariable
  rw [hrpn, Rpn.ofTokens, Rpn.filterMap_leafName?_reorder [] hvariables] at hleaves
  rw [names_of_parse h, hleaves]
  rfl

theorem mem_names_of_parse {text : String} {f : Formula} (h : parse text = .ok f) {name : String} :
    name ∈ f.names ↔ name ∈ f.expr.names := by
  rw [names_eq_of_parse h, SortedSet.mem_ofList]

end Formula

end TwoLevel
