import TwoLevel.Proofs.Agreement

/-!
# The variables that matter

A formula depends on a variable if changing its value alone can change the formula's.  A prime
implicant has literals for such variables only: with the place of a literal freed it leaves the set,
and the row where it does so comes into the set when the literal's variable is changed.  Main
statement: the variables of a minimised text are those that the formula depends on
(`names_simplified`).
-/

namespace TwoLevel

namespace Formula

/-- Some assignments that differ in no other variable give the formula different values. -/
def DependsOn (f : Formula) (name : String) : Prop :=
  ∃ u v : String → Bool, (∀ n ∈ f.names, n ≠ name → u n = v n) ∧
    ∃ b c, f.eval u = .ok b ∧ f.eval v = .ok c ∧ b ≠ c

theorem dependsOn_iff {text : String} {f : Formula} (h : parse text = .ok f) {name : String} :
    f.DependsOn name ↔ ∃ u v : String → Bool, (∀ n ∈ f.names, n ≠ name → u n = v n) ∧
      f.expr.eval u ≠ f.expr.eval v := by
  unfold DependsOn
  simp only [eval_of_parse h, Except.ok.injEq, ↓existsAndEq, true_and]

end Formula

namespace ProductTerm

theorem literals_append {l r : Pattern} {names names' : List String}
    (h : l.length = names.length) :
    literals (l ++ r) (names ++ names') = literals l names ++ literals r names' := by
  rw [literals, List.zip_append h, List.filterMap_append]
  rfl

-- A literal has a place of its own, which it fixes.
theorem exists_split_of_mem_literals {bits : Pattern} {names : List String} {l : Literal}
    (hlen : bits.length = names.length) (h : l ∈ literals bits names) :
    ∃ p q ns ms, bits = p ++ Assignment.digit l.positive :: q ∧ names = ns ++ l.name :: ms ∧
      p.length = ns.length := by
  induction bits generalizing names with
  | nil => cases h
  | cons c bits ih =>
    cases names with
    | nil => cases hlen
    | cons name names =>
      rw [List.length_cons, List.length_cons, Nat.succ_inj] at hlen
      rw [literals_cons] at h
      have hlater (hl : l ∈ literals bits names) : ∃ p q ns ms,
          c :: bits = p ++ Assignment.digit l.positive :: q ∧
            name :: names = ns ++ l.name :: ms ∧ p.length = ns.length := by
        rcases ih hlen hl with ⟨p, q, ns, ms, rfl, rfl, hp⟩
        exact ⟨c :: p, q, name :: ns, ms, rfl, rfl, congrArg (· + 1) hp⟩
      split_ifs at h with hone hzero
      · rcases List.mem_cons.mp h with rfl | h
        · exact ⟨[], bits, [], names, by rw [hone]; rfl, rfl, rfl⟩
        · exact hlater h
      · rcases List.mem_cons.mp h with rfl | h
        · exact ⟨[], bits, [], names, by rw [hzero]; rfl, rfl, rfl⟩
        · exact hlater h
      · exact hlater h

theorem all_literals_update_of_not_mem {bits : Pattern} {names : List String} {name : String}
    (h : name ∉ names) (u : String → Bool) (b : Bool) :
    ((literals bits names).all fun l => Function.update u name b l.name == l.positive) =
      (literals bits names).all fun l => u l.name == l.positive := by
  rw [Bool.eq_iff_iff, List.all_eq_true, List.all_eq_true]
  apply forall₂_congr
  intro l hl
  have hne : l.name ≠ name := by
    intro heq
    exact h (heq ▸ mem_names_of_mem_literals hl)
  rw [Function.update_of_ne hne]

-- Values under which the other literals of a product hold are changed to hold the whole product.
theorem all_literals_update {p q : Pattern} {ns ms : List String} {name : String}
    (hlen : p.length = ns.length) (hnodup : (ns ++ name :: ms).Nodup) {u : String → Bool} (b : Bool)
    (h : ((literals (p ++ '-' :: q) (ns ++ name :: ms)).all fun l => u l.name == l.positive) =
      true) :
    ((literals (p ++ Assignment.digit b :: q) (ns ++ name :: ms)).all fun l =>
      Function.update u name b l.name == l.positive) = true := by
  have hns : name ∉ ns := fun hmem =>
    (List.nodup_append.mp hnodup).2.2 name hmem name List.mem_cons_self rfl
  have hms : name ∉ ms := (List.nodup_cons.mp (List.nodup_append.mp hnodup).2.1).1
  have hplace : literals (Assignment.digit b :: q) (name :: ms) =
      ⟨name, b⟩ :: literals q ms := by
    rw [literals_cons]
    cases b <;> rfl
  have hfree : literals ('-' :: q) (name :: ms) = literals q ms := by
    rw [literals_cons]
    rfl
  rw [literals_append hlen, hfree, List.all_append, Bool.and_eq_true] at h
  rw [literals_append hlen, hplace, List.all_append, List.all_cons,
    all_literals_update_of_not_mem hns, all_literals_update_of_not_mem hms,
    Function.update_self, beq_self_eq_true, Bool.true_and, h.1, h.2]
  rfl

end ProductTerm

namespace Analysis

open ProductTerm (Literal literals sumExpr)
open TruthTable (onSet)

variable {text : String} {settings : Settings} {a : Analysis}

theorem IsOf.natCast_mem_onSet (hof : IsOf text settings a) {n : Nat}
    (hn : n < 2 ^ a.names.length) : (n : Int) ∈ onSet a.table ↔
      a.formula.expr.eval (Assignment.ofRow n a.names).value = true := by
  rw [Minimisation.natCast_mem_onSet, hof.table_eq, List.getElem?_map, List.getElem?_range hn,
    Option.map_some, Option.some.injEq]

namespace IsSum

-- Where a selected implicant without one of its literals leaves the true rows, changing the
-- literal's variable leads back to them.
theorem dependsOn_of_mem_literals (h : IsSum text settings a) {x : Implicant}
    (hx : x ∈ a.result.selected) {l : Literal} (hl : l ∈ literals x.bits a.names) :
    a.formula.DependsOn l.name := by
  have hprime := h.isPrimeCover.isPrime x hx
  have hnodup := nodup_names a
  rcases ProductTerm.exists_split_of_mem_literals hprime.isTerm.length_eq hl with
    ⟨p, q, ns, ms, hbits, hnames, hlen⟩
  have hfree : Pattern.IsTerm a.names.length (p ++ '-' :: q) := by
    have hterm := hprime.isTerm
    rw [hbits] at hterm
    exact hterm.replace (.inr (.inr rfl))
  have hout : ¬Pattern.cube (p ++ '-' :: q) ⊆ onSet a.table := by
    have hfixed : Assignment.digit l.positive ≠ '-' := by cases l.positive <;> decide
    exact fun hsub => (Pattern.isPrime_iff.mp hprime).2 p _ q hbits hfixed ⟨hfree, hsub⟩
  rcases Set.not_subset.mp hout with ⟨row, hcube, hrow⟩
  rcases Pattern.mem_cube.mp hcube with ⟨h0, hlt, hadmits⟩
  rw [hfree.length_eq] at hlt hadmits
  have hn := Pattern.toNat_lt_two_pow h0 hlt
  rw [← Int.toNat_of_nonneg h0, h.natCast_mem_onSet hn] at hrow
  rw [← Assignment.digits_ofRow hnodup, ← ProductTerm.all_literals_iff hfree, hnames] at hadmits
  refine (Formula.dependsOn_iff h.parse).mpr
    ⟨(Assignment.ofRow row.toNat a.names).value,
      Function.update (Assignment.ofRow row.toNat a.names).value l.name l.positive, ?_, ?_⟩
  · intro n _ hne
    rw [Function.update_of_ne hne]
  · have hall := ProductTerm.all_literals_update hlen (hnames ▸ hnodup) l.positive hadmits
    rw [← hbits, ← hnames] at hall
    have hsum : a.formula.expr.eval
        (Function.update (Assignment.ofRow row.toNat a.names).value l.name l.positive) = true := by
      rw [h.eval_expr, ProductTerm.eval_sumExpr h.selected_ne_nil, List.any_eq_true]
      refine ⟨x, hx, ?_⟩
      rw [ProductTerm.eval_productExpr _ (h.literals_ne_nil hx)]
      exact hall
    intro heq
    exact hrow (heq.trans hsum)

/-- The sum mentions the variables that the formula depends on. -/
theorem mem_names_sum_iff_dependsOn (h : IsSum text settings a) {name : String} :
    name ∈ (sumExpr a.names a.result.selected).names ↔ a.formula.DependsOn name := by
  constructor
  · intro hname
    rcases h.mem_names_sum.mp hname with ⟨x, hx, l, hl, rfl⟩
    exact h.dependsOn_of_mem_literals hx hl
  · intro hdepends
    rcases (Formula.dependsOn_iff h.parse).mp hdepends with ⟨u, v, hsame, hdiffer⟩
    -- a sum without the variable has one value under both assignments
    by_contra hname
    apply hdiffer
    rw [h.eval_expr, h.eval_expr]
    apply Expr.eval_congr
    intro n hn
    exact hsame n (h.mem_names_of_sum hn) fun heq => hname (heq ▸ hn)

end IsSum

/-- The variables of a minimised text that is not a constant are those of the formula's variables
that it depends on, in ascending order, and there is at least one. -/
theorem names_simplified (h : ofText text settings = .ok a) (hsum : a.result.constant? = none) :
    ∃ f, a.simplified = some f ∧ f.names.toList ≠ [] ∧ f.names.toList.Pairwise (· < ·) ∧
      ∀ name, name ∈ f.names.toList ↔ name ∈ a.names ∧ a.formula.DependsOn name := by
  have hsum' := (isOf_of_ofText h).isSum hsum
  have hmem (name : String) :
      name ∈ (ProductTerm.sumFormula a.names a.result.selected).names.toList ↔
        name ∈ (sumExpr a.names a.result.selected).names := SortedSet.mem_ofList
  refine ⟨_, hsum'.simplified_eq, ?_, SortedSet.ascending _, ?_⟩
  · rcases List.exists_mem_of_ne_nil _ hsum'.names_sum_ne_nil with ⟨name, hname⟩
    exact List.ne_nil_of_mem ((hmem name).mpr hname)
  · intro name
    rw [hmem, hsum'.mem_names_sum_iff_dependsOn]
    exact (and_iff_right_of_imp fun hdepends =>
      hsum'.mem_names_of_sum (hsum'.mem_names_sum_iff_dependsOn.mpr hdepends)).symm

-- The second variable cancels out.
theorem names_simplified_cancelled :
    ∃ a f, ofText "a and b or c or a and not b" {} = .ok a ∧ a.result.constant? = none ∧
      a.names = ["A", "B", "C"] ∧ a.simplified = some f ∧ f.names.toList = ["A", "C"] ∧
      a.formula.DependsOn "A" ∧ ¬a.formula.DependsOn "B" ∧ a.formula.DependsOn "C" := by
  have hok : (ofText "a and b or c or a and not b" {}).map
      (fun a => (a.names, a.result.constant?, a.simplified.map (·.names.toList))) =
        .ok (["A", "B", "C"], none, some ["A", "C"]) := by decide +kernel
  cases h : ofText "a and b or c or a and not b" {} with
  | error e =>
    rw [h] at hok
    cases hok
  | ok a =>
    rw [h] at hok
    rcases Prod.mk.inj (Except.ok.inj hok) with ⟨hnames, hparts⟩
    rcases Prod.mk.inj hparts with ⟨hsum, hsimplified⟩
    rcases names_simplified h hsum with ⟨f, hf, -, -, hiff⟩
    rw [hf, Option.map_some, Option.some.injEq] at hsimplified
    rw [hnames, hsimplified] at hiff
    have hdepends (name : String) (hname : name ∈ ["A", "C"]) : a.formula.DependsOn name :=
      ((hiff name).mp hname).2
    have hnot : ¬a.formula.DependsOn "B" := fun hdepends =>
      absurd ((hiff "B").mpr ⟨by decide, hdepends⟩) (by decide)
    exact ⟨a, f, rfl, hsum, hnames, hf, hsimplified, hdepends "A" (by decide), hnot,
      hdepends "C" (by decide)⟩

end Analysis

end TwoLevel
