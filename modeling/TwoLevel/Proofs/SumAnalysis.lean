import TwoLevel.Proofs.ReversePolish
import TwoLevel.Proofs.RoundTrip

/-!
# Analyses that come to a sum

An analysis whose function is not constant selects a cover, writes it as a sum of products and reads
the sum again.  Main statements: every other analysis comes to a constant (`isSum_or_constant`), and
the formula of the minimised text is the sum of the cover (`IsSum.simplified_eq`), which has the
value of the table in every row (`IsSum.eval_sum`).
-/

namespace TwoLevel

namespace ProductTerm

/-- The sum of some implicants as the formula that its text is read as. -/
def sumFormula (names : List String) (selected : List Implicant) : Formula :=
  { names := SortedSet.ofList (sumExpr names selected).names
    rpn := Rpn.ofExpr (sumExpr names selected)
    expr := sumExpr names selected }

theorem parse_renderSum_eq {names : List String} (hnames : ∀ name ∈ names, Token.IsName name)
    {selected : List Implicant} (hne : selected ≠ []) :
    Formula.parse (renderSum selected names) = .ok (sumFormula names selected) := by
  have hparse := parse_renderSum hnames hne
  have hset := Formula.names_eq_of_parse hparse
  dsimp only at hset
  rw [hparse, hset]
  rfl

end ProductTerm

namespace Analysis

open Implicant (IsPrimeCover)
open ProductTerm (literals renderSum sumExpr sumFormula)
open TruthTable (onSet trueRows)

variable {text : String} {settings : Settings} {a : Analysis}

/-- The analysis of a text whose function has both values. -/
structure IsSum (text : String) (settings : Settings) (a : Analysis) : Prop
    extends IsOf text settings a where
  result_eq : a.result = Minimisation.ofRows a.names (trueRows a.table)
  length_table : a.table.length = 2 ^ a.names.length
  true_mem : true ∈ a.table
  false_mem : false ∈ a.table

theorem isSum_or_constant (hof : IsOf text settings a) :
    IsSum text settings a ∨ ∃ value, a.result.outcome = .constant value ∧
      a.table = List.replicate (2 ^ a.names.length) value := by
  rcases Minimisation.ofTable_cases hof.result with hconstant | ⟨hresult, hlen, htrue, hfalse⟩
  · exact .inr hconstant
  · exact .inl ⟨hof, hresult, hlen, htrue, hfalse⟩

theorem IsOf.isSum (hof : IsOf text settings a) (h : a.result.constant? = none) :
    IsSum text settings a := by
  rcases isSum_or_constant hof with hsum | ⟨value, houtcome, -⟩
  · exact hsum
  · rw [Minimisation.constant?, houtcome] at h
    cases h

-- The table lists the values of the formula row by row.
theorem IsOf.table_eq (hof : IsOf text settings a) :
    a.table = (List.range (2 ^ a.names.length)).map fun n : Nat =>
      a.formula.expr.eval (Assignment.ofRow n a.names).value := by
  have htable := hof.table
  rw [Formula.table_of_parse hof.parse (TruthTable.checkCount_le hof.count)] at htable
  exact (Except.ok.inj htable).symm

theorem IsOf.mem_names_of_expr (hof : IsOf text settings a) {name : String}
    (hname : name ∈ a.formula.expr.names) : name ∈ a.names :=
  (Formula.mem_names_of_parse hof.parse).mpr hname

namespace IsSum

theorem outcome_eq (h : IsSum text settings a) :
    a.result.outcome = .sum a.result.primes a.result.selected := by
  rw [h.result_eq, Minimisation.outcome_ofRows]

theorem text_eq_renderSum (h : IsSum text settings a) :
    a.result.text = renderSum a.result.selected a.names := by
  rw [h.result_eq, Minimisation.text_ofRows]

theorem isPrimeCover (h : IsSum text settings a) :
    IsPrimeCover a.names.length (onSet a.table) a.result.selected := by
  rw [h.result_eq]
  exact Minimisation.isPrimeCover_ofRows h.length_table

theorem isName (h : IsSum text settings a) {name : String} (hname : name ∈ a.names) :
    Token.IsName name := Formula.isName_of_mem_names h.parse hname

theorem selected_ne_nil (h : IsSum text settings a) : a.result.selected ≠ [] :=
  Minimisation.selected_ne_nil h.isPrimeCover h.true_mem

theorem literals_ne_nil (h : IsSum text settings a) {x : Implicant}
    (hx : x ∈ a.result.selected) : literals x.bits a.names ≠ [] :=
  Minimisation.literals_ne_nil (nodup_names a) h.isPrimeCover h.length_table h.false_mem hx

theorem parse_text (h : IsSum text settings a) :
    Formula.parse a.result.text = .ok (sumFormula a.names a.result.selected) := by
  rw [h.text_eq_renderSum]
  exact ProductTerm.parse_renderSum_eq (fun _ hname => h.isName hname) h.selected_ne_nil

/-- The minimised text is read again as the sum of the selected implicants. -/
theorem simplified_eq (h : IsSum text settings a) :
    a.simplified = some (sumFormula a.names a.result.selected) := by
  have hreread := h.reread
  rw [Analysis.reread, h.outcome_eq, h.parse_text] at hreread
  exact (Except.ok.inj hreread).symm

theorem mem_names_sum (h : IsSum text settings a) {name : String} :
    name ∈ (sumExpr a.names a.result.selected).names ↔
      ∃ x ∈ a.result.selected, ∃ l ∈ literals x.bits a.names, l.name = name :=
  ProductTerm.mem_names_sumExpr h.selected_ne_nil fun _ hx => h.literals_ne_nil hx

theorem mem_names_of_sum (h : IsSum text settings a) {name : String}
    (hname : name ∈ (sumExpr a.names a.result.selected).names) : name ∈ a.names := by
  rcases h.mem_names_sum.mp hname with ⟨x, -, l, hl, rfl⟩
  exact ProductTerm.mem_names_of_mem_literals hl

theorem names_sum_ne_nil (h : IsSum text settings a) :
    (sumExpr a.names a.result.selected).names ≠ [] := by
  rcases List.exists_mem_of_ne_nil _ h.selected_ne_nil with ⟨x, hx⟩
  rcases List.exists_mem_of_ne_nil _ (h.literals_ne_nil hx) with ⟨l, hl⟩
  exact List.ne_nil_of_mem (h.mem_names_sum.mpr ⟨x, hx, l, hl, rfl⟩)

/-- In every row the sum has the value of the formula. -/
theorem eval_sum (h : IsSum text settings a) {n : Nat} (hn : n < 2 ^ a.names.length) :
    (sumExpr a.names a.result.selected).eval (Assignment.ofRow n a.names).value =
      a.formula.expr.eval (Assignment.ofRow n a.names).value := by
  have hrow : n < a.table.length := by rw [h.length_table]; exact hn
  rw [Minimisation.eval_sumExpr_ofRow (nodup_names a) h.isPrimeCover h.length_table h.true_mem
    h.false_mem hrow]
  simp only [h.table_eq, List.getElem_map, List.getElem_range]

end IsSum

end Analysis

end TwoLevel
