import TwoLevel.Proofs.IdleVariables
import TwoLevel.Proofs.SumAnalysis

/-!
# Minimising a minimised text

The minimised text is analysed over the variables that it mentions.  Its table is that of the
formula without the variables that are dropped, so what is selected for it is what was selected for
the formula, narrowed, and a pattern that is free at the dropped places has the same literals as the
narrowed one.  Main statement: the analysis of a minimised text has this text as its result
(`result_text_fixed`).
-/

namespace TwoLevel

namespace Assignment

-- Over the names that are kept, the projected row does what the row does over all names.
theorem value_ofRow_project {keep : List Bool} {names : List String} (hnames : names.Nodup)
    (hlen : names.length = keep.length) (n : Nat) {name : String} (hname : name ∈ kept keep names) :
    (ofRow (Pattern.project keep n) (kept keep names)).value name = (ofRow n names).value name := by
  have hdigits := digits_ofRow ((kept_sublist keep names).nodup hnames) (Pattern.project keep n)
  rw [length_kept hlen, ← Pattern.kept_lowBits, ← hlen, ← digits_ofRow hnames, kept_map,
    List.map_inj_left] at hdigits
  exact digit_inj (hdigits name hname)

end Assignment

namespace Analysis

open ProductTerm (sumExpr sumFormula)

variable {text : String} {settings : Settings} {a : Analysis}

/-- Which of its variables an analysis mentions in its sum. -/
def mentioned (a : Analysis) : List Bool :=
  a.names.map fun name => decide (name ∈ (sumExpr a.names a.result.selected).names)

/-- The values of the sum over the variables that it mentions. -/
def narrowTable (a : Analysis) : List Bool :=
  (List.range (2 ^ (kept a.mentioned a.names).length)).map fun n : Nat =>
    (sumExpr a.names a.result.selected).eval (Assignment.ofRow n (kept a.mentioned a.names)).value

/-- The analysis of the minimised text. -/
def narrowed (a : Analysis) : Analysis :=
  { text := a.result.text
    formula := sumFormula a.names a.result.selected
    table := a.narrowTable
    result := Minimisation.ofRows (kept a.mentioned a.names) (TruthTable.trueRows a.narrowTable)
    simplified := some (sumFormula a.names a.result.selected) }

theorem length_mentioned (a : Analysis) : a.mentioned.length = a.names.length := List.length_map _

theorem length_kept_mentioned (a : Analysis) :
    (kept a.mentioned a.names).length = a.mentioned.count true :=
  length_kept (length_mentioned a).symm

theorem length_narrowTable (a : Analysis) :
    a.narrowTable.length = 2 ^ a.mentioned.count true := by
  rw [narrowTable, List.length_map, List.length_range, length_kept_mentioned]

theorem mem_kept_mentioned {name : String} : name ∈ kept a.mentioned a.names ↔
    name ∈ a.names ∧ name ∈ (sumExpr a.names a.result.selected).names := by
  rw [mentioned, kept_map_eq_filter, List.mem_filter, decide_eq_true_eq]

namespace IsSum

theorem names_narrowed (h : IsSum text settings a) :
    a.narrowed.names = kept a.mentioned a.names := by
  have hsorted : (kept a.mentioned a.names).Pairwise (· < ·) :=
    a.formula.names.ascending.sublist (kept_sublist _ _)
  have hsets : (sumFormula a.names a.result.selected).names = ⟨_, hsorted⟩ := by
    apply SortedSet.ext
    intro name
    have hkept : name ∈ (⟨_, hsorted⟩ : SortedSet String) ↔ name ∈ kept a.mentioned a.names :=
      Iff.rfl
    rw [hkept, mem_kept_mentioned, sumFormula, SortedSet.mem_ofList]
    exact (and_iff_right_of_imp h.mem_names_of_sum).symm
  rw [narrowed, names, hsets]

theorem kept_mentioned_ne_nil (h : IsSum text settings a) : kept a.mentioned a.names ≠ [] := by
  rcases List.exists_mem_of_ne_nil _ h.names_sum_ne_nil with ⟨name, hname⟩
  exact List.ne_nil_of_mem (mem_kept_mentioned.mpr ⟨h.mem_names_of_sum hname, hname⟩)

-- A row of the table has the value of the row that is left of it.
theorem getElem?_table (h : IsSum text settings a) {n : Nat} (hn : n < 2 ^ a.mentioned.length) :
    a.table[n]? = a.narrowTable[Pattern.project a.mentioned n]? := by
  have hproject := Pattern.project_lt a.mentioned n
  have heval : (sumExpr a.names a.result.selected).eval (Assignment.ofRow
      (Pattern.project a.mentioned n) (kept a.mentioned a.names)).value =
        (sumExpr a.names a.result.selected).eval (Assignment.ofRow n a.names).value := by
    apply Expr.eval_congr
    intro name hname
    exact Assignment.value_ofRow_project (nodup_names a) (length_mentioned a).symm n
      (mem_kept_mentioned.mpr ⟨h.mem_names_of_sum hname, hname⟩)
  rw [length_mentioned] at hn
  rw [h.table_eq, narrowTable, List.getElem?_map, List.getElem?_map, List.getElem?_range hn,
    List.getElem?_range (by rwa [length_kept_mentioned]), Option.map_some, Option.map_some, heval,
    h.eval_sum hn]

theorem isWidened (h : IsSum text settings a) :
    TruthTable.IsWidened a.mentioned a.narrowTable a.table :=
  ⟨length_narrowTable a, by rw [h.length_table, length_mentioned],
    fun _ hn => h.getElem?_table hn⟩

-- The minimisation over the variables that are mentioned writes the same text.
theorem text_narrowed (h : IsSum text settings a) : a.narrowed.result.text = a.result.text := by
  rw [h.result_eq, Minimisation.text_widen (length_mentioned a).symm h.isWidened.isLift, narrowed]

theorem count_narrowed (h : IsSum text settings a) (hleast : settings.minVariables ≤ 1) :
    TruthTable.checkCount a.narrowed.names.length settings.minVariables
      settings.maxVariables = .ok () := by
  have hpos := List.length_pos_of_ne_nil h.kept_mentioned_ne_nil
  have hle := (kept_sublist a.mentioned a.names).length_le
  have hcount := TruthTable.checkCount_eq_ok_iff.mp h.count
  rw [h.names_narrowed]
  exact TruthTable.checkCount_eq_ok_iff.mpr ⟨by omega, by omega⟩

theorem isOf_narrowed (h : IsSum text settings a) (hleast : settings.minVariables ≤ 1) :
    IsOf a.result.text settings a.narrowed := by
  have hcount := h.count_narrowed hleast
  have htable : a.narrowed.formula.table a.narrowed.names = .ok a.narrowed.table := by
    have hrows := Formula.table_of_parse h.parse_text (TruthTable.checkCount_le hcount)
    rw [h.names_narrowed] at hrows ⊢
    exact hrows
  have hresult : Minimisation.ofTable a.narrowed.names a.narrowed.table =
      .ok a.narrowed.result := by
    rw [h.names_narrowed]
    exact Minimisation.ofTable_eq_ofRows
      ((length_narrowTable a).trans (by rw [length_kept_mentioned]))
      (h.isWidened.mem_iff.mp h.true_mem) (h.isWidened.mem_iff.mp h.false_mem)
  have hreread : reread a.narrowed.result = .ok a.narrowed.simplified := by
    have houtcome : a.narrowed.result.outcome =
        .sum a.narrowed.result.primes a.narrowed.result.selected := rfl
    rw [Analysis.reread, houtcome, h.text_narrowed, h.parse_text]
    rfl
  exact ⟨rfl, Formula.not_blank_of_parse h.parse_text, h.parse_text, hcount, htable, hresult,
    hreread⟩

end IsSum

/-- A minimised text that is not a constant is analysed again, over some of the variables, and
minimised to itself. -/
theorem result_text_fixed (h : ofText text settings = .ok a) (hleast : settings.minVariables ≤ 1)
    (hsum : a.result.constant? = none) :
    ∃ b, ofText a.result.text settings = .ok b ∧ b.names.Sublist a.names ∧
      b.result.constant? = none ∧ b.result.text = a.result.text := by
  have hsum' := (isOf_of_ofText h).isSum hsum
  refine ⟨a.narrowed, ofText_of_isOf (hsum'.isOf_narrowed hleast), ?_, rfl, hsum'.text_narrowed⟩
  rw [hsum'.names_narrowed]
  exact kept_sublist _ _

-- The second analysis has one variable less.
theorem result_text_fixed_vanishing :
    ∃ a b, ofText "a and b or c or a and not b" {} = .ok a ∧ a.names = ["A", "B", "C"] ∧
      a.result.constant? = none ∧ a.result.text = "C OR A" ∧ ofText "C OR A" {} = .ok b ∧
      b.names = ["A", "C"] ∧ b.result.constant? = none ∧ b.result.text = "C OR A" := by
  have hok : (ofText "a and b or c or a and not b" {}).map
      (fun a => (a.names, a.result.text, a.result.constant?)) =
        .ok (["A", "B", "C"], "C OR A", none) := by decide +kernel
  have hnames : (ofText "C OR A" {}).map names = .ok ["A", "C"] := by decide +kernel
  cases h : ofText "a and b or c or a and not b" {} with
  | error e =>
    rw [h] at hok
    cases hok
  | ok a =>
    rw [h] at hok
    have hparts := Prod.mk.inj (Except.ok.inj hok)
    rcases Prod.mk.inj hparts.2 with ⟨htext, hsum⟩
    rcases result_text_fixed h (by decide) hsum with ⟨b, hb, -, hconstant, hsame⟩
    rw [htext] at hb hsame
    rw [hb] at hnames
    exact ⟨a, b, rfl, hparts.1, hsum, htext, hb, Except.ok.inj hnames, hconstant, hsame⟩

end Analysis

end TwoLevel
