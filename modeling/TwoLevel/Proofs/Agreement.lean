import TwoLevel.Proofs.PageEvents
import TwoLevel.Proofs.SumAnalysis

/-!
# Agreement of formulas

Equivalence of two formulas speaks of all assignments, their tables of the rows over some names.
Over names that have those of both formulas, every assignment does what some row does, so the two
say the same.  What tests equivalence is left open; all that matters is that its answers are right.
Main statement: formulas are equivalent exactly if their tables are equal, and so an analysis agrees
with itself and the page has no warning to show (`equivalent_iff_table_eq`).
-/

namespace TwoLevel

variable (test : EquivalenceTest)

namespace Assignment

-- Some row gives distinct names any values that are asked for.
theorem exists_ofRow {names : List String} (hnames : names.Nodup) (v : String → Bool) :
    ∃ n : Nat, n < 2 ^ names.length ∧ ∀ name ∈ names, (ofRow n names).value name = v name := by
  have hdigits : Pattern.IsDigits (names.map fun name => digit (v name)) := by
    intro d hd
    rcases List.mem_map.mp hd with ⟨name, -, rfl⟩
    cases v name
    · exact .inl rfl
    · exact .inr rfl
  rcases Pattern.exists_lowBits_eq hdigits with ⟨n, hn, hbits⟩
  rw [List.length_map] at hn hbits
  rw [← digits_ofRow hnames, List.map_inj_left] at hbits
  exact ⟨n, hn, fun name hname => digit_inj (hbits name hname)⟩

end Assignment

namespace Expr

-- Over names that have those of an expression, its value under an assignment is that in some row.
theorem exists_eval_ofRow {names : List String} (hnames : names.Nodup) (v : String → Bool) :
    ∃ n : Nat, n < 2 ^ names.length ∧ ∀ e : Expr, (∀ name ∈ e.names, name ∈ names) →
      e.eval (Assignment.ofRow n names).value = e.eval v := by
  rcases Assignment.exists_ofRow hnames v with ⟨n, hn, hvalue⟩
  exact ⟨n, hn, fun e he => eval_congr fun name hname => hvalue name (he name hname)⟩

theorem eval_eq_iff_rows {names : List String} (hnames : names.Nodup) {e d : Expr}
    (he : ∀ name ∈ e.names, name ∈ names) (hd : ∀ name ∈ d.names, name ∈ names) :
    (∀ v, e.eval v = d.eval v) ↔ ∀ n : Nat, n < 2 ^ names.length →
      e.eval (Assignment.ofRow n names).value = d.eval (Assignment.ofRow n names).value := by
  apply Iff.intro
  · intro h n _
    exact h _
  · intro h v
    rcases exists_eval_ofRow hnames v with ⟨n, hn, heval⟩
    rw [← heval e he, ← heval d hd]
    exact h n hn

end Expr

namespace Formula

-- Tables are equal as lists exactly if they are equal row by row.
theorem map_rows_eq_iff {α : Type} {n : Nat} {f g : Nat → α} :
    (List.range n).map f = (List.range n).map g ↔ ∀ k < n, f k = g k := by
  rw [List.map_inj_left]
  simp only [List.mem_range]

/-- Formulas that were read are equivalent exactly if they have the same table over names that have
those of both. -/
theorem equivalent_iff_tables {s t : String} {f g : Formula} (hf : parse s = .ok f)
    (hg : parse t = .ok g) {names : List String} (hnodup : names.Nodup)
    (hfew : names.length ≤ TruthTable.maxNames) (hfnames : ∀ name ∈ f.names, name ∈ names)
    (hgnames : ∀ name ∈ g.names, name ∈ names) :
    ∃ ft gt, f.table names = .ok ft ∧ g.table names = .ok gt ∧
      (test.equivalent f.expr g.expr = true ↔ ft = gt) := by
  refine ⟨_, _, table_of_parse hf hfew, table_of_parse hg hfew, ?_⟩
  have hfexpr (name : String) (hname : name ∈ f.expr.names) : name ∈ names :=
    hfnames name ((mem_names_of_parse hf).mpr hname)
  have hgexpr (name : String) (hname : name ∈ g.expr.names) : name ∈ names :=
    hgnames name ((mem_names_of_parse hg).mpr hname)
  rw [test.equivalent_iff, Expr.eval_eq_iff_rows hnodup hfexpr hgexpr, map_rows_eq_iff,
    TruthTable.rowCount_eq]

end Formula

namespace Analysis

variable {text : String} {settings : Settings} {a : Analysis}

/-- Under every assignment the formula has the value of the sum. -/
theorem IsSum.eval_expr (h : IsSum text settings a) : ∀ v, a.formula.expr.eval v =
    (ProductTerm.sumExpr a.names a.result.selected).eval v :=
  (Expr.eval_eq_iff_rows (nodup_names a) (fun _ => h.mem_names_of_expr)
    (fun _ => h.mem_names_of_sum)).mpr fun _ hn => (h.eval_sum hn).symm

theorem agrees_of_sum (h : IsSum text settings a) : a.agrees test = true := by
  rw [agrees, h.simplified_eq]
  exact test.equivalent_iff.mpr h.eval_expr

theorem agrees_of_constant (hof : IsOf text settings a) {value : Bool}
    (houtcome : a.result.outcome = .constant value)
    (htable : a.table = List.replicate (2 ^ a.names.length) value) : a.agrees test = true := by
  have hconstant : a.result.constant? = some value := by rw [Minimisation.constant?, houtcome]
  have hrows (n : Nat) (hn : n < 2 ^ a.names.length) :
      a.formula.expr.eval (Assignment.ofRow n a.names).value = value := by
    rw [hof.table_eq, List.eq_replicate_iff] at htable
    exact htable.2 _ (List.mem_map_of_mem (List.mem_range.mpr hn))
  rw [agrees, hof.simplified_of_constant houtcome, hconstant]
  apply test.constantly_iff.mpr
  intro v
  rcases Expr.exists_eval_ofRow (nodup_names a) v with ⟨n, hn, heval⟩
  rw [← heval a.formula.expr fun _ => hof.mem_names_of_expr]
  exact hrows n hn

/-- Every test finds that the formula of a text and its minimised form agree. -/
theorem agrees_of_ofText (h : ofText text settings = .ok a) : a.agrees test = true := by
  have hof := isOf_of_ofText h
  rcases isSum_or_constant hof with hsum | ⟨value, houtcome, htable⟩
  · exact agrees_of_sum test hsum
  · exact agrees_of_constant test hof houtcome htable

end Analysis

namespace Page

variable {test}

/-- No event is a warning. -/
def Unwarned (events : List Event) : Prop := ∀ message, .display .warning message ∉ events

theorem unwarned_heading (settings : Settings) : Unwarned (heading settings) := by
  intro message
  simp [heading]

-- The report warns only of an analysis that does not agree with itself.
theorem unwarned_report {settings : Settings} {a : Analysis} {events : List Event}
    (hagrees : a.agrees test = true) (h : report settings a test = .ok events) :
    Unwarned events := by
  intro message hmem
  cases alarms_report hagrees h _ hmem

theorem unwarned_complaint (text : String) (e : Analysis.Error) : Unwarned (complaint text e) := by
  intro message
  simp [complaint]

theorem unwarned_response {settings : Settings} {text : String} {events : List Event}
    (h : response settings text test = .ok events) : Unwarned events := by
  unfold response at h
  split at h
  · cases h
  · cases h
    exact unwarned_complaint _ _
  · rename_i a hanalysis
    rw [Analysis.mapError_eq_ok] at h
    exact unwarned_report (Analysis.agrees_of_ofText test hanalysis) h

theorem unwarned_run {env : Environment} {text : String} {pressed : Bool} {events : List Event}
    (h : run env text pressed test = .ok events) : Unwarned events := by
  unfold run at h
  split at h
  · cases h
  rename_i settings _
  split at h
  · cases hresponse : response settings text test with
    | error e => simp [hresponse, Except.map] at h
    | ok rest =>
      simp only [hresponse, Except.map, Except.ok.injEq] at h
      subst h
      intro message hmem
      rcases List.mem_append.mp hmem with hmem | hmem
      · exact unwarned_heading settings message hmem
      · exact unwarned_response hresponse message hmem
  · cases h
    exact unwarned_heading settings

end Page

/-- Formulas over some of at most six distinct names are equivalent exactly if they have the same
table over these names, whatever tests equivalence.  The formula of an analysis and that of its
minimised text are equivalent, and no page warns that they are not. -/
theorem equivalent_iff_table_eq :
    (∀ s t f g, Formula.parse s = .ok f → Formula.parse t = .ok g →
      ∀ names : List String, names.Nodup → names.length ≤ TruthTable.maxNames →
      (∀ name ∈ f.names, name ∈ names) → (∀ name ∈ g.names, name ∈ names) →
        ∃ ft gt, f.table names = .ok ft ∧ g.table names = .ok gt ∧
          (test.equivalent f.expr g.expr = true ↔ ft = gt)) ∧
    (∀ text settings a, Analysis.ofText text settings = .ok a → a.agrees test = true) ∧
    ∀ env text pressed events, Page.run env text pressed test = .ok events →
      ∀ message, .display .warning message ∉ events := by
  refine ⟨?_, ?_, ?_⟩
  · intro s t f g hf hg names hnodup hfew hfnames hgnames
    exact Formula.equivalent_iff_tables test hf hg hnodup hfew hfnames hgnames
  · intro text settings a h
    exact Analysis.agrees_of_ofText test h
  · intro env text pressed events h
    exact Page.unwarned_run h

-- The third name of the tables is in neither formula.
theorem equivalent_iff_table_eq_de_morgan :
    (∃ f g, Formula.parse "not (a and b)" = .ok f ∧ Formula.parse "not a or not b" = .ok g ∧
      f.expr.equivalent g.expr = true) ∧
    (∃ a, Analysis.ofText "not (a and b)" {} = .ok a ∧ a.agrees = true) ∧
    ∃ events, Page.run .empty "a or not a" true = .ok events ∧
      ∀ message, .display .warning message ∉ events := by
  rcases equivalent_iff_table_eq .ringSearch with ⟨htables, hanalyses, hpages⟩
  refine ⟨?_, ?_, ?_⟩
  · have hand : ∃ f, Formula.parse "not (a and b)" = .ok f ∧
        (∀ name ∈ f.names.toList, name ∈ ["C", "B", "A"]) ∧
        f.table ["C", "B", "A"] = .ok [true, true, true, false, true, true, true, false] :=
      ⟨_, rfl, by decide +kernel, by decide +kernel⟩
    have hor : ∃ f, Formula.parse "not a or not b" = .ok f ∧
        (∀ name ∈ f.names.toList, name ∈ ["C", "B", "A"]) ∧
        f.table ["C", "B", "A"] = .ok [true, true, true, false, true, true, true, false] :=
      ⟨_, rfl, by decide +kernel, by decide +kernel⟩
    rcases hand with ⟨f, hf, hfnames, hftable⟩
    rcases hor with ⟨g, hg, hgnames, hgtable⟩
    rcases htables _ _ f g hf hg ["C", "B", "A"] (by decide) (by decide) hfnames hgnames with
      ⟨ft, gt, hft, hgt, hiff⟩
    rw [hftable] at hft
    rw [hgtable, hft] at hgt
    exact ⟨f, g, hf, hg, hiff.mpr (Except.ok.inj hgt)⟩
  · have hok : (Analysis.ofText "not (a and b)" {}).isOk = true := by decide +kernel
    cases h : Analysis.ofText "not (a and b)" {} with
    | error e => rw [h] at hok; cases hok
    | ok a => exact ⟨a, rfl, hanalyses _ _ _ h⟩
  · have hok : (Page.run .empty "a or not a" true).isOk = true := by decide +kernel
    cases h : Page.run .empty "a or not a" true with
    | error e => rw [h] at hok; cases hok
    | ok events => exact ⟨events, rfl, hpages _ _ _ _ h⟩

end TwoLevel
