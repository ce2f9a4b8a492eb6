import TwoLevel.Proofs.Agreement
import TwoLevel.Proofs.JoinedText
import TwoLevel.Proofs.TermReading

/-!
# Texts that are refused

A text is refused for what it is, before anything is computed from it: it is blank, it is no
formula, or its variables are too few or too many.  Every later stage has an answer for what reaches
it, and so has everything that an analysis is asked for afterwards.  Main statement: an analysis
fails exactly with the first of these complaints (`ofText_eq_error_iff`).
-/

namespace TwoLevel

namespace TruthTable

theorem checkCount_eq_error_iff {count : Nat} {least most : Int} {e : CountError} :
    checkCount count least most = .error e ↔
      ((count : Int) < max least 1 ∧ e = .noVariables) ∨
        (max least 1 ≤ count ∧ min most maxNames < count ∧ e = .tooMany (min most maxNames)) := by
  unfold checkCount
  split
  · rename_i hfew
    simp only [Except.error.injEq, hfew, true_and, not_le.mpr hfew, false_and, or_false]
    exact eq_comm
  split
  · rename_i hfew hmany
    simp only [Except.error.injEq, hfew, hmany, not_lt.mp hfew, true_and, false_and, false_or]
    exact eq_comm
  · rename_i hfew hmany
    simp [hfew, hmany]

end TruthTable

namespace Formula

-- A formula has a row of its table for every assignment of few enough names.
theorem exists_table {text : String} {f : Formula} (h : parse text = .ok f) {names : List String}
    (few : names.length ≤ TruthTable.maxNames) :
    ∃ table, f.table names = .ok table ∧ table.length = 2 ^ names.length := by
  refine ⟨_, table_of_parse h few, ?_⟩
  rw [List.length_map, List.length_range, TruthTable.rowCount_eq]

end Formula

namespace Minimisation

-- Any table of the right length is minimised.
theorem exists_ofTable {names : List String} {table : List Bool}
    (h : table.length = 2 ^ names.length) : ∃ m, ofTable names table = .ok m := by
  unfold ofTable
  rw [TruthTable.rowCount_eq]
  dsimp only
  rw [if_neg (not_not.mpr h)]
  split_ifs
  · exact ⟨_, rfl⟩
  · exact ⟨_, rfl⟩
  · exact ⟨_, rfl⟩

end Minimisation

namespace Analysis

/-- The complaints about a text.  The checks come in this order, and each is made only of a text
that has passed those before it. -/
inductive Refused (text : String) (settings : Settings) : Error → Prop
  | blank : Text.trim text.toList = [] → Refused text settings .blank
  | parse {e : Rpn.ParseError} : Text.trim text.toList ≠ [] → Formula.parse text = .error e →
      Refused text settings (.parse e)
  | noVariables {f : Formula} : Text.trim text.toList ≠ [] → Formula.parse text = .ok f →
      (f.names.size : Int) < max settings.minVariables 1 →
        Refused text settings (.count .noVariables)
  | tooMany {f : Formula} : Text.trim text.toList ≠ [] → Formula.parse text = .ok f →
      max settings.minVariables 1 ≤ f.names.size →
      min settings.maxVariables 6 < f.names.size →
        Refused text settings (.count (.tooMany (min settings.maxVariables 6)))

variable {text : String} {settings : Settings} {a : Analysis} {f : Formula}

/-! ## The checks -/

theorem not_blank_of_trim (h : Text.trim text.toList ≠ []) : ¬Text.blank text.toList :=
  fun hblank => h (Text.trim_eq_nil_iff.mpr hblank)

theorem ofText_of_blank (settings : Settings) (h : Text.blank text.toList = true) :
    ofText text settings = .error .blank := by
  unfold ofText
  rw [if_pos h]
  rfl

theorem ofText_of_parse_error (settings : Settings) (hblank : ¬Text.blank text.toList)
    {e : Rpn.ParseError} (h : Formula.parse text = .error e) :
    ofText text settings = .error (.parse e) := by
  unfold ofText
  rw [if_neg hblank, h]
  rfl

theorem ofText_of_count_error (hblank : ¬Text.blank text.toList)
    (hparse : Formula.parse text = .ok f) {e : TruthTable.CountError}
    (h : TruthTable.checkCount f.names.size settings.minVariables settings.maxVariables =
      .error e) : ofText text settings = .error (.count e) := by
  unfold ofText
  unfold SortedSet.size at h
  rw [if_neg hblank, hparse]
  simp only [Except.mapError, bind, Except.bind, h]

theorem ofText_of_refused {e : Error} (h : Refused text settings e) :
    ofText text settings = .error e := by
  cases h with
  | blank h => exact ofText_of_blank settings (Text.trim_eq_nil_iff.mp h)
  | parse h hparse => exact ofText_of_parse_error settings (not_blank_of_trim h) hparse
  | noVariables h hparse hfew =>
    exact ofText_of_count_error (not_blank_of_trim h) hparse
      (TruthTable.checkCount_eq_error_iff.mpr (.inl ⟨hfew, rfl⟩))
  | tooMany h hparse hleast hmany =>
    exact ofText_of_count_error (not_blank_of_trim h) hparse
      (TruthTable.checkCount_eq_error_iff.mpr (.inr ⟨hleast, hmany, rfl⟩))

/-! ## The later stages -/

-- The text of a cover is read again, and a constant is not read.
theorem exists_reread {table : List Bool} {m : Minimisation} (hparse : Formula.parse text = .ok f)
    (h : Minimisation.ofTable f.names.toList table = .ok m) : ∃ s, reread m = .ok s := by
  rcases Minimisation.ofTable_cases h with ⟨value, houtcome, -⟩ | ⟨rfl, hlen, htrue, hfalse⟩
  · rw [reread, houtcome]
    exact ⟨none, rfl⟩
  · have hnames (name : String) (hname : name ∈ f.names.toList) : Token.IsName name :=
      Formula.isName_of_mem_names hparse hname
    have hselected := Minimisation.selected_ne_nil (Minimisation.isPrimeCover_ofRows hlen) htrue
    rw [reread, Minimisation.outcome_ofRows, Minimisation.text_ofRows]
    dsimp only
    rw [ProductTerm.parse_renderSum_eq hnames hselected]
    exact ⟨_, rfl⟩

/-- A text that passes the checks is analysed. -/
theorem exists_isOf (hblank : ¬Text.blank text.toList) (hparse : Formula.parse text = .ok f)
    (hcount : TruthTable.checkCount f.names.size settings.minVariables settings.maxVariables =
      .ok ()) : ∃ a, IsOf text settings a := by
  rcases Formula.exists_table hparse (TruthTable.checkCount_le hcount) with ⟨table, htable, hlen⟩
  rcases Minimisation.exists_ofTable hlen with ⟨m, hm⟩
  rcases exists_reread hparse hm with ⟨s, hs⟩
  exact ⟨⟨text, f, table, m, s⟩, ⟨rfl, hblank, hparse, hcount, htable, hm, hs⟩⟩

-- Every text is refused or analysed.
theorem refused_or_isOf (text : String) (settings : Settings) :
    (∃ e, Refused text settings e) ∨ ∃ a, IsOf text settings a := by
  by_cases htrim : Text.trim text.toList = []
  · exact .inl ⟨_, .blank htrim⟩
  cases hparse : Formula.parse text with
  | error e => exact .inl ⟨_, .parse htrim hparse⟩
  | ok f =>
    cases hcount : TruthTable.checkCount f.names.size settings.minVariables
        settings.maxVariables with
    | error e =>
      rcases TruthTable.checkCount_eq_error_iff.mp hcount with ⟨hfew, -⟩ | ⟨hleast, hmany, -⟩
      · exact .inl ⟨_, .noVariables htrim hparse hfew⟩
      · exact .inl ⟨_, .tooMany htrim hparse hleast hmany⟩
    | ok _ =>
      exact .inr (exists_isOf (not_blank_of_trim htrim) hparse hcount)

theorem refused_of_ofText {e : Error} (h : ofText text settings = .error e) :
    Refused text settings e := by
  rcases refused_or_isOf text settings with ⟨d, hd⟩ | ⟨a, ha⟩
  · rw [ofText_of_refused hd] at h
    cases h
    exact hd
  · rw [ofText_of_isOf ha] at h
    cases h

/-! ## What an analysis is asked for -/

theorem IsOf.exists_simplifiedTable (h : IsOf text settings a) :
    ∃ table, a.simplifiedTable = .ok table := by
  rcases isSum_or_constant h with hsum | ⟨value, houtcome, -⟩
  · rcases Formula.exists_table hsum.parse_text (TruthTable.checkCount_le h.count) with
      ⟨table, htable, -⟩
    rw [simplifiedTable, hsum.simplified_eq]
    exact ⟨table, htable⟩
  · exact ⟨_, simplifiedTable_of_constant h houtcome⟩

theorem IsOf.exists_termBits (h : IsOf text settings a) : ∃ terms, a.termBits = .ok terms := by
  rcases isSum_or_constant h with hsum | ⟨value, houtcome, -⟩
  · exact ⟨_, hsum.termBits_eq⟩
  · rw [termBits, houtcome]
    exact ⟨[], rfl⟩

/-- The analysis of a text fails exactly with the first complaint about it.  A text that nothing is
said against goes through all the stages, and its analysis answers whatever it is asked for. -/
theorem ofText_eq_error_iff (text : String) (settings : Settings) :
    (∀ e, ofText text settings = .error e ↔ Refused text settings e) ∧
      ((∀ e, ¬Refused text settings e) → ∃ a, ofText text settings = .ok a ∧
        a.formula.table a.names = .ok a.table ∧
        Minimisation.ofTable a.names a.table = .ok a.result ∧
        reread a.result = .ok a.simplified ∧ (∃ table, a.simplifiedTable = .ok table) ∧
        (∀ test, a.agrees test = true) ∧ ∃ terms, a.termBits = .ok terms) := by
  refine ⟨fun e => ⟨refused_of_ofText, ofText_of_refused⟩, ?_⟩
  intro hpassed
  rcases refused_or_isOf text settings with ⟨e, he⟩ | ⟨a, ha⟩
  · exact absurd he (hpassed e)
  · have htext := ofText_of_isOf ha
    exact ⟨a, htext, ha.table, ha.result, ha.reread, ha.exists_simplifiedTable,
      fun test => agrees_of_ofText test htext, ha.exists_termBits⟩

-- Bounds below one and above six count as one and six, and the lower bound is checked first.
theorem ofText_eq_error_iff_bounds :
    ofText "a xor b xor c" ⟨4, 2, "", true⟩ = .error (.count .noVariables) ∧
    ofText "a xor b xor c" ⟨-3, 2, "", true⟩ = .error (.count (.tooMany 2)) ∧
    ∃ a, ofText "a xor b xor c" ⟨-3, 100, "", true⟩ = .ok a ∧ a.agrees = true ∧
      ∃ terms, a.termBits = .ok terms := by
  have htrim : Text.trim "a xor b xor c".toList ≠ [] := by decide +kernel
  have hparse : ∃ f, Formula.parse "a xor b xor c" = .ok f ∧ f.names.size = 3 :=
    ⟨_, rfl, by decide +kernel⟩
  rcases hparse with ⟨f, hf, hsize⟩
  refine ⟨?_, ?_, ?_⟩
  · apply ((ofText_eq_error_iff _ _).1 _).mpr
    exact .noVariables htrim hf (by rw [hsize]; decide)
  · apply ((ofText_eq_error_iff _ _).1 _).mpr
    exact .tooMany htrim hf (by rw [hsize]; decide) (by rw [hsize]; decide)
  · have hpassed : ∀ e, ¬Refused "a xor b xor c" ⟨-3, 100, "", true⟩ e := by
      intro e he
      cases he with
      | blank h => exact htrim h
      | parse _ h =>
        rw [hf] at h
        cases h
      | noVariables _ h hfew =>
        rw [hf] at h
        cases h
        rw [hsize] at hfew
        exact absurd hfew (by decide)
      | tooMany _ h _ hmany =>
        rw [hf] at h
        cases h
        rw [hsize] at hmany
        exact absurd hmany (by decide)
    rcases (ofText_eq_error_iff _ _).2 hpassed with ⟨a, ha, -, -, -, -, hagrees, hterms⟩
    exact ⟨a, ha, hagrees .ringSearch, hterms⟩

end Analysis

end TwoLevel
