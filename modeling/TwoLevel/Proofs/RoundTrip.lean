import TwoLevel.Analysis
import TwoLevel.Proofs.Cover
import TwoLevel.Proofs.SumOfProducts

/-!
# Round trips

What an analysis writes is read back as the function that it read.  The selected implicants of a
table cover its true rows, each of them has literals since some row is false, and the sum that their
text is read as is true in the rows that they cover.  Main statement: the minimised text of an
analysis has the table of the formula (`simplifiedTable_eq_table`).
-/

namespace TwoLevel

/-! ## Tables -/

namespace TruthTable

theorem eq_replicate_of_not_mem {table : List Bool} {n : Nat} {b : Bool}
    (hlen : table.length = n) (h : (!b) ∉ table) : table = List.replicate n b := by
  have hall : ∀ c ∈ table, c = b := by
    intro c hc
    by_contra hne
    rw [Bool.eq_not_of_ne hne] at hc
    exact h hc
  exact List.eq_replicate_iff.mpr ⟨hlen, hall⟩

theorem checkCount_eq_ok_iff {count : Nat} {least most : Int} :
    checkCount count least most = .ok () ↔ max least 1 ≤ count ∧ count ≤ min most maxNames := by
  unfold checkCount
  split
  · apply Iff.intro
    · intro h
      cases h
    · omega
  split
  · apply Iff.intro
    · intro h
      cases h
    · omega
  · exact iff_of_true rfl ⟨by omega, by omega⟩

theorem checkCount_le {count : Nat} {least most : Int}
    (h : checkCount count least most = .ok ()) : count ≤ maxNames := by
  have hle := (checkCount_eq_ok_iff.mp h).2
  omega

end TruthTable

namespace Minimisation

open Implicant (IsPrimeCover)
open Pattern (lowBits natCast_mem_cube)
open ProductTerm (literals renderSum sumExpr)
open Token (IsName)
open TruthTable (onSet trueRows)

variable {names : List String} {table : List Bool} {m : Minimisation}

-- A table that is minimised has one value in every row, or both values and a cover.
theorem ofTable_cases (h : ofTable names table = .ok m) :
    (∃ value, m.outcome = .constant value ∧ table = List.replicate (2 ^ names.length) value) ∨
      (m = ofRows names (trueRows table) ∧ table.length = 2 ^ names.length ∧
        true ∈ table ∧ false ∈ table) := by
  unfold ofTable at h
  rw [TruthTable.rowCount_eq] at h
  dsimp only at h
  split at h
  · cases h
  rename_i hlen
  rw [not_not] at hlen
  split at h
  · rename_i hnil
    cases h
    have hnever := TruthTable.trueRows_eq_nil_iff.mp hnil
    exact .inl ⟨false, rfl, TruthTable.eq_replicate_of_not_mem hlen hnever⟩
  rename_i hsome
  rw [TruthTable.trueRows_eq_nil_iff, not_not] at hsome
  split at h
  · rename_i hcount
    cases h
    rw [← hlen] at hcount
    have halways := TruthTable.length_trueRows_eq_iff.mp hcount
    exact .inl ⟨true, rfl, TruthTable.eq_replicate_of_not_mem hlen halways⟩
  rename_i hcount
  rw [← hlen, TruthTable.length_trueRows_eq_iff, not_not] at hcount
  cases h
  exact .inr ⟨rfl, hlen, hsome, hcount⟩

/-! ## The rows in which the sum is true -/

theorem natCast_mem_onSet {n : Nat} : (n : Int) ∈ onSet table ↔ table[n]? = some true := by
  unfold onSet
  simp only [Set.mem_ofPred, Int.natCast_inj, exists_eq_left]

-- A product without literals would hold in the false row as well.
theorem literals_ne_nil {selected : List Implicant} (hnodup : names.Nodup)
    (hcover : IsPrimeCover names.length (onSet table) selected)
    (hlen : table.length = 2 ^ names.length) (hfalse : false ∈ table) {x : Implicant}
    (hx : x ∈ selected) : literals x.bits names ≠ [] := by
  intro hnil
  have hterm := (hcover.isPrime x hx).isTerm
  rcases List.mem_iff_getElem?.mp hfalse with ⟨n, hrow⟩
  have hn : n < 2 ^ names.length := by
    rw [← hlen]
    exact (List.getElem?_eq_some_iff.mp hrow).1
  have hadmits : x.bits.Admits (lowBits names.length n) := by
    rw [← Assignment.digits_ofRow hnodup, ← ProductTerm.all_literals_iff hterm, hnil]
    rfl
  have hcube := (natCast_mem_cube hterm.length_eq hn).mpr hadmits
  have htrue := natCast_mem_onSet.mp ((hcover.isPrime x hx).inside hcube)
  rw [hrow] at htrue
  cases htrue

theorem selected_ne_nil {selected : List Implicant} {width : Nat}
    (hcover : IsPrimeCover width (onSet table) selected) (htrue : true ∈ table) :
    selected ≠ [] := by
  rcases List.mem_iff_getElem?.mp htrue with ⟨n, hrow⟩
  rcases (hcover.covers_iff n).mp (natCast_mem_onSet.mpr hrow) with ⟨x, hx, hcube⟩
  exact List.ne_nil_of_mem hx

-- The sum of a cover of a table has the table's value in every row.
theorem eval_sumExpr_ofRow {selected : List Implicant} (hnodup : names.Nodup)
    (hcover : IsPrimeCover names.length (onSet table) selected)
    (hlen : table.length = 2 ^ names.length) (htrue : true ∈ table) (hfalse : false ∈ table)
    {n : Nat} (hn : n < table.length) :
    (sumExpr names selected).eval (Assignment.ofRow n names).value = table[n] := by
  have hterm (x : Implicant) (hx : x ∈ selected) := (hcover.isPrime x hx).isTerm
  have hsum := ProductTerm.eval_sumExpr_iff_cube hnodup (selected_ne_nil hcover htrue) hterm
    (fun x hx => literals_ne_nil hnodup hcover hlen hfalse hx) (hlen ▸ hn)
  rw [Bool.eq_iff_iff, hsum, ← hcover.covers_iff, natCast_mem_onSet,
    List.getElem?_eq_getElem hn, Option.some.injEq]

/-! ## Reading the minimised text -/

theorem outcome_ofRows (names : List String) (rows : List Nat) : (ofRows names rows).outcome =
    .sum (ofRows names rows).primes (ofRows names rows).selected := rfl

theorem text_ofRows (names : List String) (rows : List Nat) :
    (ofRows names rows).text = renderSum (ofRows names rows).selected names := rfl

-- The text of a cover of a table is read as a formula with that table.
theorem parse_renderSum_table {selected : List Implicant} (hnames : ∀ name ∈ names, IsName name)
    (hnodup : names.Nodup) (hfew : names.length ≤ TruthTable.maxNames)
    (hcover : IsPrimeCover names.length (onSet table) selected)
    (hlen : table.length = 2 ^ names.length) (htrue : true ∈ table) (hfalse : false ∈ table) :
    ∃ f, Formula.parse (renderSum selected names) = .ok f ∧ f.table names = .ok table := by
  have hparse := ProductTerm.parse_renderSum hnames (selected_ne_nil hcover htrue)
  have hrows : (List.range (2 ^ names.length)).map
      (fun n : Nat => (sumExpr names selected).eval (Assignment.ofRow n names).value) = table := by
    apply List.ext_getElem
    · rw [List.length_map, List.length_range, hlen]
    · intro n _ hn
      rw [List.getElem_map, List.getElem_range]
      exact eval_sumExpr_ofRow hnodup hcover hlen htrue hfalse hn
  have htable := Formula.table_of_parse hparse hfew
  rw [TruthTable.rowCount_eq, hrows] at htable
  exact ⟨_, hparse, htable⟩

end Minimisation

/-! ## Analyses -/

namespace Analysis

theorem bind_eq_ok {ε α β : Type} {x : Except ε α} {f : α → Except ε β} {b : β} :
    x >>= f = .ok b ↔ ∃ a, x = .ok a ∧ f a = .ok b := by
  cases x with
  | error e => simp [bind, Except.bind]
  | ok a => simp [bind, Except.bind]

theorem mapError_eq_ok {ε δ α : Type} {x : Except ε α} {f : ε → δ} {a : α} :
    x.mapError f = .ok a ↔ x = .ok a := by
  cases x with
  | error e => simp [Except.mapError]
  | ok b => simp [Except.mapError]

/-- The stages of a text's analysis, each with its result. -/
structure IsOf (text : String) (settings : Settings) (a : Analysis) : Prop where
  text_eq : a.text = text
  not_blank : ¬Text.blank text.toList
  parse : Formula.parse text = .ok a.formula
  count : TruthTable.checkCount a.names.length settings.minVariables settings.maxVariables = .ok ()
  table : a.formula.table a.names = .ok a.table
  result : Minimisation.ofTable a.names a.table = .ok a.result
  reread : Analysis.reread a.result = .ok a.simplified

variable {text : String} {settings : Settings} {a : Analysis}

theorem isOf_of_ofText (h : ofText text settings = .ok a) : IsOf text settings a := by
  unfold ofText at h
  split at h
  · cases h
  rename_i hblank
  rw [bind_eq_ok] at h
  rcases h with ⟨formula, hparse, h⟩
  rw [bind_eq_ok] at h
  rcases h with ⟨_, hcount, h⟩
  rw [bind_eq_ok] at h
  rcases h with ⟨table, htable, h⟩
  rw [bind_eq_ok] at h
  rcases h with ⟨result, hresult, h⟩
  rw [bind_eq_ok] at h
  rcases h with ⟨simplified, hreread, h⟩
  rw [mapError_eq_ok] at hparse hcount htable hresult hreread
  cases h
  exact ⟨rfl, hblank, hparse, hcount, htable, hresult, hreread⟩

theorem ofText_of_isOf (h : IsOf text settings a) : ofText text settings = .ok a := by
  have htext := h.text_eq
  have hparse := h.parse
  have hcount := h.count
  have htable := h.table
  have hresult := h.result
  have hreread := h.reread
  rcases a with ⟨_, formula, table, result, simplified⟩
  subst htext
  unfold ofText
  rw [if_neg h.not_blank]
  simp only [hparse, names] at hcount htable hresult hreread ⊢
  simp only [Except.mapError, bind, Except.bind, pure, Except.pure]
  rw [hcount]
  simp only [htable]
  rw [hresult]
  simp only [hreread]

theorem nodup_names (a : Analysis) : a.names.Nodup := a.formula.nodup_names

-- The text that an analysis reads again is the one that its minimisation has written.
theorem simplifiedTable_of_sum {primes selected : List Implicant} {f : Formula}
    (hof : IsOf text settings a) (houtcome : a.result.outcome = .sum primes selected)
    (hparse : Formula.parse a.result.text = .ok f) : a.simplifiedTable = f.table a.names := by
  have hreread := hof.reread
  rw [Analysis.reread, houtcome, hparse] at hreread
  have hsimplified : a.simplified = some f := (Except.ok.inj hreread).symm
  rw [simplifiedTable, hsimplified]

theorem IsOf.simplified_of_constant (hof : IsOf text settings a) {value : Bool}
    (houtcome : a.result.outcome = .constant value) : a.simplified = none := by
  have hreread := hof.reread
  rw [Analysis.reread, houtcome] at hreread
  exact (Except.ok.inj hreread).symm

theorem simplifiedTable_of_constant {value : Bool} (hof : IsOf text settings a)
    (houtcome : a.result.outcome = .constant value) :
    a.simplifiedTable = .ok (List.replicate a.table.length value) := by
  have hconstant : a.result.constant? = some value := by rw [Minimisation.constant?, houtcome]
  rw [simplifiedTable, hof.simplified_of_constant houtcome, hconstant, ← List.map_const']
  rfl

/-- The minimised text of an analysis, read again, has the table of the formula; a constant has it
when it is repeated in every row. -/
theorem simplifiedTable_eq_table (h : ofText text settings = .ok a) :
    a.simplifiedTable = .ok a.table ∧
      match a.result.constant? with
      | some value => a.table = List.replicate (2 ^ a.names.length) value
      | none => ∃ f, Formula.parse a.result.text = .ok f ∧ f.table a.names = .ok a.table := by
  have hof := isOf_of_ofText h
  rcases Minimisation.ofTable_cases hof.result with ⟨value, houtcome, hall⟩ | ⟨hm, hlen, ht, hf⟩
  · have hconstant : a.result.constant? = some value := by rw [Minimisation.constant?, houtcome]
    rw [simplifiedTable_of_constant hof houtcome, hconstant]
    have hlen : a.table.length = 2 ^ a.names.length := by rw [hall, List.length_replicate]
    exact ⟨by rw [hlen, ← hall], hall⟩
  · have hnames (name : String) (hname : name ∈ a.names) : Token.IsName name :=
      Formula.isName_of_mem_names hof.parse hname
    have hfew := TruthTable.checkCount_le hof.count
    have hcover := Minimisation.isPrimeCover_ofRows hlen
    rcases Minimisation.parse_renderSum_table hnames (nodup_names a) hfew hcover hlen ht hf with
      ⟨f, hparse, htable⟩
    rw [← Minimisation.text_ofRows, ← hm] at hparse
    have houtcome := Minimisation.outcome_ofRows a.names (TruthTable.trueRows a.table)
    rw [← hm] at houtcome
    have hconstant : a.result.constant? = none := by rw [Minimisation.constant?, houtcome]
    rw [simplifiedTable_of_sum hof houtcome hparse, hconstant]
    exact ⟨htable, f, hparse, htable⟩

theorem simplifiedTable_sharp_s :
    ∃ a, ofText "ß and 1 or not ß" {} = .ok a ∧ a.names = ["1", "SS"] ∧
      a.simplifiedTable = .ok [true, false, true, true] := by
  have hok : (ofText "ß and 1 or not ß" {}).map (fun a => (a.names, a.table)) =
      .ok (["1", "SS"], [true, false, true, true]) := by decide +kernel
  cases h : ofText "ß and 1 or not ß" {} with
  | error e =>
    rw [h] at hok
    cases hok
  | ok a =>
    rw [h] at hok
    have hparts := Prod.mk.inj (Except.ok.inj hok)
    have hround := (simplifiedTable_eq_table h).1
    rw [hparts.2] at hround
    exact ⟨a, rfl, hparts.1, hround⟩

end Analysis

end TwoLevel
