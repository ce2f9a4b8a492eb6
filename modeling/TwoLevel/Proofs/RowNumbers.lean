import TwoLevel.Proofs.Agreement
import TwoLevel.Proofs.PatternOrder

/-!
# Row numbers

A row is told by its number, and the number by the digits of its pattern.  The evaluation of a row
and the pattern of the same row have the same digits, every assignment of distinct names is one row,
and a table over more names, in another order, repeats the rows of the smaller one.  Main statements:
the entries of a row (`entries_ofRow`), the row over some of the names that does what a row over all
of them does (`value_ofRow_rowAmong`), and the three together (`rows_agree`).
-/

namespace TwoLevel

namespace Assignment

/-! ## Entries -/

theorem putEntry_of_not_mem {name : String} {b : Bool} {entries : List (String × Bool)}
    (h : name ∉ entries.map Prod.fst) : putEntry name b entries = entries ++ [(name, b)] := by
  induction entries with
  | nil => rfl
  | cons e entries ih =>
    rw [List.map_cons, List.mem_cons, not_or] at h
    rw [putEntry, if_neg (Ne.symm h.1), ih h.2]
    rfl

-- New names go to the end, in their order.
theorem entries_foldl_put {pairs : List (String × Bool)} {a : Assignment}
    (h : ((a.entries ++ pairs).map Prod.fst).Nodup) :
    (pairs.foldl (fun a p => a.put p.1 p.2) a).entries = a.entries ++ pairs := by
  induction pairs generalizing a with
  | nil => rw [List.append_nil]; rfl
  | cons p pairs ih =>
    have hnew : p.1 ∉ a.entries.map Prod.fst := by
      rw [List.map_append, List.nodup_append'] at h
      exact fun hmem => h.2.2 hmem (List.mem_map_of_mem List.mem_cons_self)
    have hput : (a.put p.1 p.2).entries = a.entries ++ [p] := putEntry_of_not_mem hnew
    rw [List.foldl_cons, ih, hput, List.append_assoc]
    · rfl
    · rwa [hput, List.append_assoc]

/-- A row has an entry for each of its names, in their order. -/
theorem entries_ofRow {names : List String} (hnames : names.Nodup) (index : Int) :
    (ofRow index names).entries = names.map fun name => (name, (ofRow index names).value name) := by
  have hkeys : ((rowPairs index names).map Prod.fst).Nodup := by
    rw [map_fst_rowPairs]
    exact hnames
  have hpairs : (ofRow index names).entries = rowPairs index names := entries_foldl_put hkeys
  have hvalue : (rowPairs index names).map (fun p => (p.1, (ofRow index names).value p.1)) =
      rowPairs index names := by
    conv_rhs => rw [← List.map_id (rowPairs index names)]
    apply List.map_congr_left
    intro p hp
    rw [ofRow, value_ofPairs hkeys hp]
    rfl
  conv_rhs => rw [← map_fst_rowPairs index names, List.map_map]
  rw [map_fst_rowPairs, hpairs]
  exact hvalue.symm

/-! ## Digits -/

theorem digit_eq_one_iff {b : Bool} : digit b = '1' ↔ b = true := by
  revert b
  decide

theorem bits_ofRow_eq_map {names : List String} (hnames : names.Nodup) {row : Nat}
    (hrow : row < 2 ^ names.length) : (Implicant.ofRow names.length row).bits =
      names.map fun name => digit ((ofRow row names).value name) := by
  obtain ⟨h0, hlt⟩ := Pattern.natCast_bounds hrow
  show Pattern.ofRow names.length row = _
  rw [Pattern.ofRow_eq_lowBits h0 hlt, Int.toNat_natCast, digits_ofRow hnames]

/-- The value of a name is the digit at the place of the name. -/
theorem value_ofRow_eq_true_iff {names : List String} (hnames : names.Nodup) {row : Nat}
    (hrow : row < 2 ^ names.length) {j : Nat} {name : String} (hj : names[j]? = some name) :
    (ofRow row names).value name = true ↔
      (Implicant.ofRow names.length row).bits[j]? = some '1' := by
  rw [bits_ofRow_eq_map hnames hrow, List.getElem?_map, hj, Option.map_some, Option.some_inj,
    digit_eq_one_iff]

-- Rows that give all names the same values have the same digits.
theorem ofRow_inj {names : List String} (hnames : names.Nodup) {m n : Nat}
    (hm : m < 2 ^ names.length) (hn : n < 2 ^ names.length) (h : ofRow m names = ofRow n names) :
    m = n := by
  apply Pattern.lowBits_inj hm hn
  rw [← digits_ofRow hnames, ← digits_ofRow hnames, h]

theorem existsUnique_ofRow {names : List String} (hnames : names.Nodup) (v : String → Bool) :
    ∃! n : Nat, n < 2 ^ names.length ∧ ofRow n names = ⟨names.map fun name => (name, v name)⟩ := by
  obtain ⟨n, hn, hvalue⟩ := exists_ofRow hnames v
  have hrow : ofRow n names = ⟨names.map fun name => (name, v name)⟩ := by
    have hentries : (ofRow n names).entries = names.map fun name => (name, v name) := by
      rw [entries_ofRow hnames]
      exact List.map_congr_left fun name hname => by rw [hvalue name hname]
    rw [← hentries]
  refine ⟨n, ⟨hn, hrow⟩, ?_⟩
  rintro m ⟨hm, hsame⟩
  exact ofRow_inj hnames hm hn (hsame.trans hrow.symm)

/-! ## Rows over some of the names -/

/-- The row over some of the names that is formed by the digits of a row at the places of these
names. -/
def rowAmong (names own : List String) (row : Nat) : Nat :=
  Pattern.least (own.map fun name =>
    (Implicant.ofRow names.length row).bits.getD (names.idxOf name) '0')

variable {names own : List String}

theorem getD_bits_ofRow (hnames : names.Nodup) {row : Nat} (hrow : row < 2 ^ names.length)
    {name : String} (hname : name ∈ names) :
    (Implicant.ofRow names.length row).bits.getD (names.idxOf name) '0' =
      digit ((ofRow row names).value name) := by
  rw [bits_ofRow_eq_map hnames hrow, List.getD_eq_getElem?_getD, List.getElem?_map,
    List.getElem?_idxOf hname]
  rfl

theorem lowBits_rowAmong (hnames : names.Nodup) (hmem : ∀ name ∈ own, name ∈ names) {row : Nat}
    (hrow : row < 2 ^ names.length) : Pattern.lowBits own.length (rowAmong names own row) =
      own.map fun name => digit ((ofRow row names).value name) := by
  have hdigits : (own.map fun name =>
      (Implicant.ofRow names.length row).bits.getD (names.idxOf name) '0') =
        own.map fun name => digit ((ofRow row names).value name) :=
    List.map_congr_left fun name hname => getD_bits_ofRow hnames hrow (hmem name hname)
  have hspelled : Pattern.IsDigits (own.map fun name => digit ((ofRow row names).value name)) := by
    intro d hd
    obtain ⟨name, -, rfl⟩ := List.mem_map.mp hd
    cases (ofRow row names).value name
    · exact .inl rfl
    · exact .inr rfl
  have hbits := Pattern.lowBits_least_of_isDigits hspelled
  rw [List.length_map] at hbits
  rw [rowAmong, hdigits, hbits]

theorem rowAmong_lt (names own : List String) (row : Nat) :
    rowAmong names own row < 2 ^ own.length := by
  have hlt := Pattern.least_lt (own.map fun name =>
    (Implicant.ofRow names.length row).bits.getD (names.idxOf name) '0')
  rwa [List.length_map] at hlt

/-- The row over some of the names gives them the values that the row over all names gives them. -/
theorem value_ofRow_rowAmong (hnames : names.Nodup) (hown : own.Nodup)
    (hmem : ∀ name ∈ own, name ∈ names) {row : Nat} (hrow : row < 2 ^ names.length) {name : String}
    (hname : name ∈ own) :
    (ofRow (rowAmong names own row) own).value name = (ofRow row names).value name := by
  have hdigits := digits_ofRow hown (rowAmong names own row)
  rw [lowBits_rowAmong hnames hmem hrow, List.map_inj_left] at hdigits
  exact digit_inj (hdigits name hname)

end Assignment

namespace Formula

open Assignment (ofRow rowAmong)

variable {text : String} {f : Formula} {names : List String}

-- The formula's own names are no more than those of a list that has them all.
theorem length_names_le (h : ∀ name ∈ f.names, name ∈ names) :
    f.names.toList.length ≤ names.length := (nodup_names f).length_le_of_subset h

/-- A table over more names, and in any order, repeats the rows of the formula's own table. -/
theorem getElem?_table_rowAmong (hf : parse text = .ok f) (hnames : names.Nodup)
    (hfew : names.length ≤ TruthTable.maxNames) (hmem : ∀ name ∈ f.names, name ∈ names) :
    ∃ table own, f.table names = .ok table ∧ f.table f.names.toList = .ok own ∧
      table.length = 2 ^ names.length ∧ ∀ row < 2 ^ names.length,
        table[row]? = own[rowAmong names f.names.toList row]? := by
  have hown := table_of_parse hf (Nat.le_trans (length_names_le hmem) hfew)
  refine ⟨_, _, table_of_parse hf hfew, hown, ?_, ?_⟩
  · rw [List.length_map, List.length_range, TruthTable.rowCount_eq]
  · intro row hrow
    have hlt := Assignment.rowAmong_lt names f.names.toList row
    have heval : f.expr.eval (ofRow (rowAmong names f.names.toList row) f.names.toList).value =
        f.expr.eval (ofRow row names).value := by
      apply Expr.eval_congr
      intro name hname
      have hname : name ∈ f.names.toList := (mem_names_of_parse hf).mpr hname
      exact Assignment.value_ofRow_rowAmong hnames (nodup_names f) hmem hrow hname
    rw [List.getElem?_map, List.getElem?_map, TruthTable.rowCount_eq, TruthTable.rowCount_eq,
      List.getElem?_range hrow, List.getElem?_range hlt, Option.map_some, Option.map_some, heval]

end Formula

namespace Assignment

/-- Evaluation, tables and patterns number the rows over distinct names in the same way.  A name has
the value that its place has in the row's pattern; each assignment of the names is one row; and a
formula's table over any names that have its own repeats the rows of its own table, each where the
digits of the own names say. -/
theorem rows_agree :
    (∀ names : List String, names.Nodup → ∀ row : Nat, row < 2 ^ names.length →
      (Implicant.ofRow names.length row).bits.length = names.length ∧
      ∀ (j : Nat) (name : String), names[j]? = some name → ((ofRow row names).value name = true ↔
        (Implicant.ofRow names.length row).bits[j]? = some '1')) ∧
    (∀ names : List String, names.Nodup → ∀ v : String → Bool,
      ∃! row : Nat, row < 2 ^ names.length ∧
        ofRow row names = ⟨names.map fun name => (name, v name)⟩) ∧
    ∀ text f, Formula.parse text = .ok f → ∀ names : List String, names.Nodup →
      names.length ≤ TruthTable.maxNames → (∀ name ∈ f.names, name ∈ names) →
        ∃ table own, f.table names = .ok table ∧ f.table f.names.toList = .ok own ∧
          table.length = 2 ^ names.length ∧ ∀ row < 2 ^ names.length,
            table[row]? = own[rowAmong names f.names.toList row]? := by
  refine ⟨?_, ?_, ?_⟩
  · intro names hnames row hrow
    refine ⟨?_, fun j name hj => value_ofRow_eq_true_iff hnames hrow hj⟩
    rw [bits_ofRow_eq_map hnames hrow, List.length_map]
  · intro names hnames v
    exact existsUnique_ofRow hnames v
  · intro text f hf names hnames hfew hmem
    exact Formula.getElem?_table_rowAmong hf hnames hfew hmem

-- The formula's own names come in the other order and without the one in the middle: of row one,
-- `001`, its own table has the digits `10`.
theorem rows_agree_reordered :
    ((ofRow 4 ["C", "B", "A"]).value "C" = true ↔ (Implicant.ofRow 3 4).bits[0]? = some '1') ∧
    (∃! row : Nat, row < 8 ∧ ofRow row ["C", "B", "A"] =
      ⟨[("C", false), ("B", true), ("A", true)]⟩) ∧
    ∃ f table own, Formula.parse "a and not c" = .ok f ∧ f.table ["C", "B", "A"] = .ok table ∧
      f.table f.names.toList = .ok own ∧ table[1]? = own[2]? ∧ own[2]? = some true := by
  obtain ⟨hvalue, hunique, htable⟩ := rows_agree
  have hnames : ["C", "B", "A"].Nodup := by decide
  refine ⟨(hvalue _ hnames 4 (by decide)).2 0 "C" rfl, hunique _ hnames (· ≠ "C"), ?_⟩
  have hparse : Formula.parse "a and not c" = .ok ⟨SortedSet.ofList ["A", "C"],
      [.operand "A", .operand "C", .operator .not, .operator (.binary .and)],
      .binary .and (.var "A") (.not (.var "C"))⟩ := rfl
  obtain ⟨table, own, htab, hown, -, hrows⟩ :=
    htable _ _ hparse _ hnames (by decide) (by decide +kernel)
  have hone := hrows 1 (by decide)
  have hplace : rowAmong ["C", "B", "A"] (SortedSet.ofList ["A", "C"]).toList 1 = 2 := by decide
  rw [hplace] at hone
  refine ⟨_, table, own, hparse, htab, hown, hone, ?_⟩
  cases hown
  decide

end Assignment

end TwoLevel
