import TwoLevel.Page.Figure
import TwoLevel.Proofs.Cover
import TwoLevel.Proofs.PatternOrder
import TwoLevel.Proofs.Rows

/-!
# The drawn grid

A drawn table has a line of texts for the header and one for each row, and a text stands in every
cell between the limits of the axes.  The texts of a cell are found by its centre alone, so what is
found there does not depend on the order in which they were drawn.  Main statements: a line is read
back from the cells of its row (`readRow_ofTable`), and the whole drawing says what the table says
(`readsBack_ofTable`).
-/

namespace TwoLevel

/-! ## Numbered lists -/

-- A number belongs to the member at its place and to no other one.
theorem filter_zipIdx {α : Type} (l : List α) (first i : Nat) :
    (l.zipIdx first).filter (fun p => p.2 = first + i) =
      (l[i]?.map fun a => (a, first + i)).toList := by
  induction l generalizing first i with
  | nil => rfl
  | cons a l ih =>
    rw [List.zipIdx_cons]
    cases i with
    | zero =>
      have hlater : (l.zipIdx (first + 1)).filter (fun p => p.2 = first + 0) = [] := by
        apply List.filter_eq_nil_iff.mpr
        intro p hp
        have hle : first + 1 ≤ p.2 := List.le_snd_of_mem_zipIdx hp
        simp only [decide_eq_true_eq]
        omega
      rw [List.filter_cons_of_pos (by simp), hlater]
      rfl
    | succ i =>
      have hnext : first + (i + 1) = first + 1 + i := by omega
      rw [List.filter_cons_of_neg (by simp), List.getElem?_cons_succ, hnext]
      exact ih (first + 1) i

theorem zipIdx_map_zipIdx {α β : Type} (f : α × Nat → β) (l : List α) (first : Nat) :
    ((l.zipIdx first).map f).zipIdx (first + 1) =
      (l.zipIdx first).map fun p => (f p, p.2 + 1) := by
  induction l generalizing first with
  | nil => rfl
  | cons a l ih => rw [List.zipIdx_cons, List.map_cons, List.map_cons, List.zipIdx_cons, ih]

theorem flatMap_filter {α β : Type} {l : List α} {p : α → Bool} {f : α → List β}
    (h : ∀ a, p a = false → f a = []) : (l.filter p).flatMap f = l.flatMap f := by
  induction l with
  | nil => rfl
  | cons a l ih =>
    rw [List.flatMap_cons, ← ih]
    cases hp : p a with
    | true => rw [List.filter_cons_of_pos hp, List.flatMap_cons]
    | false => rw [List.filter_cons_of_neg (by simp [hp]), h a hp, List.nil_append]

theorem flatMap_range_getElem? {α : Type} (l : List α) :
    (List.range l.length).flatMap (fun i => l[i]?.toList) = l := by
  induction l with
  | nil => rfl
  | cons a l ih =>
    rw [List.length_cons, List.range_succ_eq_map, List.flatMap_cons, List.flatMap_map]
    exact congrArg (a :: ·) ih

namespace TruthTable

theorem trueRowsFrom_eq_filterMap (first : Nat) (table : List Bool) : trueRowsFrom first table =
    (table.zipIdx first).filterMap fun p => if p.1 then some p.2 else none := by
  induction table generalizing first with
  | nil => rfl
  | cons b table ih =>
    rw [List.zipIdx_cons]
    cases b with
    | true =>
      rw [trueRowsFrom, ih]
      rfl
    | false =>
      rw [trueRowsFrom, ih]
      rfl

end TruthTable

namespace Page

/-- A text and the place of its centre. -/
def Label.spot (l : Label) : (Int × Int) × String := ((l.x, l.y), l.text)

/-- The corner nearest the origin and the one opposite to it. -/
def Shade.corners (s : Shade) : (Int × Int) × (Int × Int) :=
  ((s.x, s.y), (s.x + s.width, s.y + s.height))

namespace Figure

/-! ## Reading a drawing -/

/-- A cell, by its column and row, is a unit square between the limits of both axes. -/
structure IsCell (f : Figure) (column row : Int) : Prop where
  left : f.xLimits.1 ≤ column
  right : column < f.xLimits.2
  top : f.yLimits.1 ≤ row
  bottom : row < f.yLimits.2

/-- The labels at the centre of a cell, which is half a cell from each of its edges.  Edges are
whole numbers of cells, as are the limits of the axes, and places of texts are in hundredths of a
cell. -/
def labelsAt (f : Figure) (column row : Int) : List Label :=
  f.labels.filter fun l => (l.x, l.y) = (100 * column + 50, 100 * row + 50)

/-- The texts in the cells of a row, from the left. -/
def readRow (f : Figure) (row : Int) : List String :=
  (List.range (f.xLimits.2 - f.xLimits.1).toNat).flatMap fun k : Nat =>
    (f.labelsAt (f.xLimits.1 + k) row).map Label.text

/-- A drawing says what a table says.  Each cell holds one text.  The first row reads as the names,
every other one as its number in binary and then the value of the function.  The lines of the grid
stand at the edges of the cells, and just the rows whose value is true are shaded. -/
structure ReadsBack (names : List String) (table : List Bool) (f : Figure) : Prop where
  count : f.labels.length = (names.length + 1) * (2 ^ names.length + 1)
  centred : ∀ l ∈ f.labels, ∃ column row, f.IsCell column row ∧
    l.x = 100 * column + 50 ∧ l.y = 100 * row + 50
  filled : ∀ column row, f.IsCell column row → ∃ l, f.labelsAt column row = [l]
  /-- The least row is at the top. -/
  downwards : f.inverted = true
  header : f.readRow f.yLimits.1 = names ++ ["F"]
  rows : ∀ i : Nat, i < 2 ^ names.length → ∃ digits last, f.readRow i = digits ++ [last] ∧
    digits.length = names.length ∧ (∀ d ∈ digits, d = "0" ∨ d = "1") ∧
    Pattern.least (digits.flatMap String.toList) = i ∧
    (last = "1" ↔ table[i]? = some true) ∧ (last = "0" ↔ table[i]? = some false)
  columnTicks : ∀ tick, tick ∈ f.xTicks ↔ f.xLimits.1 ≤ tick ∧ tick ≤ f.xLimits.2
  rowTicks : ∀ tick, tick ∈ f.yTicks ↔ f.yLimits.1 ≤ tick ∧ tick ≤ f.yLimits.2
  shaded : f.shaded.map Shade.corners = (TruthTable.trueRows table).map fun row : Nat =>
    ((f.xLimits.1, (row : Int)), (f.xLimits.2, (row : Int) + 1))
  shadedOnce : (f.shaded.map Shade.corners).Nodup

/-! ## Lines -/

/-- The texts of a line with their cells, from the left. -/
def lineCells (row : Int) (texts : List String) : List ((Int × Int) × String) :=
  texts.zipIdx.map fun p => ((p.2, row), p.1)

/-- The texts of several lines with their cells.  The first line is the header, in the row above
that of number zero. -/
def cellsOf (lines : List (List String)) : List ((Int × Int) × String) :=
  lines.zipIdx.flatMap fun p => lineCells (p.2 - 1) p.1

/-- A text that stands in the middle of its cell, half a cell from each of the edges. -/
def placed (s : (Int × Int) × String) : (Int × Int) × String :=
  ((100 * s.1.1 + 50, 100 * s.1.2 + 50), s.2)

/-- The values of the names in a row. -/
def digits (names : List String) (row : Nat) : List String :=
  names.map fun name => digit ((Assignment.ofRow row names).value name)

/-- The lines of a table: the names and `F`, and for each row its digits and the function's. -/
def linesOf (names : List String) (table : List Bool) : List (List String) :=
  (names ++ ["F"]) :: table.zipIdx.map fun p => digits names p.2 ++ [digit p.1]

theorem filter_lineCells_of_ne {row r : Int} (h : row ≠ r) (texts : List String) (column : Int) :
    (lineCells row texts).filter (fun s => s.1 = (column, r)) = [] := by
  apply List.filter_eq_nil_iff.mpr
  intro s hs
  obtain ⟨p, -, rfl⟩ := List.mem_map.mp hs
  simp only [decide_eq_true_eq, Prod.mk.injEq, not_and]
  exact fun _ => h

theorem filter_lineCells (row : Int) (texts : List String) (c : Nat) :
    (lineCells row texts).filter (fun s => s.1 = ((c : Int), row)) =
      (texts[c]?.map fun text => (((c : Int), row), text)).toList := by
  have hcolumn : ((fun s : (Int × Int) × String => decide (s.1 = ((c : Int), row))) ∘
      fun p : String × Nat => (((p.2 : Int), row), p.1)) = fun p => decide (p.2 = 0 + c) := by
    funext p
    rw [Function.comp_apply, decide_eq_decide, Prod.mk.injEq, and_iff_left rfl]
    omega
  rw [lineCells, List.filter_map, hcolumn, filter_zipIdx, Nat.zero_add]
  cases texts[c]? with
  | none => rfl
  | some text => rfl

/-- What stands in a cell is the text at the same place of the line of its row. -/
theorem filter_cellsOf (lines : List (List String)) (c k : Nat) :
    (cellsOf lines).filter (fun s => s.1 = ((c : Int), (k : Int) - 1)) =
      ((lines[k]?.bind fun texts => texts[c]?).map fun text =>
        (((c : Int), (k : Int) - 1), text)).toList := by
  have hothers (p : List String × Nat) (hp : decide (p.2 = 0 + k) = false) :
      (lineCells (p.2 - 1) p.1).filter (fun s => s.1 = ((c : Int), (k : Int) - 1)) = [] := by
    rw [Nat.zero_add, decide_eq_false_iff_not] at hp
    exact filter_lineCells_of_ne (by omega) p.1 c
  rw [cellsOf, List.filter_flatMap, ← flatMap_filter hothers, filter_zipIdx, Nat.zero_add]
  cases lines[k]? with
  | none => rfl
  | some texts =>
    rw [Option.map_some, Option.toList_some, List.flatMap_singleton]
    exact filter_lineCells (k - 1) texts c

theorem length_cellsOf {lines : List (List String)} {width : Nat}
    (h : ∀ texts ∈ lines, texts.length = width) :
    (cellsOf lines).length = lines.length * width := by
  have hlengths : (lines.zipIdx.map fun p => (lineCells (p.2 - 1) p.1).length) =
      List.replicate lines.length width := by
    rw [List.eq_replicate_iff, List.length_map, List.length_zipIdx]
    refine ⟨rfl, fun n hn => ?_⟩
    obtain ⟨p, hp, rfl⟩ := List.mem_map.mp hn
    rw [lineCells, List.length_map, List.length_zipIdx]
    exact h p.1 (List.fst_mem_of_mem_zipIdx hp)
  rw [cellsOf, List.length_flatMap, hlengths, List.sum_replicate_nat]

theorem exists_of_mem_cellsOf {lines : List (List String)} {s : (Int × Int) × String}
    (h : s ∈ cellsOf lines) : ∃ (c k : Nat) (texts : List String), lines[k]? = some texts ∧
      c < texts.length ∧ s.1 = ((c : Int), (k : Int) - 1) := by
  obtain ⟨p, hp, hs⟩ := List.mem_flatMap.mp h
  obtain ⟨q, hq, rfl⟩ := List.mem_map.mp hs
  have hline := List.mem_zipIdx_iff_getElem?.mp hp
  have htext := List.mem_zipIdx_iff_getElem?.mp hq
  exact ⟨q.2, p.2, p.1, hline, (List.getElem?_eq_some_iff.mp htext).1, rfl⟩

-- Texts in the middles of two cells have the same place only if the cells are the same.
theorem filter_placed (l : List ((Int × Int) × String)) (column row : Int) :
    (l.map placed).filter (fun s => s.1 = (100 * column + 50, 100 * row + 50)) =
      (l.filter fun s => s.1 = (column, row)).map placed := by
  have hplace : ((fun s : (Int × Int) × String =>
      decide (s.1 = (100 * column + 50, 100 * row + 50))) ∘ placed) =
        fun s => decide (s.1 = (column, row)) := by
    funext s
    rw [Function.comp_apply, placed, decide_eq_decide, Prod.mk.injEq, Prod.ext_iff]
    omega
  rw [List.filter_map, hplace]

/-! ## The drawing of a table -/

variable {names : List String} {table : List Bool}

theorem spots_rowLabels (names : List String) (row : Nat) (output : Bool) :
    (rowLabels names row output).map Label.spot =
      (lineCells row (digits names row ++ [digit output])).map placed := by
  rw [rowLabels, lineCells, digits, List.map_append, List.map_map, List.map_map,
    List.zipIdx_append, List.zipIdx_map, List.map_append, List.map_map, List.length_map,
    Nat.zero_add]
  rfl

theorem spots_ofTable (names : List String) (table : List Bool) :
    (ofTable names table).labels.map Label.spot =
      (cellsOf (linesOf names table)).map placed := by
  have hheader : ((names ++ ["F"]).zipIdx.map fun p => headerLabel p.1 p.2).map Label.spot =
      (lineCells (-1) (names ++ ["F"])).map placed := by
    rw [lineCells, List.map_map, List.map_map]
    rfl
  have hrows : (table.zipIdx.flatMap fun p => rowLabels names p.2 p.1).map Label.spot =
      ((table.zipIdx.map fun p => (digits names p.2 ++ [digit p.1], p.2 + 1)).flatMap
        fun p : List String × Nat => lineCells (p.2 - 1) p.1).map placed := by
    rw [List.map_flatMap, List.flatMap_map, List.map_flatMap]
    refine List.flatMap_congr fun p _ => ?_
    rw [spots_rowLabels]
    congr 2
    omega
  change List.map Label.spot (_ ++ _) = _
  rw [List.map_append, hheader, hrows, linesOf, cellsOf, List.zipIdx_cons,
    List.flatMap_cons, zipIdx_map_zipIdx _ table 0, List.map_append]
  rfl

variable (names table) in
theorem map_text_labelsAt (c k : Nat) :
    ((ofTable names table).labelsAt c (k - 1)).map Label.text =
      ((linesOf names table)[k]?.bind fun texts => texts[c]?).toList := by
  have hspots : ((ofTable names table).labelsAt c (k - 1)).map Label.text =
      (((ofTable names table).labels.map Label.spot).filter fun s =>
        s.1 = (100 * (c : Int) + 50, 100 * ((k : Int) - 1) + 50)).map Prod.snd := by
    rw [List.filter_map, List.map_map]
    rfl
  rw [hspots, spots_ofTable, filter_placed, filter_cellsOf]
  cases (linesOf names table)[k]?.bind fun texts => texts[c]? with
  | none => rfl
  | some text => rfl

theorem length_of_mem_linesOf {texts : List String} (h : texts ∈ linesOf names table) :
    texts.length = names.length + 1 := by
  obtain rfl | h := List.mem_cons.mp h
  · exact List.length_append
  · obtain ⟨p, -, rfl⟩ := List.mem_map.mp h
    rw [List.length_append, digits, List.length_map, List.length_singleton]

theorem length_linesOf (names : List String) (table : List Bool) :
    (linesOf names table).length = table.length + 1 := by
  rw [linesOf, List.length_cons, List.length_map, List.length_zipIdx]

theorem getElem?_linesOf_succ (names : List String) {row : Nat} {output : Bool}
    (h : table[row]? = some output) : (linesOf names table)[row + 1]? =
      some (digits names row ++ [digit output]) := by
  rw [linesOf, List.getElem?_cons_succ, List.getElem?_map, List.getElem?_zipIdx, h, Nat.zero_add]
  rfl

/-- The cells of a row hold the texts of its line. -/
theorem readRow_ofTable {k : Nat} {texts : List String}
    (h : (linesOf names table)[k]? = some texts) :
    (ofTable names table).readRow (k - 1) = texts := by
  have hwidth : ((ofTable names table).xLimits.2 - (ofTable names table).xLimits.1).toNat =
      texts.length := by
    rw [length_of_mem_linesOf (List.mem_of_getElem? h)]
    change ((names.length + 1 : Nat) - 0 : Int).toNat = names.length + 1
    omega
  have hcell (c : Nat) : ((ofTable names table).labelsAt ((ofTable names table).xLimits.1 + c)
      (k - 1)).map Label.text = texts[c]?.toList := by
    change ((ofTable names table).labelsAt (0 + c) (k - 1)).map Label.text = texts[c]?.toList
    rw [Int.zero_add, map_text_labelsAt, h, Option.bind_some]
  rw [readRow, hwidth, List.flatMap_congr fun c _ => hcell c]
  exact flatMap_range_getElem? texts

/-! ## Digits, ticks and strips -/

theorem mem_ticks_iff {first tick : Int} {count : Nat} :
    tick ∈ ticks first count ↔ first ≤ tick ∧ tick < first + count := by
  rw [ticks, List.mem_map]
  constructor
  · rintro ⟨k, hk, rfl⟩
    have hlt := List.mem_range.mp hk
    omega
  · rintro ⟨hle, hlt⟩
    exact ⟨(tick - first).toNat, List.mem_range.mpr (by omega), by omega⟩

theorem toList_digit (b : Bool) : (digit b).toList = [Assignment.digit b] := by
  cases b with
  | true => rfl
  | false => rfl

theorem digit_eq_one_iff {b : Bool} : digit b = "1" ↔ b = true := by
  revert b
  decide

theorem digit_eq_zero_iff {b : Bool} : digit b = "0" ↔ b = false := by
  revert b
  decide

theorem digit_eq_or (b : Bool) : digit b = "0" ∨ digit b = "1" := by
  revert b
  decide

/-- The digits of a row spell its number. -/
theorem least_digits (hnames : names.Nodup) {row : Nat} (hrow : row < 2 ^ names.length) :
    Pattern.least ((digits names row).flatMap String.toList) = row := by
  have hbits : (digits names row).flatMap String.toList =
      names.map fun name => Assignment.digit ((Assignment.ofRow row names).value name) := by
    rw [digits, List.flatMap_map, List.map_eq_flatMap]
    exact List.flatMap_congr fun name _ => toList_digit _
  rw [hbits, Assignment.digits_ofRow hnames, Pattern.least_lowBits hrow]

/-- A strip as wide as the drawing for each row whose value is true, in the order of the rows. -/
theorem corners_shaded_ofTable (names : List String) (table : List Bool) :
    (ofTable names table).shaded.map Shade.corners = (TruthTable.trueRows table).map
      fun row : Nat => ((0, (row : Int)), (((names.length + 1 : Nat) : Int), (row : Int) + 1)) := by
  have hstrip (row : Nat) : (rowShade names row).corners =
      ((0, (row : Int)), (((names.length + 1 : Nat) : Int), (row : Int) + 1)) := by
    rw [Shade.corners]
    change ((0, (row : Int)), (0 + ((names.length + 1 : Nat) : Int), (row : Int) + 1)) = _
    rw [Int.zero_add]
  rw [TruthTable.trueRows, TruthTable.trueRowsFrom_eq_filterMap, ofTable, List.map_filterMap,
    List.map_filterMap]
  refine List.filterMap_congr fun p _ => ?_
  obtain ⟨value, row⟩ := p
  cases value with
  | true => exact congrArg some (hstrip row)
  | false => rfl

theorem nodup_corners (width : Int) (table : List Bool) : ((TruthTable.trueRows table).map
    fun row : Nat => (((0 : Int), (row : Int)), (width, (row : Int) + 1))).Nodup := by
  have hrows : (TruthTable.trueRows table).Nodup :=
    (TruthTable.pairwise_trueRows table).imp fun hlt => Nat.ne_of_lt hlt
  refine hrows.map fun row other h => ?_
  simp only [Prod.mk.injEq, Int.natCast_inj] at h
  exact h.1.2

/-! ## Reading it back -/

theorem exists_labelsAt_eq_singleton {c k : Nat} (hc : c < names.length + 1)
    (hk : k < table.length + 1) : ∃ l, (ofTable names table).labelsAt c (k - 1) = [l] := by
  obtain ⟨texts, hline⟩ : ∃ texts, (linesOf names table)[k]? = some texts := by
    rw [← length_linesOf names table] at hk
    exact ⟨_, List.getElem?_eq_getElem hk⟩
  obtain ⟨text, htext⟩ : ∃ text, texts[c]? = some text := by
    rw [← length_of_mem_linesOf (List.mem_of_getElem? hline)] at hc
    exact ⟨_, List.getElem?_eq_getElem hc⟩
  have hmap := map_text_labelsAt names table c k
  rw [hline, Option.bind_some, htext, Option.toList_some] at hmap
  obtain ⟨l, hl, -⟩ := List.map_eq_singleton_iff.mp hmap
  exact ⟨l, hl⟩

theorem isCell_ofTable_iff {column row : Int} : (ofTable names table).IsCell column row ↔
    ∃ c k : Nat, c < names.length + 1 ∧ k < table.length + 1 ∧ column = c ∧ row = k - 1 := by
  constructor
  · rintro ⟨hleft, hright, htop, hbottom⟩
    change 0 ≤ column at hleft
    change column < (names.length + 1 : Nat) at hright
    change -1 ≤ row at htop
    change row < table.length at hbottom
    exact ⟨column.toNat, (row + 1).toNat, by omega, by omega, by omega, by omega⟩
  · rintro ⟨c, k, hc, hk, rfl, rfl⟩
    refine ⟨?_, ?_, ?_, ?_⟩
    · change (0 : Int) ≤ c
      omega
    · change (c : Int) < (names.length + 1 : Nat)
      omega
    · change (-1 : Int) ≤ k - 1
      omega
    · change (k : Int) - 1 < table.length
      omega

/-- The drawing of a table over distinct names says what the table says. -/
theorem readsBack_ofTable (hnames : names.Nodup) (hlen : table.length = 2 ^ names.length) :
    ReadsBack names table (ofTable names table) where
  count := by
    have hspots := congrArg List.length (spots_ofTable names table)
    rw [List.length_map, List.length_map, length_cellsOf fun _ => length_of_mem_linesOf,
      length_linesOf, hlen, Nat.mul_comm] at hspots
    exact hspots
  centred := by
    intro l hl
    have hspot := List.mem_map_of_mem (f := Label.spot) hl
    rw [spots_ofTable] at hspot
    obtain ⟨s, hs, hplace⟩ := List.mem_map.mp hspot
    obtain ⟨c, k, texts, hline, hc, hcell⟩ := exists_of_mem_cellsOf hs
    rw [length_of_mem_linesOf (List.mem_of_getElem? hline)] at hc
    have hk := (List.getElem?_eq_some_iff.mp hline).1
    rw [length_linesOf] at hk
    rw [placed, hcell, Label.spot, Prod.mk.injEq, Prod.mk.injEq] at hplace
    exact ⟨c, k - 1, isCell_ofTable_iff.mpr ⟨c, k, hc, hk, rfl, rfl⟩, hplace.1.1.symm,
      hplace.1.2.symm⟩
  filled := by
    intro column row hcell
    obtain ⟨c, k, hc, hk, rfl, rfl⟩ := isCell_ofTable_iff.mp hcell
    exact exists_labelsAt_eq_singleton hc hk
  downwards := rfl
  header := readRow_ofTable (k := 0) rfl
  rows := by
    intro i hi
    obtain ⟨output, houtput⟩ : ∃ output, table[i]? = some output :=
      ⟨_, List.getElem?_eq_getElem (hlen ▸ hi)⟩
    have hread := readRow_ofTable (getElem?_linesOf_succ names houtput)
    have hrow : ((i + 1 : Nat) : Int) - 1 = i := by omega
    rw [hrow] at hread
    refine ⟨_, _, hread, List.length_map _, ?_, least_digits hnames hi, ?_, ?_⟩
    · intro d hd
      obtain ⟨name, -, rfl⟩ := List.mem_map.mp hd
      exact digit_eq_or _
    · rw [houtput, digit_eq_one_iff, Option.some_inj]
    · rw [houtput, digit_eq_zero_iff, Option.some_inj]
  columnTicks := by
    intro tick
    change tick ∈ ticks 0 (names.length + 1 + 1) ↔ 0 ≤ tick ∧ tick ≤ (names.length + 1 : Nat)
    rw [mem_ticks_iff]
    omega
  rowTicks := by
    intro tick
    change tick ∈ ticks (-1) (table.length + 2) ↔ -1 ≤ tick ∧ tick ≤ table.length
    rw [mem_ticks_iff]
    omega
  shaded := corners_shaded_ofTable names table
  shadedOnce := by
    rw [corners_shaded_ofTable]
    exact nodup_corners _ table

-- The names need not be in order, and row one of two names reads as zero, one and its value.
theorem readsBack_ofTable_reordered :
    ReadsBack ["B", "A"] [false, true, true, false]
        (ofTable ["B", "A"] [false, true, true, false]) ∧
      (ofTable ["B", "A"] [false, true, true, false]).readRow 1 = ["0", "1", "1"] :=
  ⟨readsBack_ofTable (by decide) rfl, by decide +kernel⟩

end Figure

end Page

end TwoLevel
