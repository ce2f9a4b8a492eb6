import TwoLevel.Assignment

/-!
# The drawn truth table

A truth table is drawn as a grid: a header row with the names and `F`, then a row for each row of
the table, shaded where the function is true. Texts stand at the centres of cells; lengths and
centres are in hundredths.
-/

namespace TwoLevel.Page

/-- A text centred at a point, in hundredths. -/
structure Label where
  x : Int
  y : Int
  text : String
  size : Nat
  bold : Bool
  color : Option String
deriving DecidableEq, Repr

/-- A filled rectangle, by its corner nearest the origin. -/
structure Shade where
  x : Int
  y : Int
  width : Nat
  height : Nat
  color : String
  layer : Int
deriving DecidableEq, Repr

/-- A drawing with its axes. The size is in hundredths, limits and ticks are in cells. -/
structure Figure where
  size : Nat × Nat
  xLimits : Int × Int
  yLimits : Int × Int
  xTicks : List Int
  yTicks : List Int
  /-- Whether the vertical axis runs downwards. -/
  inverted : Bool
  labels : List Label
  shaded : List Shade
deriving DecidableEq, Repr

namespace Figure

def oneColor : String := "#1f3c88"

def zeroColor : String := "#9aa7b7"

def mintermFill : String := "#e3f2fd"

def centre (cell : Int) : Int := 100 * cell + 50

/-- The whole numbers from `first` on, as many as asked for. -/
def ticks (first : Int) (count : Nat) : List Int := (List.range count).map fun k : Nat => first + k

def digit (b : Bool) : String := if b then "1" else "0"

def headerLabel (name : String) (column : Nat) : Label :=
  { x := centre column, y := centre (-1), text := name, size := 11, bold := true, color := none }

def valueLabel (row column : Nat) (b : Bool) : Label :=
  { x := centre column, y := centre row, text := digit b, size := 10, bold := false, color := none }

/-- The function's value in a row, in the column after the names. -/
def outputLabel (width row : Nat) (b : Bool) : Label :=
  { x := centre width, y := centre row, text := digit b, size := 11, bold := true
    color := some (if b then oneColor else zeroColor) }

def rowLabels (names : List String) (row : Nat) (output : Bool) : List Label :=
  let value := (Assignment.ofRow row names).value
  (names.zipIdx.map fun (name, column) => valueLabel row column (value name)) ++
    [outputLabel names.length row output]

def rowShade (names : List String) (row : Nat) : Shade :=
  { x := 0, y := row, width := names.length + 1, height := 1, color := mintermFill, layer := 0 }

def ofTable (names : List String) (table : List Bool) : Figure :=
  let columns := names.length + 1
  let rows := table.length
  { size := (90 * columns + 60, 32 * rows + 80)
    xLimits := (0, columns)
    yLimits := (-1, rows)
    xTicks := ticks 0 (columns + 1)
    yTicks := ticks (-1) (rows + 2)
    inverted := true
    labels :=
      ((names ++ ["F"]).zipIdx.map fun (name, column) => headerLabel name column) ++
        table.zipIdx.flatMap fun (output, row) => rowLabels names row output
    shaded :=
      table.zipIdx.filterMap fun (output, row) =>
        if output then some (rowShade names row) else none }

end Figure

end TwoLevel.Page
