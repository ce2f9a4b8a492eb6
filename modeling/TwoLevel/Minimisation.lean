import TwoLevel.Implicant.Cover
import TwoLevel.Implicant.Prime
import TwoLevel.ProductTerm
import TwoLevel.TruthTable

/-!
# Minimisation

A truth table is minimised to a constant or to a sum of products, and every stage on the way is
kept.
-/

namespace TwoLevel

open Implicant (Cover)

inductive Stage where
  | minterms (rows : List Nat)
  | grouped (start : List Implicant)
  | round (number : Nat) (combined : List Implicant)
  | primes (found : List Implicant)
  | essential (chosen : List Implicant)
  | additional (chosen : List Implicant)
  | constant (value : Bool)
  | sum (selected : List Implicant)
deriving DecidableEq

namespace Stage

def title : Stage → String
  | .minterms _ => "Identify minterms"
  | .grouped _ => "Group by number of 1s"
  | .round number _ => "Combination round " ++ toString number
  | .primes _ => "Prime implicants"
  | .essential _ => "Essential prime implicants"
  | .additional _ => "Additional implicants"
  | .constant _ => "Final result"
  | .sum _ => "Final result"

/-- What the stage does, for a table over a number of variables. -/
def description (width : Nat) : Stage → String
  | .minterms rows =>
    "Rows where the output is 1 (" ++ toString rows.length ++ " of " ++
      toString (TruthTable.rowCount width) ++ ")."
  | .grouped _ => "Each minterm starts as an implicant, grouped by its count of 1 bits."
  | .round _ _ => "Implicants differing in exactly one bit are merged; that bit becomes '-'."
  | .primes found => toString found.length ++ " implicant(s) could not be combined further."
  | .essential _ => "Implicants that are the only cover for at least one minterm."
  | .additional _ => "Remaining minterms covered greedily by the widest implicant."
  | .constant value => "The expression is " ++ (if value then "always" else "never") ++ " true."
  | .sum selected => "Sum of " ++ toString selected.length ++ " product term(s)."

/-- A true row with its bits; without variables a dash stands for them. -/
def mintermLine (width row : Nat) : String :=
  "m" ++ toString row ++ " = " ++
    if width = 0 then "-" else String.ofList (Pattern.ofRow width row)

def groupLine (ones : Nat) (group : List Implicant) : String :=
  "Group " ++ toString ones ++ ": " ++ ", ".intercalate (group.map Implicant.describe)

def primeLine (names : List String) (x : Implicant) : String :=
  x.describe ++ " = " ++ ProductTerm.render x.bits names

def coverLine (names : List String) (x : Implicant) : String :=
  ProductTerm.render x.bits names ++ " covers " ++ Implicant.mintermText x.minterms

/-- What the stage found, line by line, over a list of names. -/
def lines (names : List String) : Stage → List String
  | .minterms rows => rows.map (mintermLine names.length)
  | .grouped start => (Implicant.groups start).map fun (ones, group) => groupLine ones group
  | .round _ combined => combined.map Implicant.describe
  | .primes found => found.map (primeLine names)
  | .essential chosen => chosen.map (coverLine names)
  | .additional chosen => chosen.map (coverLine names)
  | .constant value => [if value then "1" else "0"]
  | .sum selected => [ProductTerm.renderSum selected names]

end Stage

/-- What a table comes to: a constant, or the sum of the selected ones of its prime implicants. -/
inductive Outcome where
  | constant (value : Bool)
  | sum (primes selected : List Implicant)
deriving DecidableEq

/-- A table's outcome over the names of its variables, with the stages that led to it. -/
structure Minimisation where
  names : List String
  outcome : Outcome
  stages : List Stage
deriving DecidableEq

namespace Minimisation

def text (m : Minimisation) : String :=
  match m.outcome with
  | .constant value => if value then "1" else "0"
  | .sum _ selected => ProductTerm.renderSum selected m.names

def constant? (m : Minimisation) : Option Bool :=
  match m.outcome with
  | .constant value => some value
  | .sum _ _ => none

def primes (m : Minimisation) : List Implicant :=
  match m.outcome with
  | .constant _ => []
  | .sum primes _ => primes

def selected (m : Minimisation) : List Implicant :=
  match m.outcome with
  | .constant _ => []
  | .sum _ selected => selected

/-- The stages of a choice; one that chose nothing is left out. -/
def coverStages (c : Cover) : List Stage :=
  (if c.essential = [] then [] else [.essential c.essential]) ++
    if c.additional = [] then [] else [.additional c.additional]

/-- The stages of the combination rounds, counted from one. -/
def roundStages (rounds : List (List Implicant)) : List Stage :=
  (rounds.zipIdx 1).map fun (combined, number) => .round number combined

/-- The minimisation of a table that is neither always nor never true. A single prime implicant is
selected without any choice. -/
def ofRows (names : List String) (rows : List Nat) : Minimisation :=
  let minterms := rows.map Int.ofNat
  let start := minterms.map (Implicant.ofRow names.length)
  let found := Implicant.primes start
  let (selected, choice) :=
    -- nothing to choose from, so no stage says what was chosen
    if found.primes.length = 1 then (found.primes, [])
    else
      let cover := Implicant.chooseCover found.primes minterms
      (cover.selected, coverStages cover)
  { names
    outcome := .sum found.primes selected
    stages :=
      [.minterms rows, .grouped start] ++ roundStages found.rounds ++ [.primes found.primes] ++
        choice ++ [.sum selected] }

/-- The minimisation of a table that is always or never true. -/
def ofConstant (names : List String) (rows : List Nat) (value : Bool) : Minimisation :=
  { names, outcome := .constant value, stages := [.minterms rows, .constant value] }

/-- A table whose number of rows does not fit its number of variables. -/
structure RowCountError where
  width : Nat
  rows : Nat
deriving DecidableEq, Repr

def RowCountError.message (e : RowCountError) : String :=
  "Truth table for " ++ toString e.width ++ " variables needs " ++
    toString (TruthTable.rowCount e.width) ++ " rows, got " ++ toString e.rows ++ "."

/-- Minimises a truth table over a list of names. -/
def ofTable (names : List String) (table : List Bool) : Except RowCountError Minimisation :=
  let rows := TruthTable.trueRows table
  if table.length ≠ TruthTable.rowCount names.length then .error ⟨names.length, table.length⟩
  else if rows = [] then .ok (ofConstant names rows false)
  else if rows.length = TruthTable.rowCount names.length then .ok (ofConstant names rows true)
  else .ok (ofRows names rows)

end Minimisation

end TwoLevel
