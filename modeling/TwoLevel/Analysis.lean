import TwoLevel.Equivalence
import TwoLevel.Minimisation
import TwoLevel.Settings

/-!
# Analyses

An analysis reads a formula, checks its number of variables, tabulates and minimises it, and reads
the minimised text in its turn.
-/

namespace TwoLevel

structure Analysis where
  text : String
  formula : Formula
  table : List Bool
  result : Minimisation
  /-- The minimised text as a formula; a constant has none. -/
  simplified : Option Formula
deriving DecidableEq

namespace Analysis

/-- What keeps a text from being analysed. -/
inductive Error where
  | blank
  | parse (e : Rpn.ParseError)
  | count (e : TruthTable.CountError)
  | table (e : TruthTable.Error)
  | rows (e : Minimisation.RowCountError)
deriving DecidableEq

def Error.message : Error → String
  | .blank => "Enter an expression first."
  | .parse e => e.message
  | .count e => e.message
  | .table e => e.message
  | .rows e => e.message

/-- The minimised text as a formula, unless it is a constant. -/
def reread (m : Minimisation) : Except Rpn.ParseError (Option Formula) :=
  match m.outcome with
  | .constant _ => .ok none
  | .sum _ _ => (Formula.parse m.text).map some

/-- Analyses a text within the bounds of the settings. -/
def ofText (text : String) (settings : Settings) : Except Error Analysis := do
  -- the checks a text can fail
  if Text.blank text.toList then .error .blank
  let formula ← (Formula.parse text).mapError .parse
  let names := formula.names.toList
  (TruthTable.checkCount names.length settings.minVariables settings.maxVariables).mapError .count
  -- what follows has an answer for every text that passes them
  let table ← (formula.table names).mapError .table
  let result ← (Minimisation.ofTable names table).mapError .rows
  let simplified ← (reread result).mapError .parse
  return { text, formula, table, result, simplified }

/-- The names of the formula's variables, in ascending order. -/
def names (a : Analysis) : List String := a.formula.names.toList

/-- The table of the minimised text over the variables of the formula. -/
def simplifiedTable (a : Analysis) : Except TruthTable.Error (List Bool) :=
  match a.simplified with
  | none => .ok (a.table.map fun _ => a.result.constant?.getD false)
  | some f => f.table a.names

/-- Whether a test finds that the minimised form and the formula agree under every assignment. -/
def agrees (a : Analysis) (test : EquivalenceTest := .ringSearch) : Bool :=
  match a.simplified with
  | none => test.constantly a.formula.expr (a.result.constant?.getD false)
  | some f => test.equivalent a.formula.expr f.expr

/-- The products of the minimised text, each with the pattern that it is read as. -/
def termBits (a : Analysis) : Except ProductTerm.Error (List (String × Pattern)) :=
  match a.result.outcome with
  | .constant _ => .ok []
  | .sum _ _ =>
    (Text.pieces ProductTerm.disjunction.toList a.result.text.toList).mapM fun piece =>
      (ProductTerm.read (String.ofList piece) a.names).map fun bits => (String.ofList piece, bits)

end Analysis

end TwoLevel
