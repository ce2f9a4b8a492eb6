import TwoLevel.Assignment
import TwoLevel.Formula

/-!
# Truth tables

A truth table is the list of a function's values, row by row. Main statement: a formula that was
read has a table over any names that are few enough, and the table holds the values of its
expression (`Formula.table_of_parse`).
-/

namespace TwoLevel

namespace TruthTable

def maxNames : Nat := 6

/-- How many rows there are over a number of names: two to its power. -/
def rowCount (width : Nat) : Nat := Nat.pow 2 width

/-- The numbers of the rows from `first` on whose value is true. -/
def trueRowsFrom (first : Nat) : List Bool → List Nat
  | [] => []
  | true :: rest => first :: trueRowsFrom (first + 1) rest
  | false :: rest => trueRowsFrom (first + 1) rest

def trueRows (table : List Bool) : List Nat := trueRowsFrom 0 table

theorem mem_trueRowsFrom {first row : Nat} {table : List Bool} :
    row ∈ trueRowsFrom first table ↔ first ≤ row ∧ table[row - first]? = some true := by
  induction table generalizing first with
  | nil => simp [trueRowsFrom]
  | cons b table ih =>
    have later : first < row → row - first = (row - (first + 1)) + 1 := by omega
    rcases Nat.lt_trichotomy row first with h | h | h
    · have hn : ¬first ≤ row := by omega
      have hs : ¬first + 1 ≤ row := by omega
      cases b <;> simp [trueRowsFrom, ih, hn, hs, Nat.ne_of_lt h]
    · subst h
      cases b with
      | true => simp [trueRowsFrom]
      | false =>
        rw [trueRowsFrom, ih, Nat.sub_self, List.getElem?_cons_zero]
        constructor
        · rintro ⟨hlater, -⟩
          omega
        · rintro ⟨-, hvalue⟩
          cases hvalue
    · have hl : first ≤ row := by omega
      have hs : first + 1 ≤ row := by omega
      cases b <;> simp [trueRowsFrom, ih, hl, hs, later h, Nat.ne_of_gt h]

theorem mem_trueRows {row : Nat} {table : List Bool} :
    row ∈ trueRows table ↔ table[row]? = some true := by
  simp [trueRows, mem_trueRowsFrom]

inductive Error where
  | tooManyNames
  | evaluation (e : Rpn.EvalError)
deriving DecidableEq, Repr

def Error.message : Error → String
  | .tooManyNames => "Maximum " ++ toString maxNames ++ " variables supported."
  | .evaluation e => e.message

inductive CountError where
  | noVariables
  | tooMany (most : Int)
deriving DecidableEq, Repr

def CountError.message : CountError → String
  | .noVariables => "No variables found in expression"
  | .tooMany most => "Maximum " ++ toString most ++ " variables supported"

/-- Checks a number of variables against bounds, of which the lower is at least one and the upper at
most the most names of a table. -/
def checkCount (count : Nat) (least most : Int) : Except CountError Unit :=
  if (count : Int) < max least 1 then .error .noVariables
  else if min most maxNames < (count : Int) then .error (.tooMany (min most maxNames))
  else .ok ()

end TruthTable

namespace Formula

/-- The formula's value in each row over a list of names; names it does not use are allowed. -/
def table (f : Formula) (names : List String) : Except TruthTable.Error (List Bool) :=
  if TruthTable.maxNames < names.length then .error .tooManyNames
  else
    ((List.range (TruthTable.rowCount names.length)).mapM fun row : Nat =>
      f.eval (Assignment.ofRow row names).value).mapError .evaluation

theorem mapM_ok {α β ε : Type} {g : α → Except ε β} {h : α → β} {l : List α}
    (hg : ∀ a ∈ l, g a = .ok (h a)) : l.mapM g = .ok (l.map h) := by
  induction l with
  | nil => rfl
  | cons a l ih =>
    rw [List.mapM_cons, hg a List.mem_cons_self, ih fun b hb => hg b (List.mem_cons_of_mem a hb)]
    rfl

theorem table_of_parse {text : String} {f : Formula} (h : parse text = .ok f) {names : List String}
    (few : names.length ≤ TruthTable.maxNames) :
    f.table names = .ok ((List.range (TruthTable.rowCount names.length)).map fun row : Nat =>
      f.expr.eval (Assignment.ofRow row names).value) := by
  unfold table
  rw [if_neg (Nat.not_lt.2 few), mapM_ok fun row _ => eval_of_parse h _]
  rfl

end Formula

end TwoLevel
