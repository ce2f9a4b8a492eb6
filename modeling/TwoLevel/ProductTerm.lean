import TwoLevel.Implicant
import TwoLevel.Operator
import TwoLevel.Text.Pieces
import TwoLevel.Text.Words

/-!
# Product terms

A pattern over a list of names is written as a product of literals, and read back from such a text.
Without any literal the product is `1`.
-/

namespace TwoLevel.ProductTerm

structure Literal where
  name : String
  positive : Bool
deriving DecidableEq, Repr

def Literal.render (l : Literal) : String :=
  if l.positive then l.name else Operator.not.name ++ " " ++ l.name

/-- The literals of a pattern: one for every name whose place is one or zero. -/
def literals (bits : Pattern) (names : List String) : List Literal :=
  (bits.zip names).filterMap fun (c, name) =>
    if c = '1' then some ⟨name, true⟩ else if c = '0' then some ⟨name, false⟩ else none

/-- What stands between the literals of a product. -/
def conjunction : String := " " ++ Connective.and.name ++ " "

/-- What stands between the products of a sum. -/
def disjunction : String := " " ++ Connective.or.name ++ " "

/-- The product of some literals, in parentheses if there are several. -/
def renderLiterals : List Literal → String
  | [] => "1"
  | [l] => l.render
  | ls => "(" ++ conjunction.intercalate (ls.map Literal.render) ++ ")"

/-- The product that a pattern stands for. -/
def render (bits : Pattern) (names : List String) : String := renderLiterals (literals bits names)

def renderSum (selected : List Implicant) (names : List String) : String :=
  disjunction.intercalate (selected.map fun x => render x.bits names)

inductive Error where
  | notProduct (names : List String) (term : String)
  | emptyLiteral
deriving DecidableEq, Repr

def Error.message : Error → String
  | .notProduct names term =>
    "Not a product term over " ++ ", ".intercalate names ++ ": " ++ term
  | .emptyLiteral => "list index out of range"

/-- The text inside a pair of parentheses that stands around the whole of it. -/
def unwrap (text : List Char) : List Char :=
  if text.head? = some '(' ∧ text.getLast? = some ')' then text.tail.dropLast else text

/-- The literal that some words write: a name, or `NOT` and a name. -/
def literal? : List String → Option Literal
  | [name] => some ⟨name, true⟩
  | [word, name] => if word = Operator.not.name then some ⟨name, false⟩ else none
  | _ => none

/-- Fixes the place of the first name that equals the literal's. -/
def fix (names : List String) (l : Literal) (bits : Pattern) : Pattern :=
  bits.set (names.idxOf l.name) (if l.positive then '1' else '0')

/-- Takes one piece of a product to the pattern so far. A later literal of a name replaces an
earlier one. -/
def readPiece (names : List String) (term : String) (bits : Pattern) (piece : List Char) :
    Except Error Pattern :=
  match (Text.words piece).map String.ofList with
  | [] => .error .emptyLiteral
  | words =>
    match literal? words with
    | some l => if l.name ∈ names then .ok (fix names l bits) else .error (.notProduct names term)
    | none => .error (.notProduct names term)

/-- The pattern of a product term over a list of names. The text `1` is the empty product, unless it
is one of the names. -/
def read (term : String) (names : List String) : Except Error Pattern :=
  let text := Text.trim term.toList
  let free := List.replicate names.length '-'
  if text = ['1'] ∧ "1" ∉ names then .ok free
  else (Text.pieces conjunction.toList (unwrap text)).foldlM (readPiece names term) free

end TwoLevel.ProductTerm
