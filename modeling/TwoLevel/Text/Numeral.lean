import TwoLevel.Unicode.Blank
import TwoLevel.Unicode.DecimalDigit

/-!
# Integer numerals

A numeral is a sign, or none, and decimal digits of any script, of which two neighbours may be
parted by one underscore; they are read most significant first. Blanks around it are passed over,
except the four ASCII information separators.
-/

namespace TwoLevel.Text

open Unicode

def maxDigits : Nat := 4300

/-- The blanks that may stand around a numeral: all but the information separators. -/
def isNumeralBlank (c : Char) : Bool := isBlank c && !(0x1c ≤ c.toNat && c.toNat ≤ 0x1f)

/-- Reads on from a value and a count of digits; an underscore has a digit on both sides. -/
def readDigits (value count : Nat) : List Char → Option Nat
  | [] => if count ≤ maxDigits then some value else none
  | '_' :: c :: cs =>
    match digitValue? c with
    | some d => readDigits (10 * value + d) (count + 1) cs
    | none => none
  -- a lone underscore at the end has no digit after it and is refused here
  | c :: cs =>
    match digitValue? c with
    | some d => readDigits (10 * value + d) (count + 1) cs
    | none => none

/-- The value of digits that start with one. -/
def unsigned? : List Char → Option Nat
  | [] => none
  | c :: cs => (digitValue? c).bind fun d => readDigits d 1 cs

/-- The value of digits after at most one sign. -/
def signed? : List Char → Option Int
  | '-' :: cs => (unsigned? cs).map fun n => -(n : Int)
  | '+' :: cs => (unsigned? cs).map fun n => (n : Int)
  | cs => (unsigned? cs).map fun n => (n : Int)

def integer? (text : String) : Option Int :=
  signed? ((text.toList.dropWhile isNumeralBlank).reverse.dropWhile isNumeralBlank).reverse

end TwoLevel.Text
