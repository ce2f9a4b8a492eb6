import TwoLevel.Pattern
import TwoLevel.SortedSet

/-!
# Implicants

An implicant is a pattern with the minterms, that is the rows, that it covers.
-/

namespace TwoLevel

structure Implicant where
  bits : Pattern
  minterms : SortedSet Int
deriving DecidableEq

namespace Implicant

def ofRow (width : Nat) (row : Int) : Implicant :=
  ⟨Pattern.ofRow width row, SortedSet.ofList [row]⟩

structure WidthError where
  width : Int
deriving DecidableEq, Repr

def WidthError.message (e : WidthError) : String :=
  "Invalid format specifier '0" ++ toString e.width ++ "b' for object of type 'int'"

/-- The implicant of one row, for a width that may be negative. -/
def ofRow? (width row : Int) : Except WidthError Implicant :=
  if width < 0 then .error ⟨width⟩ else .ok (ofRow width.toNat row)

def ones (x : Implicant) : Nat := x.bits.ones

def covers (x : Implicant) (row : Int) : Bool := row ∈ x.minterms

/-- Merges two implicants that differ in one fixed place. -/
def combine? (x y : Implicant) : Option Implicant :=
  (x.bits.merge? y.bits).map fun bits => ⟨bits, x.minterms ∪ y.minterms⟩

/-- A set of minterms as a list of names, `m` before each number. -/
def mintermText (minterms : SortedSet Int) : String :=
  "m" ++ ", m".intercalate (minterms.toList.map toString)

def describe (x : Implicant) : String :=
  String.ofList x.bits ++ " (" ++ mintermText x.minterms ++ ")"

/-- The list with only the first implicant of every pattern kept. -/
def distinct (xs : List Implicant) : List Implicant := go [] xs
where
  /-- Goes on when some patterns have been seen. -/
  go (seen : List Pattern) : List Implicant → List Implicant
    | [] => []
    | x :: xs => if x.bits ∈ seen then go seen xs else x :: go (x.bits :: seen) xs

end Implicant

end TwoLevel
