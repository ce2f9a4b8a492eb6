/-!
# Ranges of code points

Classes of characters are tables of inclusive ranges, lowest first.
-/

namespace TwoLevel.Unicode

/-- The code points from `first` to `last`, both included. -/
structure CodeRange where
  first : Nat
  last : Nat
deriving DecidableEq, Repr

def CodeRange.has (r : CodeRange) (n : Nat) : Bool := r.first ≤ n && n ≤ r.last

def inTable (table : List CodeRange) (c : Char) : Bool := table.any (·.has c.toNat)

theorem inTable_iff {table : List CodeRange} {c : Char} :
    inTable table c = true ↔ ∃ r ∈ table, r.first ≤ c.toNat ∧ c.toNat ≤ r.last := by
  simp [inTable, CodeRange.has]

end TwoLevel.Unicode
