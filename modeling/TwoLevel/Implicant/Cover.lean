import TwoLevel.Implicant

/-!
# Covers

From the prime implicants those are chosen that alone cover some minterm, and then, while minterms
are left and some implicant covers any of them, the one that covers most. Main statement: every pick
gains some row (`gain_pos_of_widest?`), so picking comes to an end.
-/

namespace TwoLevel.Implicant

/-- The only implicant that covers a row, if there is just one. -/
def soleCover? (xs : List Implicant) (row : Int) : Option Implicant :=
  match xs.filter (·.covers row) with
  | [x] => some x
  | _ => none

/-- The implicants that alone cover one of the rows, in the order of these rows. -/
def essentials (xs : List Implicant) (rows : List Int) : List Implicant :=
  distinct (rows.filterMap (soleCover? xs))

/-- How many of the remaining rows an implicant covers. -/
def gain (remaining : SortedSet Int) (x : Implicant) : Nat := x.minterms.common remaining

/-- The implicant that covers most of the remaining rows, the earliest of several; there is none if
all cover nothing. -/
def widest? (remaining : SortedSet Int) : List Implicant → Option Implicant
  | [] => none
  | x :: xs =>
    match widest? remaining xs with
    | none => if 0 < gain remaining x then some x else none
    | some y => if gain remaining y ≤ gain remaining x then some x else some y

theorem gain_pos_of_widest? {remaining : SortedSet Int} {xs : List Implicant} {x : Implicant}
    (h : widest? remaining xs = some x) : 0 < gain remaining x := by
  induction xs generalizing x with
  | nil => cases h
  | cons y ys ih =>
    unfold widest? at h
    split at h
    · split at h
      · next hy => cases h; exact hy
      · cases h
    · next z hz =>
      split at h
      · next hle => cases h; exact Nat.lt_of_lt_of_le (ih hz) hle
      · cases h; exact ih hz

/-- Picks the widest implicant whose pattern is not taken, again and again until nothing is
gained. -/
def greedy (xs : List Implicant) (remaining : SortedSet Int) (taken : List Pattern) :
    List Implicant :=
  match _found : widest? remaining (xs.filter (·.bits ∉ taken)) with
  | none => []
  | some x => x :: greedy xs (remaining \ x.minterms) (x.bits :: taken)
termination_by remaining.size
decreasing_by exact SortedSet.size_diff_lt (gain_pos_of_widest? _found)

/-- A choice of implicants: those that alone cover a minterm, and those picked for the rest. -/
structure Cover where
  essential : List Implicant
  additional : List Implicant
deriving DecidableEq

def Cover.selected (c : Cover) : List Implicant := c.essential ++ c.additional

/-- The minterms that some implicant of a list covers. -/
def coveredBy (xs : List Implicant) : SortedSet Int := xs.foldr (fun x s => x.minterms ∪ s) ∅

theorem mem_coveredBy {row : Int} {xs : List Implicant} :
    row ∈ coveredBy xs ↔ ∃ x ∈ xs, row ∈ x.minterms := by
  induction xs with
  | nil => simpa [coveredBy] using SortedSet.not_mem_empty
  | cons x xs ih =>
    show row ∈ x.minterms ∪ coveredBy xs ↔ _
    simp [SortedSet.mem_union, ih]

/-- The choice among prime implicants for a list of rows. -/
def chooseCover (primes : List Implicant) (rows : List Int) : Cover :=
  let essential := essentials primes rows
  { essential
    additional :=
      greedy primes (SortedSet.ofList rows \ coveredBy essential) (essential.map (·.bits)) }

end TwoLevel.Implicant
