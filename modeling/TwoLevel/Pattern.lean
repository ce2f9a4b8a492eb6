/-!
# Patterns

A pattern has a character for every variable: `1` and `0` fix it, `-` leaves it free. Two patterns
that differ in one fixed place merge into the pattern that is free there. Main statement: a merge
fixes one place fewer (`Pattern.fixed_merge?`).
-/

namespace TwoLevel

/-- A row of places, most significant first. Characters other than `-` all count as fixed. -/
abbrev Pattern := List Char

namespace Pattern

-- Membership in a list of patterns is decided through this one instance.
instance : LawfulBEq Pattern := inferInstanceAs (LawfulBEq (List Char))

def ones (p : Pattern) : Nat := p.count '1'

def fixed (p : Pattern) : Nat := p.countP (· != '-')

/-- Whether two patterns have no difference in the places that both have. -/
def agree : Pattern → Pattern → Bool
  | a :: as, b :: bs => a == b && agree as bs
  | _, _ => true

/-- The first pattern with the only place freed at which the two differ. There is none if they do
not differ, differ at two places, or at a place that one of them leaves free. Places that only one
of them has are not compared. -/
def merge? : Pattern → Pattern → Option Pattern
  | a :: as, b :: bs =>
    if a = b then (merge? as bs).map (a :: ·)
    else if a = '-' ∨ b = '-' then none
    else if agree as bs then some ('-' :: as)
    else none
  | _, _ => none

theorem fixed_cons (c : Char) (p : Pattern) :
    fixed (c :: p) = fixed p + if c = '-' then 0 else 1 := by
  by_cases h : c = '-' <;> simp [fixed, h]

/-- A merge fixes one place fewer than its first parent. -/
theorem fixed_merge? {a b c : Pattern} (h : merge? a b = some c) : fixed c + 1 = fixed a := by
  fun_induction merge? a b generalizing c with
  | case1 as x bs ih =>
    rcases Option.map_eq_some_iff.1 h with ⟨p, hp, rfl⟩
    have := ih hp
    simp only [fixed_cons]
    omega
  | case2 => cases h
  | case3 a as b bs hne hfree _ =>
    cases h
    have : a ≠ '-' := fun e => hfree (.inl e)
    simp [fixed_cons, this]
  | case4 => cases h
  | case5 => cases h

/-- The lowest bits of a number, as many as asked for, most significant first. -/
def lowBits : Nat → Nat → Pattern
  | 0, _ => []
  | width + 1, n => (if n.testBit width then '1' else '0') :: lowBits width n

theorem length_lowBits (width n : Nat) : (lowBits width n).length = width := by
  induction width with
  | zero => rfl
  | succ width ih => simp [lowBits, ih]

/-- The binary digits of a number, with zeros up to a width. A wider number is not cut. -/
def ofNat (width n : Nat) : Pattern := lowBits (max width (n.log2 + 1)) n

/-- The pattern of one row. A negative row has its sign in the first place; without any variables
there are no places. -/
def ofRow (width : Nat) (row : Int) : Pattern :=
  if width = 0 then []
  else if row < 0 then '-' :: ofNat (width - 1) row.natAbs
  else ofNat width row.toNat

end Pattern

end TwoLevel
