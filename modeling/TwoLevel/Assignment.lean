/-!
# Assignments and rows

An assignment gives names truth values. The rows of a truth table are numbered, and a row's number
spells the values of its names in binary, the first name's value being the most significant bit.
-/

namespace TwoLevel

/-- Names with their values, each name once, in the order in which they were first given. -/
structure Assignment where
  entries : List (String × Bool)
deriving DecidableEq, Repr

namespace Assignment

/-- The value of a name; a name without one is false. -/
def value (a : Assignment) (name : String) : Bool := (a.entries.lookup name).getD false

/-- Gives a name a value: in its place if it has one already, else at the end. -/
def putEntry (name : String) (b : Bool) : List (String × Bool) → List (String × Bool)
  | [] => [(name, b)]
  | (n, c) :: rest => if n = name then (n, b) :: rest else (n, c) :: putEntry name b rest

def put (a : Assignment) (name : String) (b : Bool) : Assignment := ⟨putEntry name b a.entries⟩

theorem lookup_putEntry (name : String) (b : Bool) (n : String) (entries : List (String × Bool)) :
    (putEntry name b entries).lookup n = if n = name then some b else entries.lookup n := by
  induction entries with
  | nil =>
    by_cases h : n = name
    · simp [putEntry, h]
    · simp [putEntry, List.lookup_cons, h, beq_false_of_ne h]
  | cons e rest ih =>
    rcases e with ⟨m, c⟩
    by_cases hm : m = name
    · subst hm
      by_cases h : n = m
      · simp [putEntry, h]
      · simp [putEntry, List.lookup_cons, h, beq_false_of_ne h]
    · by_cases h : n = m
      · subst h; simp [putEntry, hm]
      · simp [putEntry, List.lookup_cons, hm, beq_false_of_ne h, ih]

theorem value_put (a : Assignment) (name : String) (b : Bool) (n : String) :
    (a.put name b).value n = if n = name then b else a.value n := by
  simp only [value, put, lookup_putEntry]
  split <;> rfl

/-- The assignment of a list of names with values; a later value replaces an earlier one. -/
def ofPairs (pairs : List (String × Bool)) : Assignment :=
  pairs.foldl (fun a p => a.put p.1 p.2) ⟨[]⟩

/-- The bit of a number at a place counted from the least significant. A negative number has
infinitely many ones on the left. -/
def bit (index : Int) (place : Nat) : Bool := (index >>> place) % 2 == 1

/-- Each name with its bit of the row number; the last name has the least significant bit. -/
def rowPairs (index : Int) : List String → List (String × Bool)
  | [] => []
  | name :: rest => (name, bit index rest.length) :: rowPairs index rest

def ofRow (index : Int) (names : List String) : Assignment := ofPairs (rowPairs index names)

end Assignment

end TwoLevel
