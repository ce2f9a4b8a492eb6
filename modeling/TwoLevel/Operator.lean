import TwoLevel.Text.Quoted

/-!
# Operators

The six operator words: negation and five binary connectives. Main statement: a word is read as an
operator exactly when it is that operator's name (`Operator.ofName?_eq_some_iff`).
-/

namespace TwoLevel

inductive Connective where
  | and | nand | or | nor | xor
deriving DecidableEq, Repr

namespace Connective

def name : Connective → String
  | .and => "AND"
  | .nand => "NAND"
  | .or => "OR"
  | .nor => "NOR"
  | .xor => "XOR"

/-- The truth function; the left operand comes first. -/
def apply : Connective → Bool → Bool → Bool
  | .and, a, b => a && b
  | .nand, a, b => !(a && b)
  | .or, a, b => a || b
  | .nor, a, b => !(a || b)
  | .xor, a, b => a != b

end Connective

/-- The operators: negation stands before its operand, a connective between its two. -/
inductive Operator where
  | not
  | binary (c : Connective)
deriving DecidableEq, Repr

namespace Operator

def name : Operator → String
  | .not => "NOT"
  | .binary c => c.name

/-- Negation binds tightest, then `AND` and `NAND`, then the rest. -/
def precedence : Operator → Nat
  | .not => 4
  | .binary .and => 3
  | .binary .nand => 3
  | .binary _ => 2

def arity : Operator → Nat
  | .not => 1
  | .binary _ => 2

def all : List Operator :=
  [.not, .binary .and, .binary .nand, .binary .or, .binary .nor, .binary .xor]

theorem mem_all (o : Operator) : o ∈ all := by
  rcases o with _ | c
  · decide
  · cases c <;> decide

theorem name_inj {o p : Operator} (h : o.name = p.name) : o = p := by
  have key : ∀ o ∈ all, ∀ p ∈ all, o.name = p.name → o = p := by decide
  exact key o (mem_all o) p (mem_all p) h

/-- The operator that a word names; spelling is exact. -/
def ofName? (word : String) : Option Operator := all.find? (·.name == word)

theorem ofName?_eq_some_iff {word : String} {o : Operator} :
    ofName? word = some o ↔ word = o.name := by
  apply Iff.intro
  · intro h
    unfold ofName? at h
    have named := List.find?_some h
    exact (beq_iff_eq.1 named).symm
  · intro he
    subst he
    have key : ∀ o ∈ all, ofName? o.name = some o := by decide
    exact key o (mem_all o)

inductive Error where
  | unknown (word : String)
  | operandCount (o : Operator)
deriving DecidableEq, Repr

def Error.message : Error → String
  | .unknown word => Text.quoted word ++ " is not a valid Operator"
  | .operandCount o => o.name ++ " expects " ++ toString o.arity ++ " operand(s)."

/-- The operator that a word names, or the complaint that it names none. -/
def named (word : String) : Except Error Operator :=
  match ofName? word with
  | some o => .ok o
  | none => .error (.unknown word)

/-- Applies the operator; the number of operands has to be its arity. -/
def apply : Operator → List Bool → Except Error Bool
  | .not, [a] => .ok !a
  | .binary c, [a, b] => .ok (c.apply a b)
  | o, _ => .error (.operandCount o)

theorem apply_isOk_iff {o : Operator} {operands : List Bool} :
    (o.apply operands).isOk = true ↔ operands.length = o.arity := by
  rcases o with _ | c <;> rcases operands with _ | ⟨a, _ | ⟨b, _ | ⟨d, l⟩⟩⟩ <;>
    simp [apply, arity, Except.isOk, Except.toBool]

end Operator

end TwoLevel
