import TwoLevel.Operator
import TwoLevel.SortedSet
import TwoLevel.Text.Words
import TwoLevel.Unicode.Upper

/-!
# Tokens

A formula's text is put in upper case, its parentheses are set apart, and its words are the tokens.
Main statement: a blank between two texts keeps their words apart (`Token.lexChars_append_blank`).
-/

namespace TwoLevel

inductive Token where
  | lparen
  | rparen
  | operator (o : Operator)
  | operand (name : String)
deriving DecidableEq, Repr

namespace Token

/-- What a word is: a parenthesis, an operator, or else the name of an operand. -/
def ofWord (word : String) : Token :=
  if word = "(" then .lparen
  else if word = ")" then .rparen
  else match Operator.ofName? word with
    | some o => .operator o
    | none => .operand word

def word : Token → String
  | .lparen => "("
  | .rparen => ")"
  | .operator o => o.name
  | .operand name => name

theorem word_ofWord (w : String) : (ofWord w).word = w := by
  unfold ofWord
  split
  · next h => exact h.symm
  · split
    · next h => exact h.symm
    · split
      · next o h => exact (Operator.ofName?_eq_some_iff.1 h).symm
      · rfl

/-- Sets a parenthesis apart from its neighbours. -/
def spaced (c : Char) : List Char :=
  if c = '(' ∨ c = ')' then [' ', c, ' '] else [c]

/-- The words of a formula's text, in upper case and with every parenthesis alone. -/
def lexChars (text : List Char) : List (List Char) :=
  Text.words ((Unicode.upper text).flatMap spaced)

def lex (text : String) : List String := (lexChars text.toList).map String.ofList

-- Upper case leaves blanks alone.
theorem upperChar_of_isBlank {c : Char} (h : Unicode.isBlank c = true) :
    Unicode.upperChar c = [c] := by
  rcases Unicode.inTable_iff.1 h with ⟨r, hr, hfirst, hlast⟩
  have key : ∀ r ∈ Unicode.blanks, ∀ k < r.last - r.first + 1,
      Unicode.upperCodes (r.first + k) = [r.first + k] := by decide +kernel
  have := key r hr (c.toNat - r.first) (by omega)
  rw [Nat.add_sub_cancel' hfirst] at this
  simp [Unicode.upperChar, this]

-- A blank keeps the words on its sides apart.
theorem lexChars_append_blank {c : Char} (h : Unicode.isBlank c = true) (s t : List Char) :
    lexChars (s ++ c :: t) = lexChars s ++ lexChars t := by
  have hc : spaced c = [c] := by
    unfold spaced
    split
    · next e =>
      rcases e with rfl | rfl
      · exact absurd h (by simp [Unicode.not_isBlank_lparen])
      · exact absurd h (by simp [Unicode.not_isBlank_rparen])
    · rfl
  simp [lexChars, upperChar_of_isBlank h, hc, Text.words_append_blank h]

def ofText (text : String) : List Token := (lex text).map ofWord

def operandName? : Token → Option String
  | .operand name => some name
  | _ => none

/-- The names of the operands, each once, in ascending order. -/
def operandNames (tokens : List Token) : SortedSet String :=
  SortedSet.ofList (tokens.filterMap operandName?)

theorem mem_operandNames {tokens : List Token} {name : String} :
    name ∈ operandNames tokens ↔ .operand name ∈ tokens := by
  simp only [operandNames, SortedSet.mem_ofList, List.mem_filterMap]
  apply Iff.intro
  · intro hex
    rcases hex with ⟨t, ht, e⟩
    cases t <;> simp [operandName?] at e
    exact e ▸ ht
  · exact fun h => ⟨_, h, rfl⟩

end Token

end TwoLevel
