/-!
# Pieces between separators

A text is cut at every occurrence of a separator, leftmost first and without overlap. There is one
piece more than there are cuts, and pieces may be empty.
-/

namespace TwoLevel.Text

/-- The pieces of a text that goes on from the piece collected so far, last letter first; the first
`skip` letters belong to a separator already found. -/
def piecesFrom (separator : List Char) : Nat → List Char → List Char → List (List Char)
  | _, collected, [] => [collected.reverse]
  | skip + 1, collected, _ :: cs => piecesFrom separator skip collected cs
  | 0, collected, c :: cs =>
    if separator.isPrefixOf (c :: cs) then
      -- `c` is the separator's first letter; the others are still to be skipped
      collected.reverse :: piecesFrom separator (separator.length - 1) [] cs
    else piecesFrom separator 0 (c :: collected) cs

/-- The pieces of a text between the occurrences of a separator that is not empty. -/
def pieces (separator text : List Char) : List (List Char) := piecesFrom separator 0 [] text

-- There is always a piece.
theorem pieces_ne_nil (separator text : List Char) : pieces separator text ≠ [] := by
  suffices h : ∀ (skip : Nat) (collected : List Char),
      piecesFrom separator skip collected text ≠ [] from h 0 []
  induction text with
  | nil => simp [piecesFrom]
  | cons c cs ih =>
    intro skip collected
    cases skip with
    | zero => unfold piecesFrom; split <;> simp [ih]
    | succ skip => exact ih skip collected

end TwoLevel.Text
