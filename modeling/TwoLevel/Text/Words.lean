import TwoLevel.Unicode.Blank

/-!
# Words

Words are the longest stretches of a text without blanks. Main statement: a blank between two texts
keeps their words apart (`words_append_blank`).
-/

namespace TwoLevel.Text

open Unicode

/-- A word collected back to front; nothing collected is no word. -/
def closeWord : List Char → List (List Char)
  | [] => []
  | c :: cs => [(c :: cs).reverse]

/-- The words of a text that goes on from the letters collected so far, last letter first. -/
def wordsFrom (collected : List Char) : List Char → List (List Char)
  | [] => closeWord collected
  | c :: cs =>
    if isBlank c then closeWord collected ++ wordsFrom [] cs else wordsFrom (c :: collected) cs

def words (text : List Char) : List (List Char) := wordsFrom [] text

@[simp] theorem words_nil : words [] = [] := rfl

theorem words_blank_cons {c : Char} (h : isBlank c = true) (cs : List Char) :
    words (c :: cs) = words cs := by
  simp [words, wordsFrom, h, closeWord]

theorem wordsFrom_append_blank {c : Char} (h : isBlank c = true) (collected s t : List Char) :
    wordsFrom collected (s ++ c :: t) = wordsFrom collected s ++ words t := by
  induction s generalizing collected with
  | nil => simp [wordsFrom, h, words]
  | cons d s ih =>
    by_cases hd : isBlank d = true
    · simp [wordsFrom, hd, ih]
    · simp [wordsFrom, hd, ih]

-- A blank keeps the words on its sides apart.
theorem words_append_blank {c : Char} (h : isBlank c = true) (s t : List Char) :
    words (s ++ c :: t) = words s ++ words t := wordsFrom_append_blank h [] s t

def trimEnd (text : List Char) : List Char := (text.reverse.dropWhile isBlank).reverse

def trim (text : List Char) : List Char := trimEnd (text.dropWhile isBlank)

/-- Whether a text has nothing but blanks. -/
def blank (text : List Char) : Bool := text.all isBlank

end TwoLevel.Text
