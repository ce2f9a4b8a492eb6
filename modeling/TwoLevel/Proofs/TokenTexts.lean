import TwoLevel.Proofs.Lexing

/-!
# Texts and their tokens

A text falls apart into the tokens of its parts wherever a blank or a parenthesis stands between
them, and its tokens are all that is left of it: set side by side again, with any blanks between
them, or put in upper case once more, they are the same tokens.  Main statements: a second upper
case changes nothing (`upper_upper`), what a token looks like (`exists_mem_lex_iff`), and how texts
and tokens go together (`lex_stable`).
-/

namespace TwoLevel

namespace Unicode

theorem upper_upper (text : List Char) : upper (upper text) = upper text :=
  upper_eq_self fun _ hc => upperChar_of_mem_upper hc

/-- The text in upper case. -/
def upperText (text : String) : String := String.ofList (upper text.toList)

theorem toList_upperText (text : String) : (upperText text).toList = upper text.toList :=
  String.toList_ofList

end Unicode

namespace Token

open Unicode (isBlank upper upperText)

/-! ## Tokens -/

/-- The words that upper case leaves alone, told by the word as a whole. -/
theorem isWord_iff {w : List Char} : IsWord w ↔ w ≠ [] ∧
    (∀ c ∈ w, isBlank c = false ∧ c ≠ '(' ∧ c ≠ ')') ∧ upper w = w := by
  constructor
  · intro h
    refine ⟨h.ne_nil, fun c hc => ?_, Unicode.upper_eq_self fun c hc => (h.chars c hc).upperChar_eq⟩
    have hchar := h.chars c hc
    exact ⟨hchar.not_blank, hchar.ne_lparen, hchar.ne_rparen⟩
  · rintro ⟨hne, hchars, hupper⟩
    refine ⟨hne, fun c hc => ?_⟩
    obtain ⟨hblank, hl, hr⟩ := hchars c hc
    have hmem : c ∈ upper w := by rwa [hupper]
    exact ⟨hblank, hl, hr, Unicode.upperChar_of_mem_upper hmem⟩

/-- A parenthesis, or a text without blanks and parentheses that upper case leaves as it is. -/
def IsToken (word : String) : Prop :=
  word = "(" ∨ word = ")" ∨ (word ≠ "" ∧
    (∀ c ∈ word.toList, isBlank c = false ∧ c ≠ '(' ∧ c ≠ ')') ∧ upperText word = word)

theorem isWord_toList_iff {word : String} : IsWord word.toList ↔ word ≠ "" ∧
    (∀ c ∈ word.toList, isBlank c = false ∧ c ≠ '(' ∧ c ≠ ')') ∧ upperText word = word := by
  have hupper : upperText word = word ↔ upper word.toList = word.toList := by
    rw [← String.toList_inj, Unicode.toList_upperText]
  rw [isWord_iff, hupper, ne_eq, String.toList_eq_nil_iff]

theorem isToken_of_mem_lex {word text : String} (h : word ∈ lex text) : IsToken word := by
  obtain ⟨w, hw, rfl⟩ := List.mem_map.mp h
  rcases mem_lexChars hw with rfl | rfl | hword
  · exact .inl rfl
  · exact .inr (.inl rfl)
  · refine .inr (.inr (isWord_toList_iff.mp ?_))
    rwa [String.toList_ofList]

-- A token is a text of its own, with itself as the only token.
theorem IsToken.lex_eq {word : String} (h : IsToken word) : lex word = [word] := by
  rcases h with rfl | rfl | hword
  · decide
  · decide
  · exact lex_word (isWord_toList_iff.mpr hword)

theorem exists_mem_lex_iff {word : String} : (∃ text, word ∈ lex text) ↔ IsToken word := by
  constructor
  · rintro ⟨text, h⟩
    exact isToken_of_mem_lex h
  · intro h
    exact ⟨word, by rw [h.lex_eq]; exact List.mem_singleton_self word⟩

/-! ## Texts made of tokens -/

/-- Tokens with blanks between them are read back. -/
theorem lex_intercalate_blanks {w : String} (hne : w ≠ "") (hw : Text.blank w.toList = true)
    {words : List String} (h : ∀ word ∈ words, IsToken word) : lex (w.intercalate words) = words := by
  induction words with
  | nil => rfl
  | cons word words ih =>
    have hword := (h word List.mem_cons_self).lex_eq
    cases words with
    | nil => rw [String.intercalate_singleton, hword]
    | cons next words =>
      rw [String.intercalate_cons_cons, lex_append_blanks hne hw, hword,
        ih fun d hd => h d (List.mem_cons_of_mem word hd)]
      rfl

theorem lex_upperText (text : String) : lex (upperText text) = lex text := by
  rw [lex, lexChars, Unicode.toList_upperText, Unicode.upper_upper]
  rfl

/-- Texts with blanks or parentheses between them have their own tokens; a token is a parenthesis or
a word in upper case; and the tokens of a text are those of the text that is made of them, and of the
text in upper case. -/
theorem lex_stable :
    (∀ s w t : String, w ≠ "" → Text.blank w.toList = true →
      lex (s ++ w ++ t) = lex s ++ lex t) ∧
    (∀ s t : String, lex ("(" ++ s ++ ")" ++ t) = "(" :: lex s ++ ")" :: lex t) ∧
    (∀ word : String, (∃ text, word ∈ lex text) ↔ word = "(" ∨ word = ")" ∨ (word ≠ "" ∧
      (∀ c ∈ word.toList, isBlank c = false ∧ c ≠ '(' ∧ c ≠ ')') ∧ upperText word = word)) ∧
    (∀ s w : String, w ≠ "" → Text.blank w.toList = true → lex (w.intercalate (lex s)) = lex s) ∧
    ∀ s : String, lex (upperText s) = lex s := by
  refine ⟨?_, lex_parens_append, fun word => exists_mem_lex_iff, ?_, lex_upperText⟩
  · intro s w t hne hw
    exact lex_append_blanks hne hw s t
  · intro s w hne hw
    exact lex_intercalate_blanks hne hw fun word hword => isToken_of_mem_lex hword

-- Upper case makes several letters of one; the blanks are an ideographic space and a line break.
theorem lex_stable_expanding :
    lex "ß)\u3000\n(ﬁ ŉ" = ["SS", ")", "(", "FI", "ʼN"] ∧
    lex ("\u3000\n".intercalate ["SS", ")", "(", "FI", "ʼN"]) = ["SS", ")", "(", "FI", "ʼN"] := by
  obtain ⟨happend, -, -, hjoin, -⟩ := lex_stable
  have hblank : Text.blank "\u3000\n".toList = true := by decide
  have hwords : lex "ß)\u3000\n(ﬁ ŉ" = ["SS", ")", "(", "FI", "ʼN"] :=
    (happend "ß)" "\u3000\n" "(ﬁ ŉ" (by decide) hblank).trans (by decide +kernel)
  have hagain := hjoin "ß)\u3000\n(ﬁ ŉ" "\u3000\n" (by decide) hblank
  rw [hwords] at hagain
  exact ⟨hwords, hagain⟩

end Token

end TwoLevel
