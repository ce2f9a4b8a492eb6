import TwoLevel.Formula
import TwoLevel.Proofs.Grammar
import TwoLevel.Proofs.JoinedText
import TwoLevel.Proofs.UpperCase

/-!
# Words of composed texts

A parenthesis or a blank between two texts keeps their words apart, and a word of a text is read
back as itself.  Main statements: what each way to put texts together does to their words
(`lex_append_space`, `lex_parens`, `lex_intercalate`), what the words of any text look like
(`mem_lexChars`), and that a text whose words are a sum of the grammar is a formula
(`parse_of_derives`).
-/

namespace TwoLevel

namespace Token

open Unicode (IsWordChar isBlank upper upperChar)

/-- The characters of a word that is not a parenthesis. -/
structure IsWord (w : List Char) : Prop where
  ne_nil : w ≠ []
  chars : ∀ c ∈ w, IsWordChar c

-- The test runs over the word: characters are finitely many, so that all of them could be tried.
instance (w : List Char) : Decidable (IsWord w) :=
  decidable_of_iff (w ≠ [] ∧ w.all (fun c => decide (IsWordChar c)) = true)
    ⟨fun h => ⟨h.1, fun c hc => of_decide_eq_true (List.all_eq_true.mp h.2 c hc)⟩,
      fun h => ⟨h.ne_nil, List.all_eq_true.mpr fun c hc => decide_eq_true (h.chars c hc)⟩⟩

theorem IsWord.not_blank {w : List Char} (h : IsWord w) : ∀ c ∈ w, isBlank c = false :=
  fun c hc => (h.chars c hc).not_blank

theorem isWord_name (o : Operator) : IsWord o.name.toList := by
  have key : ∀ o ∈ Operator.all, IsWord o.name.toList := by decide +kernel
  exact key o (Operator.mem_all o)

/-! ## Lists of characters -/

theorem upperChar_of_paren {c : Char} (hc : c = '(' ∨ c = ')') : upperChar c = [c] := by
  rcases hc with rfl | rfl <;> decide

theorem not_isBlank_of_paren {c : Char} (hc : c = '(' ∨ c = ')') : isBlank c = false := by
  rcases hc with rfl | rfl <;> decide

theorem spaced_of_ne {c : Char} (hl : c ≠ '(') (hr : c ≠ ')') : spaced c = [c] := by
  rw [spaced, if_neg (by simp [hl, hr])]

theorem flatMap_spaced_eq_self {text : List Char} (h : ∀ c ∈ text, c ≠ '(' ∧ c ≠ ')') :
    text.flatMap spaced = text := by
  induction text with
  | nil => rfl
  | cons c cs ih =>
    have hc := h c List.mem_cons_self
    rw [List.flatMap_cons, spaced_of_ne hc.1 hc.2, ih fun d hd => h d (List.mem_cons_of_mem c hd)]
    rfl

-- Where upper case and parentheses change nothing, only the blanks are left to tell words apart.
theorem lexChars_eq_words {text : List Char} (h : ∀ w ∈ Text.words text, IsWord w) :
    lexChars text = Text.words text := by
  have hchars (c : Char) (hc : c ∈ text) : isBlank c = true ∨ IsWordChar c := by
    by_cases hblank : isBlank c = true
    · exact .inl hblank
    · rw [Bool.not_eq_true] at hblank
      rcases Text.exists_mem_words hblank hc with ⟨w, hw, hcw⟩
      exact .inr ((h w hw).chars c hcw)
  have hupper : upper text = text := by
    apply Unicode.upper_eq_self
    intro c hc
    rcases hchars c hc with hblank | hword
    · exact upperChar_of_isBlank hblank
    · exact hword.upperChar_eq
  have hspaced : text.flatMap spaced = text := by
    apply flatMap_spaced_eq_self
    intro c hc
    rcases hchars c hc with hblank | hword
    · apply And.intro
      · rintro rfl
        exact absurd hblank (by simp [Unicode.not_isBlank_lparen])
      · rintro rfl
        exact absurd hblank (by simp [Unicode.not_isBlank_rparen])
    · exact ⟨hword.ne_lparen, hword.ne_rparen⟩
  rw [lexChars, hupper, hspaced]

theorem lexChars_word {w : List Char} (h : IsWord w) : lexChars w = [w] := by
  have hwords := Text.words_of_not_blank h.ne_nil h.not_blank
  rw [lexChars_eq_words (by simpa [hwords] using h), hwords]

theorem lexChars_of_blank {text : List Char} (h : Text.blank text = true) : lexChars text = [] := by
  induction text with
  | nil => rfl
  | cons c cs ih =>
    rw [Text.blank, List.all_cons, Bool.and_eq_true] at h
    exact (lexChars_append_blank h.1 [] cs).trans (ih h.2)

theorem lexChars_blank_append {w : List Char} (h : Text.blank w = true) (t : List Char) :
    lexChars (w ++ t) = lexChars t := by
  induction w with
  | nil => rfl
  | cons c cs ih =>
    rw [Text.blank, List.all_cons, Bool.and_eq_true] at h
    have hfirst := lexChars_append_blank h.1 [] (cs ++ t)
    exact hfirst.trans (ih h.2)

-- Blanks keep the words on their sides apart, however many there are.
theorem lexChars_append_blanks {w : List Char} (hne : w ≠ []) (h : Text.blank w = true)
    (s t : List Char) : lexChars (s ++ w ++ t) = lexChars s ++ lexChars t := by
  cases w with
  | nil => exact absurd rfl hne
  | cons c cs =>
    rw [Text.blank, List.all_cons, Bool.and_eq_true] at h
    rw [List.append_assoc, List.cons_append, lexChars_append_blank h.1, lexChars_blank_append h.2]

theorem lexChars_append_of_blank {t : List Char} (h : Text.blank t = true) (s : List Char) :
    lexChars (s ++ t) = lexChars s := by
  cases t with
  | nil => rw [List.append_nil]
  | cons c cs =>
    rw [Text.blank, List.all_cons, Bool.and_eq_true] at h
    rw [lexChars_append_blank h.1, lexChars_of_blank h.2, List.append_nil]

theorem lexChars_trimEnd (text : List Char) : lexChars (Text.trimEnd text) = lexChars text := by
  have hsplit : text =
      Text.trimEnd text ++ (text.reverse.takeWhile Unicode.isBlank).reverse := by
    rw [Text.trimEnd, ← List.reverse_append, List.takeWhile_append_dropWhile, List.reverse_reverse]
  have hblank : Text.blank (text.reverse.takeWhile Unicode.isBlank).reverse = true := by
    rw [Text.blank, List.all_reverse]
    exact List.all_takeWhile
  conv_rhs => rw [hsplit]
  rw [lexChars_append_of_blank hblank]

-- Blanks around a text are no part of its words.
theorem lexChars_trim (text : List Char) : lexChars (Text.trim text) = lexChars text := by
  rw [Text.trim, lexChars_trimEnd]
  induction text with
  | nil => rfl
  | cons c cs ih =>
    by_cases hc : isBlank c = true
    · rw [List.dropWhile_cons_of_pos hc, ih]
      exact (lexChars_append_blank hc [] cs).symm
    · rw [List.dropWhile_cons_of_neg hc]

-- A parenthesis stands alone and keeps the words on its sides apart.
theorem lexChars_append_paren {c : Char} (hc : c = '(' ∨ c = ')') (s t : List Char) :
    lexChars (s ++ c :: t) = lexChars s ++ [c] :: lexChars t := by
  have hspaced : spaced c = [' ', c, ' '] := by rw [spaced, if_pos hc]
  have hword : Text.words [c] = [[c]] :=
    Text.words_of_not_blank (by simp) (by simpa using not_isBlank_of_paren hc)
  have hright := Text.words_append_blank Unicode.isBlank_space [c] ((upper t).flatMap spaced)
  unfold lexChars
  rw [Unicode.upper_append, Unicode.upper_cons, upperChar_of_paren hc, List.flatMap_append,
    List.flatMap_append, List.flatMap_singleton, hspaced]
  simp only [List.cons_append, List.nil_append] at hright ⊢
  rw [Text.words_append_blank Unicode.isBlank_space, hright, hword]
  rfl

theorem isWord_of_mem_closeWord {w l : List Char} (hl : ∀ c ∈ l, IsWordChar c)
    (hw : w ∈ Text.closeWord l) : IsWord w := by
  cases l with
  | nil => cases hw
  | cons c cs =>
    rw [Text.closeWord, List.mem_singleton] at hw
    rw [hw]
    exact ⟨by simp, fun d hd => hl d (List.mem_reverse.mp hd)⟩

-- The scan only ever collects characters of one word; a parenthesis comes between two blanks.
theorem mem_wordsFrom_spaced {w : List Char} {text collected : List Char}
    (htext : ∀ c ∈ text, upperChar c = [c]) (hcollected : ∀ c ∈ collected, IsWordChar c)
    (h : w ∈ Text.wordsFrom collected (text.flatMap spaced)) :
    w = ['('] ∨ w = [')'] ∨ IsWord w := by
  induction text generalizing collected with
  | nil => exact .inr (.inr (isWord_of_mem_closeWord hcollected h))
  | cons c cs ih =>
    have htail : ∀ d ∈ cs, upperChar d = [d] := fun d hd => htext d (List.mem_cons_of_mem c hd)
    rw [List.flatMap_cons] at h
    by_cases hparen : c = '(' ∨ c = ')'
    · -- the blank before the parenthesis ends the open word, the one after it the parenthesis
      have hblank : ¬isBlank c = true := by simp [not_isBlank_of_paren hparen]
      rw [spaced, if_pos hparen] at h
      simp only [List.cons_append, List.nil_append, Text.wordsFrom, Unicode.isBlank_space, hblank,
        if_true, if_false, Bool.false_eq_true, List.mem_append] at h
      rcases h with h | h | h
      · exact .inr (.inr (isWord_of_mem_closeWord hcollected h))
      · rw [Text.closeWord, List.mem_singleton] at h
        rcases hparen with rfl | rfl
        · exact .inl h
        · exact .inr (.inl h)
      · exact ih htail (by simp) h
    · rw [not_or] at hparen
      rw [spaced_of_ne hparen.1 hparen.2, List.singleton_append, Text.wordsFrom] at h
      split at h
      · rcases List.mem_append.mp h with h | h
        · exact .inr (.inr (isWord_of_mem_closeWord hcollected h))
        · exact ih htail (by simp) h
      · rename_i hblank
        have hmore : ∀ d ∈ c :: collected, IsWordChar d := by
          intro d hd
          rcases List.mem_cons.mp hd with rfl | hd
          · exact ⟨by simpa using hblank, hparen.1, hparen.2, htext _ List.mem_cons_self⟩
          · exact hcollected d hd
        exact ih htail hmore h

/-- A word of a text is a parenthesis, or it has neither blanks nor parentheses and upper case
leaves it as it is. -/
theorem mem_lexChars {w text : List Char} (h : w ∈ lexChars text) :
    w = ['('] ∨ w = [')'] ∨ IsWord w :=
  mem_wordsFrom_spaced (fun _ hc => Unicode.upperChar_of_mem_upper hc) (by simp) h

/-! ## Strings -/

theorem lex_append_blanks {w : String} (hne : w ≠ "") (h : Text.blank w.toList = true)
    (s t : String) : lex (s ++ w ++ t) = lex s ++ lex t := by
  have hchars : w.toList ≠ [] := fun hnil => hne (String.toList_eq_nil_iff.mp hnil)
  rw [lex, String.toList_append, String.toList_append, lexChars_append_blanks hchars h,
    List.map_append]
  rfl

theorem lex_append_space (s t : String) : lex (s ++ " " ++ t) = lex s ++ lex t :=
  lex_append_blanks (by decide) (by decide) s t

theorem lex_parens_append (s t : String) :
    lex ("(" ++ s ++ ")" ++ t) = "(" :: lex s ++ ")" :: lex t := by
  have hlist : ("(" ++ s ++ ")" ++ t).toList = [] ++ '(' :: (s.toList ++ ')' :: t.toList) := by
    simp
  rw [lex, hlist, lexChars_append_paren (.inl rfl), lexChars_append_paren (.inr rfl)]
  simp [lex, lexChars]

theorem lex_parens (s : String) : lex ("(" ++ s ++ ")") = "(" :: lex s ++ [")"] := by
  have happend := lex_parens_append s ""
  rwa [String.append_empty] at happend

theorem lex_word {name : String} (h : IsWord name.toList) : lex name = [name] := by
  rw [lex, lexChars_word h, List.map_singleton, String.ofList_toList]

theorem lex_append_word {w : String} (hw : IsWord w.toList) (s t : String) :
    lex (s ++ (" " ++ w ++ " ") ++ t) = lex s ++ w :: lex t := by
  have hassoc : s ++ (" " ++ w ++ " ") ++ t = s ++ " " ++ (w ++ " " ++ t) := by
    simp only [String.append_assoc]
  rw [hassoc, lex_append_space, lex_append_space, lex_word hw]
  rfl

-- A word that is set between texts stands between their words.
theorem lex_intercalate {w : String} (hw : IsWord w.toList) (s : String) (ts : List String) :
    lex ((" " ++ w ++ " ").intercalate (s :: ts)) = lex s ++ ts.flatMap fun t => w :: lex t := by
  induction ts generalizing s with
  | nil => rw [String.intercalate_singleton, List.flatMap_nil, List.append_nil]
  | cons t ts ih =>
    rw [String.intercalate_cons_cons, lex_append_word hw, ih, List.flatMap_cons, List.cons_append]

/-! ## Names -/

/-- A word that names a variable and is read back as itself. -/
structure IsName (name : String) : Prop where
  isVariable : Grammar.IsVariable name
  isWord : IsWord name.toList

theorem isVariable_of_ofWord {word name : String} (h : ofWord word = .operand name) :
    Grammar.IsVariable name := by
  have hword : word = name := by rw [← word_ofWord word, h, Token.word]
  rw [hword] at h
  apply Grammar.IsVariable.mk
  · intro he
    rw [he] at h
    exact absurd h (by decide)
  · intro he
    rw [he] at h
    exact absurd h (by decide)
  · intro o he
    rw [he, Grammar.ofWord_name] at h
    cases h

-- The names in any text.
theorem isName_of_mem_ofText {text name : String} (h : .operand name ∈ ofText text) :
    IsName name := by
  rcases List.mem_map.mp h with ⟨word, hlex, hword⟩
  have hvariable := isVariable_of_ofWord hword
  have hsame : word = name := by rw [← word_ofWord word, hword, Token.word]
  rcases List.mem_map.mp hlex with ⟨w, hw, hofList⟩
  have hname : name = String.ofList w := hsame.symm.trans hofList.symm
  have hchars : IsWord name.toList := by
    rw [hname, String.toList_ofList]
    rcases mem_lexChars hw with rfl | rfl | hword
    · exact absurd hname hvariable.ne_lparen
    · exact absurd hname hvariable.ne_rparen
    · exact hword
  exact ⟨hvariable, hchars⟩

end Token

namespace Formula

/-- A text whose words are a sum of the grammar is read as the expression of the sum. -/
theorem parse_of_derives {text : String} {e : Expr} (h : Grammar.Derives .sum (Token.lex text) e) :
    parse text = .ok ⟨Token.operandNames (Token.ofText text), Rpn.ofExpr e, e⟩ := by
  have hrpn : Rpn.ofTokens (Token.ofText text) = Rpn.ofExpr e := Grammar.ofTokens_of_derives h
  rw [parse, ofTokens, hrpn, Grammar.build_of_derives h]
  rfl

theorem names_of_parse {text : String} {f : Formula} (h : parse text = .ok f) :
    f.names = Token.operandNames (Token.ofText text) := (parse_eq_ok_iff.mp h).1

-- The names of a formula are in ascending order, so none of them comes twice.
theorem nodup_names (f : Formula) : f.names.toList.Nodup :=
  f.names.ascending.imp fun hlt heq => by
    rw [heq] at hlt
    exact String.lt_irrefl _ hlt

theorem not_blank_of_parse {text : String} {f : Formula} (h : parse text = .ok f) :
    ¬Text.blank text.toList := by
  intro hblank
  have htokens : Token.ofText text = [] := by
    rw [Token.ofText, Token.lex, Token.lexChars_of_blank hblank]
    rfl
  rw [parse, htokens] at h
  cases h

theorem isName_of_mem_names {text : String} {f : Formula} (h : parse text = .ok f) {name : String}
    (hname : name ∈ f.names.toList) : Token.IsName name := by
  rw [names_of_parse h] at hname
  exact Token.isName_of_mem_ofText (Token.mem_operandNames.mp hname)

end Formula

end TwoLevel
