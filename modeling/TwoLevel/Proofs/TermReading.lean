import TwoLevel.Proofs.JoinedText
import TwoLevel.Proofs.SumAnalysis

/-!
# Reading product terms back

The text of a product comes apart into its literals, and each of them fixes its place of the
pattern.  The text of a sum comes apart into its products, since no word of a product is the word
between them.  Main statements: a product with literals is read as the pattern that it was written
for (`read_render_of_literals`), and the terms of a minimised text are the selected implicants
(`termBits_eq_selected`).
-/

namespace TwoLevel

namespace Token

open Unicode (isBlank)

/-- A name that is a word by itself in the text of a product: it has neither blanks nor parentheses
and is no operator. -/
structure IsBare (name : String) : Prop where
  ne_empty : name ≠ ""
  not_blank : ∀ c ∈ name.toList, isBlank c = false
  not_paren : ∀ c ∈ name.toList, c ≠ '(' ∧ c ≠ ')'
  ne_operator : ∀ o : Operator, name ≠ o.name

-- As with `IsPlain` the test runs over the characters of the name.
instance (name : String) : Decidable (IsBare name) :=
  decidable_of_iff
    (name ≠ "" ∧ name.toList.all (fun c => isBlank c = false) = true ∧
      name.toList.all (fun c => c ≠ '(' ∧ c ≠ ')') = true ∧ ∀ o ∈ Operator.all, name ≠ o.name)
    (by
      simp only [List.all_eq_true, decide_eq_true_eq]
      exact ⟨fun h => ⟨h.1, h.2.1, h.2.2.1, fun o => h.2.2.2 o (Operator.mem_all o)⟩,
        fun h => ⟨h.ne_empty, h.not_blank, h.not_paren, fun o _ => h.ne_operator o⟩⟩)

theorem IsBare.toList_ne_nil {name : String} (h : IsBare name) : name.toList ≠ [] :=
  fun hnil => h.ne_empty (String.toList_eq_nil_iff.mp hnil)

theorem IsName.isBare {name : String} (h : IsName name) : IsBare name := by
  have hne : name ≠ "" := by
    intro he
    have hnil := h.isWord.ne_nil
    rw [he] at hnil
    exact hnil rfl
  exact ⟨hne, h.isWord.not_blank,
    fun c hc => ⟨(h.isWord.chars c hc).ne_lparen, (h.isWord.chars c hc).ne_rparen⟩,
    h.isVariable.ne_operator⟩

end Token

namespace ProductTerm

open Text (StandsClear pieces trim words)
open Token (IsBare)
open Unicode (isBlank isBlank_space)

/-! ## Literals -/

theorem toList_conjunction : conjunction.toList = ' ' :: Connective.and.name.toList ++ [' '] := by
  decide

theorem toList_disjunction : disjunction.toList = ' ' :: Connective.or.name.toList ++ [' '] := by
  decide

theorem words_literal {l : Literal} (h : IsBare l.name) :
    words l.render.toList = l.words.map String.toList := by
  have hname : words l.name.toList = [l.name.toList] :=
    Text.words_of_not_blank h.toList_ne_nil h.not_blank
  unfold Literal.render Literal.words
  split
  · rw [hname]
    rfl
  · have hlist : (Operator.not.name ++ " " ++ l.name).toList =
        Operator.not.name.toList ++ ' ' :: l.name.toList := by simp
    rw [hlist, Text.words_append_blank isBlank_space, hname,
      Text.words_of_not_blank (Token.isWord_name .not).ne_nil
        (Token.isWord_name .not).not_blank]
    rfl

-- A literal has a name and perhaps a negation, and no connective.
theorem not_mem_words_literal {l : Literal} (h : IsBare l.name) (c : Connective) :
    c.name.toList ∉ words l.render.toList := by
  rw [words_literal h, List.mem_map]
  intro hmem
  rcases hmem with ⟨w, hw, heq⟩
  have hwc : w = (Operator.binary c).name := String.toList_inj.mp heq
  have hnot : w ≠ Operator.not.name := by
    rw [hwc]
    intro he
    cases Operator.name_inj he
  unfold Literal.words at hw
  split at hw
  · rw [List.mem_singleton.mp hw] at hwc
    exact h.ne_operator _ hwc
  · rcases List.mem_cons.mp hw with hw | hw
    · exact hnot hw
    · rw [List.mem_singleton.mp hw] at hwc
      exact h.ne_operator _ hwc

theorem readPiece_literal {names : List String} {l : Literal} (h : IsBare l.name)
    (hl : l.name ∈ names) (term : String) (bits : Pattern) :
    readPiece names term bits l.render.toList = .ok (fix names l bits) := by
  have hwords : (words l.render.toList).map String.ofList = l.words := by
    rw [words_literal h, List.map_map]
    simp
  rcases l with ⟨name, positive⟩
  unfold readPiece
  rw [hwords]
  cases positive
  · simp [Literal.words, literal?, hl]
  · simp [Literal.words, literal?, hl]

theorem foldlM_readPiece {names : List String} {ls : List Literal}
    (h : ∀ l ∈ ls, IsBare l.name ∧ l.name ∈ names) (term : String) (bits : Pattern) :
    (ls.map fun l => l.render.toList).foldlM (readPiece names term) bits =
      .ok (ls.foldl (fun bits l => fix names l bits) bits) := by
  induction ls generalizing bits with
  | nil => rfl
  | cons l ls ih =>
    have hl := h l List.mem_cons_self
    rw [List.map_cons, List.foldlM_cons, readPiece_literal hl.1 hl.2]
    exact ih (fun l' hl' => h l' (List.mem_cons_of_mem l hl')) _

-- Literals of the other names leave the first place alone.
theorem foldl_fix_cons {name : String} {names : List String} {ls : List Literal}
    (h : ∀ l ∈ ls, l.name ≠ name) (c : Char) (bits : Pattern) :
    ls.foldl (fun bits l => fix (name :: names) l bits) (c :: bits) =
      c :: ls.foldl (fun bits l => fix names l bits) bits := by
  induction ls generalizing bits with
  | nil => rfl
  | cons l ls ih =>
    have hidx : (name :: names).idxOf l.name = names.idxOf l.name + 1 :=
      List.idxOf_cons_ne names (h l List.mem_cons_self).symm
    have hfix : fix (name :: names) l (c :: bits) = c :: fix names l bits := by
      rw [fix, hidx, List.set_cons_succ]
      rfl
    rw [List.foldl_cons, hfix, ih fun l' hl' => h l' (List.mem_cons_of_mem l hl'),
      List.foldl_cons]

theorem fix_head (name : String) (names : List String) (positive : Bool) (c : Char)
    (bits : Pattern) : fix (name :: names) ⟨name, positive⟩ (c :: bits) =
      (if positive then '1' else '0') :: bits := by
  rw [fix, List.idxOf_cons_self, List.set_cons_zero]

/-- The literals of a pattern fix the places that the pattern fixes. -/
theorem foldl_fix_literals {names : List String} (hnodup : names.Nodup) {bits : Pattern}
    (h : Pattern.IsTerm names.length bits) :
    (literals bits names).foldl (fun bits l => fix names l bits)
      (List.replicate names.length '-') = bits := by
  induction bits generalizing names with
  | nil =>
    have hlen := h.length_eq
    rw [List.length_nil] at hlen
    rw [List.eq_nil_of_length_eq_zero hlen.symm]
    rfl
  | cons c bits ih =>
    cases names with
    | nil => exact absurd h.length_eq (by simp)
    | cons name names =>
      have hnew := List.nodup_cons.mp hnodup
      have hothers : ∀ l ∈ literals bits names, l.name ≠ name := by
        intro l hl heq
        rw [← heq] at hnew
        exact hnew.1 (mem_names_of_mem_literals hl)
      have hrest := ih hnew.2 h.of_cons
      rw [literals_cons, List.length_cons, List.replicate_succ]
      rcases h.places c List.mem_cons_self with rfl | rfl | rfl
      · simp only [Char.reduceEq, if_false, if_true, List.foldl_cons, fix_head]
        rw [foldl_fix_cons hothers, hrest]
        rfl
      · simp only [if_true, List.foldl_cons, fix_head]
        rw [foldl_fix_cons hothers, hrest]
      · simp only [Char.reduceEq, if_false]
        rw [foldl_fix_cons hothers, hrest]

/-! ## Products -/

theorem head?_literal {l : Literal} (h : IsBare l.name) :
    ∀ c ∈ l.render.toList.head?, isBlank c = false ∧ c ≠ '(' := by
  intro c hc
  unfold Literal.render at hc
  split at hc
  · have hmem := List.mem_of_head? hc
    exact ⟨h.not_blank c hmem, (h.not_paren c hmem).1⟩
  · have hN : (Operator.not.name ++ " " ++ l.name).toList.head? = some 'N' := by
      simp [Operator.name]
    rw [hN, Option.mem_some] at hc
    rw [← hc]
    decide

theorem getLast?_literal {l : Literal} (h : IsBare l.name) :
    ∀ c ∈ l.render.toList.getLast?, isBlank c = false := by
  intro c hc
  unfold Literal.render at hc
  split at hc
  · exact h.not_blank c (List.mem_of_getLast? hc)
  · rw [String.toList_append, List.getLast?_append_of_ne_nil _ h.toList_ne_nil] at hc
    exact h.not_blank c (List.mem_of_getLast? hc)

theorem renderLiterals_of_two {ls : List Literal} (h : 2 ≤ ls.length) :
    (renderLiterals ls).toList =
      '(' :: (conjunction.intercalate (ls.map Literal.render)).toList ++ [')'] := by
  match ls, h with
  | l :: l' :: ls, _ => simp [renderLiterals]

theorem trim_parens (inner : List Char) : trim ('(' :: inner ++ [')']) = '(' :: inner ++ [')'] := by
  apply Text.trim_eq_self
  · simp [Unicode.not_isBlank_lparen]
  · intro c hc
    rw [List.getLast?_concat, Option.mem_some] at hc
    rw [← hc]
    exact Unicode.not_isBlank_rparen

theorem unwrap_parens (inner : List Char) : unwrap ('(' :: inner ++ [')']) = inner := by
  rw [unwrap, if_pos ⟨rfl, List.getLast?_concat⟩, List.cons_append, List.tail_cons,
    List.dropLast_concat]

-- A parenthesis stays with the word that it stands at.
theorem mem_words_parens {w inner : List Char} (hl : '(' ∉ w) (hr : ')' ∉ w)
    (h : w ∈ words ('(' :: inner ++ [')'])) : w ∈ words inner := by
  have hopening : w ∈ words ([] ++ '(' :: (inner ++ ')' :: [])) := h
  rcases Text.mem_words_append_cons Unicode.not_isBlank_lparen hopening with h | h | h
  · exact absurd h hl
  · cases h
  · rcases Text.mem_words_append_cons Unicode.not_isBlank_rparen h with h | h | h
    · exact absurd h hr
    · exact h
    · cases h

-- No blanks stand around a product.
theorem trim_renderLiterals {ls : List Literal} (hne : ls ≠ [])
    (h : ∀ l ∈ ls, IsBare l.name) :
    trim (renderLiterals ls).toList = (renderLiterals ls).toList := by
  match ls, hne, h with
  | [l], _, h =>
    have hl := h l List.mem_cons_self
    exact Text.trim_eq_self (fun c hc => (head?_literal hl c hc).1) (getLast?_literal hl)
  | l :: l' :: ls, _, _ =>
    rw [renderLiterals_of_two (by simp), trim_parens]

theorem unwrap_renderLiterals {ls : List Literal} (hne : ls ≠ [])
    (h : ∀ l ∈ ls, IsBare l.name) : unwrap (renderLiterals ls).toList =
      conjunction.toList.intercalate (ls.map fun l => l.render.toList) := by
  match ls, hne, h with
  | [l], _, h =>
    have hopen : ¬(l.render.toList.head? = some '(' ∧ l.render.toList.getLast? = some ')') :=
      fun hparen => (head?_literal (h l List.mem_cons_self) '(' hparen.1).2 rfl
    rw [renderLiterals, unwrap, if_neg hopen, List.map_singleton, List.intercalate_singleton]
  | l :: l' :: ls, _, _ =>
    rw [renderLiterals_of_two (by simp), unwrap_parens, String.toList_intercalate, List.map_map]
    rfl

theorem standsClear_literal {l : Literal} (h : IsBare l.name) :
    StandsClear conjunction.toList l.render.toList := by
  have hand := Token.isWord_name (.binary .and)
  rw [toList_conjunction]
  exact Text.standsClear_of_not_mem_words hand.ne_nil hand.not_blank (not_mem_words_literal h .and)

theorem pieces_literals {ls : List Literal} (hne : ls ≠ []) (h : ∀ l ∈ ls, IsBare l.name) :
    pieces conjunction.toList (conjunction.toList.intercalate (ls.map fun l => l.render.toList)) =
      ls.map fun l => l.render.toList := by
  apply Text.pieces_intercalate
  · decide
  · simp [hne]
  · intro t ht
    rcases List.mem_map.mp ht with ⟨l, hl, rfl⟩
    exact standsClear_literal (h l hl)

-- The text of the empty product is a literal's text only if a variable has that name.
theorem mem_names_of_renderLiterals_eq_one {ls : List Literal} (hne : ls ≠ [])
    (h : (renderLiterals ls).toList = ['1']) : ∃ l ∈ ls, l.name = "1" := by
  match ls, hne, h with
  | [l], _, h =>
    refine ⟨l, List.mem_cons_self, ?_⟩
    rw [renderLiterals, Literal.render] at h
    split at h
    · exact String.toList_inj.mp h
    · simp [Operator.name] at h
  | l :: l' :: ls, _, h =>
    rw [renderLiterals_of_two (by simp)] at h
    simp at h

/-- The text of some literals is read as the pattern whose places they fix, the later ones last. -/
theorem read_renderLiterals {names : List String} {ls : List Literal} (hne : ls ≠ [])
    (h : ∀ l ∈ ls, IsBare l.name ∧ l.name ∈ names) :
    read (renderLiterals ls) names =
      .ok (ls.foldl (fun bits l => fix names l bits) (List.replicate names.length '-')) := by
  have hbare : ∀ l ∈ ls, IsBare l.name := fun l hl => (h l hl).1
  have hone : ¬((renderLiterals ls).toList = ['1'] ∧ "1" ∉ names) := by
    intro hone
    rcases mem_names_of_renderLiterals_eq_one hne hone.1 with ⟨l, hl, heq⟩
    have hmem := (h l hl).2
    rw [heq] at hmem
    exact hone.2 hmem
  unfold read
  dsimp only
  rw [trim_renderLiterals hne hbare, if_neg hone, unwrap_renderLiterals hne hbare,
    pieces_literals hne hbare, foldlM_readPiece h]

/-- The text of a product with literals is read as the pattern that it was written for. -/
theorem read_render_of_literals {names : List String} (hnodup : names.Nodup)
    (hnames : ∀ name ∈ names, IsBare name) {bits : Pattern}
    (hterm : Pattern.IsTerm names.length bits) (hne : literals bits names ≠ []) :
    read (render bits names) names = .ok bits := by
  have hliterals : ∀ l ∈ literals bits names, IsBare l.name ∧ l.name ∈ names := fun l hl =>
    ⟨hnames l.name (mem_names_of_mem_literals hl), mem_names_of_mem_literals hl⟩
  rw [render, read_renderLiterals hne hliterals, foldl_fix_literals hnodup hterm]

/-! ## Sums -/

-- The words of a product are those of its literals, `AND`, and what a parenthesis is part of.
theorem or_not_mem_words_renderLiterals {ls : List Literal} (h : ∀ l ∈ ls, IsBare l.name) :
    Connective.or.name.toList ∉ words (renderLiterals ls).toList := by
  match ls, h with
  | [], _ => decide
  | [l], h => exact not_mem_words_literal (h l List.mem_cons_self) .or
  | l :: l' :: ls, h =>
    intro hmem
    rw [renderLiterals_of_two (by simp)] at hmem
    have hinner := mem_words_parens (by decide) (by decide) hmem
    have hand := Token.isWord_name (.binary .and)
    rw [String.toList_intercalate, toList_conjunction, List.map_map] at hinner
    rcases Text.mem_words_intercalate hand.ne_nil hand.not_blank hinner with heq | ⟨t, ht, hor⟩
    · exact absurd heq (by decide)
    · rcases List.mem_map.mp ht with ⟨l, hl, rfl⟩
      exact not_mem_words_literal (h l hl) .or hor

theorem standsClear_renderLiterals {ls : List Literal} (h : ∀ l ∈ ls, IsBare l.name) :
    StandsClear disjunction.toList (renderLiterals ls).toList := by
  have hor := Token.isWord_name (.binary .or)
  rw [toList_disjunction]
  exact Text.standsClear_of_not_mem_words hor.ne_nil hor.not_blank
    (or_not_mem_words_renderLiterals h)

/-- The text of a sum comes apart into the texts of its products. -/
theorem pieces_renderSum {names : List String} (hnames : ∀ name ∈ names, IsBare name)
    {selected : List Implicant} (hne : selected ≠ []) :
    pieces disjunction.toList (renderSum selected names).toList =
      selected.map fun x => (render x.bits names).toList := by
  rw [renderSum, String.toList_intercalate, List.map_map]
  apply Text.pieces_intercalate
  · decide
  · simp [hne]
  · intro t ht
    rcases List.mem_map.mp ht with ⟨x, -, rfl⟩
    exact standsClear_renderLiterals fun l hl => hnames l.name (mem_names_of_mem_literals hl)

end ProductTerm

/-! ## Analyses -/

namespace Analysis

variable {text : String} {settings : Settings} {a : Analysis}

namespace IsSum

theorem read_render (h : IsSum text settings a) {x : Implicant} (hx : x ∈ a.result.selected) :
    ProductTerm.read (ProductTerm.render x.bits a.names) a.names = .ok x.bits :=
  ProductTerm.read_render_of_literals (nodup_names a) (fun _ hname => (h.isName hname).isBare)
    (h.isPrimeCover.isPrime x hx).isTerm (h.literals_ne_nil hx)

/-- The products of the text are those of the selected implicants, and each is read as its own. -/
theorem termBits_eq (h : IsSum text settings a) :
    a.termBits = .ok (a.result.selected.map fun x =>
      (ProductTerm.render x.bits a.names, x.bits)) := by
  have hpieces := ProductTerm.pieces_renderSum (fun _ hname => (h.isName hname).isBare)
    h.selected_ne_nil
  rw [termBits, h.outcome_eq]
  dsimp only
  rw [h.text_eq_renderSum, hpieces, List.mapM_map]
  apply Formula.mapM_ok
  intro x hx
  dsimp only [Function.comp]
  rw [String.ofList_toList, h.read_render hx]
  rfl

end IsSum

/-- The terms of a minimised text that is not a constant are the products of the selected
implicants, in their order, each with the pattern of its implicant. -/
theorem termBits_eq_selected (h : ofText text settings = .ok a)
    (hsum : a.result.constant? = none) :
    a.termBits = .ok (a.result.selected.map fun x =>
      (ProductTerm.render x.bits a.names, x.bits)) :=
  ((isOf_of_ofText h).isSum hsum).termBits_eq

-- The second term is the variable `1`, which is not the empty product.
theorem termBits_eq_selected_one :
    ∃ a, ofText "1 or oracle and not 0 and true" {} = .ok a ∧ a.result.constant? = none ∧
      a.termBits =
        .ok [("(NOT 0 AND ORACLE AND TRUE)", "0-11".toList), ("1", "-1--".toList)] := by
  have hok : (ofText "1 or oracle and not 0 and true" {}).map (fun a => (a.result.constant?,
      a.result.selected.map fun x => (ProductTerm.render x.bits a.names, x.bits))) =
        .ok (none, [("(NOT 0 AND ORACLE AND TRUE)", "0-11".toList), ("1", "-1--".toList)]) := by
    decide +kernel
  cases h : ofText "1 or oracle and not 0 and true" {} with
  | error e =>
    rw [h] at hok
    cases hok
  | ok a =>
    rw [h] at hok
    have hparts := Prod.mk.inj (Except.ok.inj hok)
    have hterms := termBits_eq_selected h hparts.1
    rw [hparts.2] at hterms
    exact ⟨a, rfl, hparts.1, hterms⟩

end Analysis

end TwoLevel
