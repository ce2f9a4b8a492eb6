import Mathlib.Logic.Function.Basic
import TwoLevel.Proofs.Rendering
import TwoLevel.Proofs.TermReading

/-!
# Accepted terms

A term may be written by hand, with any blanks between and around its words and with a name more
than once.  What the reader of terms accepts is a product of literals for the reader of formulas as
well, in parentheses or not.  A pattern keeps the last literal of each name, so the two readings
agree on the rows unless a name is both plain and negated.  Main statement: what an accepted term is
as a formula, and in which rows it is true (`eval_parse_of_read`).
-/

namespace TwoLevel

namespace ProductTerm

open Grammar (Derives)
open Text (pieces trim words)
open Token (IsPlain lex)

variable {names : List String} {ls : List Literal}

/-! ## Pieces of accepted terms -/

theorem literal?_eq_some_iff {ws : List String} {l : Literal} :
    literal? ws = some l ↔ ws = l.words := by
  rcases l with ⟨name, positive⟩
  unfold literal?
  split
  · cases positive <;> simp [Literal.words]
  · split_ifs with hnot
    · cases positive <;> simp [Literal.words, hnot]
    · cases positive <;> simp [Literal.words, hnot]
  · cases positive <;> simp_all [Literal.words]

theorem isWord_of_mem_words {l : Literal} (h : IsPlain l.name) {w : String} (hw : w ∈ l.words) :
    Token.IsWord w.toList := by
  unfold Literal.words at hw
  split at hw
  · rw [List.mem_singleton.mp hw]
    exact h.isWord
  · rcases List.mem_cons.mp hw with rfl | hw
    · exact Token.isWord_name .not
    · rw [List.mem_singleton.mp hw]
      exact h.isWord

-- The words of a literal are the same whether or not the text is put in upper case.
theorem lex_eq_words {l : Literal} (h : IsPlain l.name) {piece : List Char}
    (hpiece : (words piece).map String.ofList = l.words) : lex (String.ofList piece) = l.words := by
  have hwords : ∀ w ∈ words piece, Token.IsWord w := by
    intro w hw
    have hmem : String.ofList w ∈ l.words := by
      rw [← hpiece]
      exact List.mem_map_of_mem hw
    have hword := isWord_of_mem_words h hmem
    rwa [String.toList_ofList] at hword
  rw [lex, String.toList_ofList, Token.lexChars_eq_words hwords]
  exact hpiece

theorem exists_literal_of_readPiece (hplain : ∀ name ∈ names, IsPlain name) {term : String}
    {bits bits' : Pattern} {piece : List Char} (h : readPiece names term bits piece = .ok bits') :
    ∃ l, l.name ∈ names ∧ lex (String.ofList piece) = l.words ∧ bits' = fix names l bits := by
  unfold readPiece at h
  split at h
  · cases h
  · split at h
    · rename_i l hl
      split at h
      · rename_i hmem
        have hwords := lex_eq_words (hplain l.name hmem) (literal?_eq_some_iff.mp hl)
        exact ⟨l, hmem, hwords, (Except.ok.inj h).symm⟩
      · cases h
    · cases h

-- Every piece is a literal, and the literals fix their places in order.
theorem exists_literals_of_foldlM (hplain : ∀ name ∈ names, IsPlain name) {term : String}
    {ps : List (List Char)} {bits bits' : Pattern}
    (h : ps.foldlM (readPiece names term) bits = .ok bits') :
    ∃ ls : List Literal, (∀ l ∈ ls, l.name ∈ names) ∧
      ps.map (fun p => lex (String.ofList p)) = ls.map Literal.words ∧
      bits' = ls.foldl (fun bits l => fix names l bits) bits := by
  induction ps generalizing bits with
  | nil => exact ⟨[], by simp, rfl, (Except.ok.inj h).symm⟩
  | cons p ps ih =>
    rw [List.foldlM_cons] at h
    cases hp : readPiece names term bits p with
    | error e =>
      rw [hp] at h
      cases h
    | ok next =>
      rw [hp] at h
      rcases exists_literal_of_readPiece hplain hp with ⟨l, hl, hwords, rfl⟩
      rcases ih h with ⟨ls, hls, hmap, hbits⟩
      refine ⟨l :: ls, List.forall_mem_cons.mpr ⟨hl, hls⟩, ?_, hbits⟩
      rw [List.map_cons, List.map_cons, hwords, hmap]

/-! ## The formula of an accepted term -/

theorem ofList_intercalate (separator : String) (ts : List (List Char)) :
    String.ofList (separator.toList.intercalate ts) =
      separator.intercalate (ts.map String.ofList) := by
  rw [← String.toList_inj, String.toList_ofList, String.toList_intercalate, List.map_map]
  simp

-- The literals of the pieces have the connective between them.
theorem derives_of_pieces {ls : List Literal} (hls : ∀ l ∈ ls, Grammar.IsVariable l.name)
    {text : List Char}
    (hwords : (pieces conjunction.toList text).map (fun p => lex (String.ofList p)) =
      ls.map Literal.words) :
    ls ≠ [] ∧ Derives .product (lex (String.ofList text)) (productExpr ls) := by
  have hand : Token.IsWord Connective.and.name.toList := Token.isWord_name (.binary .and)
  have htext : String.ofList text =
      conjunction.intercalate ((pieces conjunction.toList text).map String.ofList) := by
    have hne : conjunction.toList ≠ [] := by decide
    rw [← ofList_intercalate, Text.intercalate_pieces hne]
  rw [htext]
  cases hpieces : pieces conjunction.toList text with
  | nil => exact absurd hpieces (Text.pieces_ne_nil _ _)
  | cons p ps =>
    rw [hpieces] at hwords
    cases ls with
    | nil => cases hwords
    | cons l ls =>
      rw [List.map_cons, List.map_cons, List.cons.injEq] at hwords
      have hrest : (ps.map String.ofList).flatMap (fun t => Connective.and.name :: lex t) =
          ls.flatMap fun t => Connective.and.name :: t.words := by
        rw [List.flatMap_map, ← List.flatMap_map (fun p => lex (String.ofList p))
          (fun ws => Connective.and.name :: ws), hwords.2, List.flatMap_map]
      rw [conjunction, List.map_cons, Token.lex_intercalate hand, hwords.1, hrest]
      exact ⟨List.cons_ne_nil l ls, derives_productExpr _ fun t ht => derives_words (hls t ht)⟩

theorem unwrap_cases (text : List Char) :
    unwrap text = text ∨ text = '(' :: unwrap text ++ [')'] := by
  unfold unwrap
  split
  · rename_i hparens
    rcases hparens with ⟨hopening, hclosing⟩
    right
    rcases List.head?_eq_some_iff.mp hopening with ⟨rest, rfl⟩
    cases rest with
    | nil => exact absurd hclosing (by decide)
    | cons c cs =>
      rw [List.getLast?_cons_cons] at hclosing
      rw [List.tail_cons, List.cons_append, List.dropLast_append_getLast? _ hclosing]
  · exact .inl rfl

-- Parentheses around the whole of a product and blanks around these leave it a sum.
theorem derives_of_unwrap {term : String} {e : Expr}
    (h : Derives .product (lex (String.ofList (unwrap (trim term.toList)))) e) :
    Derives .sum (lex term) e := by
  have hlex : lex term = lex (String.ofList (trim term.toList)) := by
    rw [lex, lex, String.toList_ofList, Token.lexChars_trim]
  rw [hlex]
  rcases unwrap_cases (trim term.toList) with hsame | hparens
  · rw [hsame] at h
    exact .ofProduct h
  · generalize unwrap (trim term.toList) = inner at h hparens
    have htext : String.ofList (trim term.toList) = "(" ++ String.ofList inner ++ ")" := by
      rw [← String.toList_inj, String.toList_ofList, hparens]
      simp
    rw [htext, Token.lex_parens]
    exact .ofProduct (.ofFactor (.ofPrimary (.parens (.ofProduct h))))

/-! ## The pattern of an accepted term -/

/-- The places of names after some literals, given what they were before. -/
def marks (f : String → Char) (ls : List Literal) : String → Char :=
  ls.foldl (fun f l => Function.update f l.name (Assignment.digit l.positive)) f

theorem foldl_fix_map (hnodup : names.Nodup) (hls : ∀ l ∈ ls, l.name ∈ names)
    (f : String → Char) :
    ls.foldl (fun bits l => fix names l bits) (names.map f) = names.map (marks f ls) := by
  induction ls generalizing f with
  | nil => rfl
  | cons l ls ih =>
    rcases List.forall_mem_cons.mp hls with ⟨hl, hls⟩
    have hfix : fix names l (names.map f) =
        names.map (Function.update f l.name (Assignment.digit l.positive)) := by
      rw [hnodup.map_update, if_pos hl]
      rfl
    rw [List.foldl_cons, hfix, ih hls]
    rfl

-- A name keeps its place, or has it from one of its literals.
theorem marks_cases (f : String → Char) (ls : List Literal) (name : String) :
    (marks f ls name = f name ∧ ∀ l ∈ ls, l.name ≠ name) ∨
      ∃ l ∈ ls, l.name = name ∧ marks f ls name = Assignment.digit l.positive := by
  induction ls generalizing f with
  | nil => exact .inl ⟨rfl, by simp⟩
  | cons l ls ih =>
    have hstep : marks f (l :: ls) =
        marks (Function.update f l.name (Assignment.digit l.positive)) ls := rfl
    rw [hstep]
    rcases ih (Function.update f l.name (Assignment.digit l.positive)) with
      ⟨hkept, hnone⟩ | ⟨l', hl', hname, hmark⟩
    · by_cases hl : l.name = name
      · subst hl
        rw [Function.update_self] at hkept
        exact .inr ⟨l, List.mem_cons_self, rfl, hkept⟩
      · rw [Function.update_of_ne (Ne.symm hl)] at hkept
        exact .inl ⟨hkept, List.forall_mem_cons.mpr ⟨hl, hnone⟩⟩
    · exact .inr ⟨l', List.mem_cons_of_mem l hl', hname, hmark⟩

/-- No name is both plain and negated. -/
def IsConsistent (ls : List Literal) : Prop :=
  ∀ name, ¬(⟨name, true⟩ ∈ ls ∧ ⟨name, false⟩ ∈ ls)

theorem IsConsistent.eq_of_name_eq (h : IsConsistent ls) {l l' : Literal} (hl : l ∈ ls)
    (hl' : l' ∈ ls) (hname : l.name = l'.name) : l = l' := by
  rcases l with ⟨name, positive⟩
  rcases l' with ⟨name', positive'⟩
  dsimp only at hname
  subst hname
  cases positive <;> cases positive'
  · rfl
  · exact absurd ⟨hl', hl⟩ (h name)
  · exact absurd ⟨hl, hl'⟩ (h name)
  · rfl

theorem isConsistent_of_nodup (h : (ls.map Literal.name).Nodup) : IsConsistent ls := by
  rintro name ⟨hplain, hnegated⟩
  have heq := List.inj_on_of_nodup_map h hplain hnegated rfl
  cases heq

theorem digit_ne_dash (b : Bool) : Assignment.digit b ≠ '-' := by
  revert b
  decide

theorem admits_marks_iff (hls : ∀ l ∈ ls, l.name ∈ names) (hconsistent : IsConsistent ls)
    (v : String → Bool) :
    Pattern.Admits (names.map (marks (fun _ => '-') ls))
        (names.map fun name => Assignment.digit (v name)) ↔
      (ls.all fun l => v l.name == l.positive) = true := by
  unfold Pattern.Admits
  rw [List.forall₂_map_left_iff, List.forall₂_map_right_iff, List.forall₂_same]
  simp only [List.all_eq_true, beq_iff_eq]
  apply Iff.intro
  · intro h l hl
    rcases marks_cases (fun _ => '-') ls l.name with ⟨-, hnone⟩ | ⟨l', hl', hname, hmark⟩
    · exact absurd rfl (hnone l hl)
    · rw [hconsistent.eq_of_name_eq hl' hl hname] at hmark
      have hplace := h l.name (hls l hl)
      rw [hmark] at hplace
      rcases hplace with hdash | hdigit
      · exact absurd hdash (digit_ne_dash l.positive)
      · exact (Assignment.digit_inj hdigit).symm
  · intro h name _
    rcases marks_cases (fun _ => '-') ls name with ⟨hfree, -⟩ | ⟨l, hl, rfl, hmark⟩
    · exact .inl hfree
    · rw [hmark, h l hl]
      exact .inr rfl

/-! ## Both readings -/

/-- An accepted term that is not the empty product is a product of literals over the names as a
formula as well.  If the literals are consistent, the formula is true in the rows of the pattern's
cube. -/
theorem eval_parse_of_read (hnodup : names.Nodup) (hplain : ∀ name ∈ names, IsPlain name)
    {term : String} {bits : Pattern} (hread : read term names = .ok bits) :
    (trim term.toList = ['1'] ∧ "1" ∉ names ∧ bits = List.replicate names.length '-') ∨
    ∃ f ls, Formula.parse term = .ok f ∧ ls ≠ [] ∧ (∀ l ∈ ls, l.name ∈ names) ∧
      f.expr = productExpr ls ∧
      (IsConsistent ls → ∀ n : Nat, n < 2 ^ names.length →
        ∃ b, f.eval (Assignment.ofRow n names).value = .ok b ∧
          (b = true ↔ (n : Int) ∈ bits.cube)) := by
  unfold read at hread
  dsimp only at hread
  split at hread
  · rename_i hone
    exact .inl ⟨hone.1, hone.2, (Except.ok.inj hread).symm⟩
  · right
    rcases exists_literals_of_foldlM hplain hread with ⟨ls, hls, hwords, hfix⟩
    rcases derives_of_pieces (fun l hl => (hplain l.name (hls l hl)).isName.isVariable) hwords with
      ⟨hne, hderives⟩
    have hparse := Formula.parse_of_derives (derives_of_unwrap hderives)
    have hbits : bits = names.map (marks (fun _ => '-') ls) := by
      rw [hfix, ← foldl_fix_map hnodup hls, List.map_const']
    refine ⟨_, ls, hparse, hne, hls, rfl, ?_⟩
    intro hconsistent n hn
    refine ⟨_, Formula.eval_of_parse hparse _, ?_⟩
    rw [hbits, Pattern.natCast_mem_cube (List.length_map _) hn, ← Assignment.digits_ofRow hnodup,
      admits_marks_iff hls hconsistent, ← eval_productExpr _ hne]

-- A tab after the negation, and a space on the inner side of either parenthesis.
theorem eval_parse_of_read_spaced :
    ∃ f, Formula.parse " ( NOT\tB AND A )" = .ok f ∧
      ∀ n : Nat, n < 2 ^ 2 → ∃ b, f.eval (Assignment.ofRow n ["A", "B"]).value = .ok b ∧
        (b = true ↔ (n : Int) ∈ Pattern.cube ['1', '0']) := by
  have hplain : ∀ name ∈ ["A", "B"], IsPlain name := by decide +kernel
  have hread : read " ( NOT\tB AND A )" ["A", "B"] = .ok ['1', '0'] := by decide +kernel
  have hnames : (Formula.parse " ( NOT\tB AND A )").map (fun f => f.expr.names) =
      .ok ["B", "A"] := by
    decide +kernel
  rcases eval_parse_of_read (by decide) hplain hread with
    hone | ⟨f, ls, hparse, hne, -, hexpr, hrows⟩
  · exact absurd hone.1 (by decide)
  · rw [hparse] at hnames
    have hlist : f.expr.names = ["B", "A"] := Except.ok.inj hnames
    have hnodup : (ls.map Literal.name).Nodup := by
      rw [← names_productExpr hne, ← hexpr, hlist]
      decide
    exact ⟨f, hparse, hrows (isConsistent_of_nodup hnodup)⟩

end ProductTerm

end TwoLevel
