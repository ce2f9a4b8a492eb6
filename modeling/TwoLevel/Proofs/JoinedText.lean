import Mathlib.Data.List.Basic
import Mathlib.Data.List.TakeWhile
import TwoLevel.Text.Pieces
import TwoLevel.Text.Words

/-!
# Joined texts

Texts that are put together come apart again: into words at the blanks between them, and into pieces
at a separator, unless the separator is found earlier, inside one of them.  Main statements: pieces
undo joining (`pieces_intercalate`) and joining undoes them (`intercalate_pieces`), and a separator
that is a word between two spaces is not found inside a text without that word
(`standsClear_of_not_mem_words`).
-/

namespace TwoLevel.Text

open Unicode (isBlank isBlank_space)

/-! ## Words -/

theorem wordsFrom_of_not_blank {w : List Char} (h : ∀ c ∈ w, isBlank c = false)
    (collected : List Char) : wordsFrom collected w = closeWord (w.reverse ++ collected) := by
  induction w generalizing collected with
  | nil => rfl
  | cons c cs ih =>
    have hc : ¬isBlank c = true := by simp [h c List.mem_cons_self]
    rw [wordsFrom, if_neg hc, ih fun d hd => h d (List.mem_cons_of_mem c hd), List.reverse_cons,
      List.append_assoc]
    rfl

theorem words_of_not_blank {w : List Char} (hne : w ≠ []) (h : ∀ c ∈ w, isBlank c = false) :
    words w = [w] := by
  rw [words, wordsFrom_of_not_blank h, List.append_nil]
  cases hw : w.reverse with
  | nil => exact absurd (List.reverse_eq_nil_iff.mp hw) hne
  | cons c cs => rw [closeWord, ← hw, List.reverse_reverse]

theorem closeWord_ne_nil {collected : List Char} (h : collected ≠ []) :
    closeWord collected ≠ [] := by
  cases collected with
  | nil => exact absurd rfl h
  | cons c cs => simp [closeWord]

theorem wordsFrom_ne_nil {collected : List Char} (h : collected ≠ []) (text : List Char) :
    wordsFrom collected text ≠ [] := by
  induction text generalizing collected with
  | nil => exact closeWord_ne_nil h
  | cons c cs ih =>
    unfold wordsFrom
    split
    · simp [closeWord_ne_nil h]
    · exact ih (List.cons_ne_nil c collected)

-- Only blanks have no words.
theorem words_eq_nil_iff {text : List Char} : words text = [] ↔ blank text = true := by
  induction text with
  | nil => exact iff_of_true rfl rfl
  | cons c cs ih =>
    by_cases hc : isBlank c = true
    · rw [words_blank_cons hc, ih]
      simp [blank, hc]
    · have hopen : words (c :: cs) = wordsFrom [c] cs := by rw [words, wordsFrom, if_neg hc]
      rw [hopen]
      simp [wordsFrom_ne_nil, blank, hc]

theorem words_append_word {w : List Char} (hne : w ≠ []) (hw : ∀ c ∈ w, isBlank c = false)
    (s t : List Char) : words (s ++ (' ' :: w ++ [' ']) ++ t) = words s ++ w :: words t := by
  have hsplit : s ++ (' ' :: w ++ [' ']) ++ t = s ++ ' ' :: (w ++ ' ' :: t) := by simp
  rw [hsplit, words_append_blank isBlank_space, words_append_blank isBlank_space,
    words_of_not_blank hne hw]
  rfl

theorem mem_words_intercalate {w : List Char} (hne : w ≠ []) (hw : ∀ c ∈ w, isBlank c = false)
    {ts : List (List Char)} {x : List Char} (h : x ∈ words ((' ' :: w ++ [' ']).intercalate ts)) :
    x = w ∨ ∃ t ∈ ts, x ∈ words t := by
  induction ts with
  | nil => cases h
  | cons t ts ih =>
    cases ts with
    | nil =>
      rw [List.intercalate_singleton] at h
      exact .inr ⟨t, List.mem_cons_self, h⟩
    | cons u ts =>
      rw [List.intercalate_cons_cons, words_append_word hne hw, List.mem_append,
        List.mem_cons] at h
      rcases h with h | h | h
      · exact .inr ⟨t, List.mem_cons_self, h⟩
      · exact .inl h
      · exact (ih h).imp_right fun ⟨p, hp, hx⟩ => ⟨p, List.mem_cons_of_mem t hp, hx⟩

-- The open word takes what comes before the first blank, and the rest has words of its own.
theorem wordsFrom_eq (collected text : List Char) :
    wordsFrom collected text = closeWord ((text.takeWhile (!isBlank ·)).reverse ++ collected) ++
      words (text.dropWhile (!isBlank ·)) := by
  induction text generalizing collected with
  | nil => simp [wordsFrom]
  | cons c cs ih =>
    by_cases hc : isBlank c = true
    · simp [wordsFrom, hc, words, closeWord]
    · simp [wordsFrom, hc, ih]

theorem mem_wordsFrom_of_mem {c : Char} {w collected text : List Char} (hc : c ∈ collected)
    (h : w ∈ wordsFrom collected text) : c ∈ w ∨ w ∈ words text := by
  rw [wordsFrom_eq, List.mem_append] at h
  rcases h with h | h
  · left
    have hmem : c ∈ (text.takeWhile (!isBlank ·)).reverse ++ collected :=
      List.mem_append_right _ hc
    cases hl : (text.takeWhile (!isBlank ·)).reverse ++ collected with
    | nil => rw [hl] at hmem; cases hmem
    | cons d ds =>
      rw [hl, closeWord, List.mem_singleton] at h
      rw [h, List.mem_reverse, ← hl]
      exact hmem
  · right
    rw [words, wordsFrom_eq]
    exact List.mem_append_right _ h

theorem exists_mem_closeWord {c : Char} {collected : List Char} (hc : c ∈ collected) :
    ∃ w ∈ closeWord collected, c ∈ w := by
  cases collected with
  | nil => cases hc
  | cons d ds => exact ⟨_, List.mem_singleton_self _, List.mem_reverse.mpr hc⟩

theorem exists_mem_wordsFrom {c : Char} (hblank : isBlank c = false) {collected text : List Char}
    (hc : c ∈ text ∨ c ∈ collected) : ∃ w ∈ wordsFrom collected text, c ∈ w := by
  induction text generalizing collected with
  | nil =>
    rcases hc with hc | hc
    · cases hc
    · exact exists_mem_closeWord hc
  | cons d ds ih =>
    rw [List.mem_cons, or_assoc] at hc
    unfold wordsFrom
    split
    · rename_i hd
      rcases hc with rfl | hc | hc
      · rw [hblank] at hd
        cases hd
      · rcases ih (.inl hc) with ⟨w, hw, hcw⟩
        exact ⟨w, List.mem_append_right _ hw, hcw⟩
      · rcases exists_mem_closeWord hc with ⟨w, hw, hcw⟩
        exact ⟨w, List.mem_append_left _ hw, hcw⟩
    · apply ih
      rw [List.mem_cons]
      rcases hc with rfl | hc | hc
      · exact .inr (.inl rfl)
      · exact .inl hc
      · exact .inr (.inr hc)

/-- Every character that is not blank is part of a word. -/
theorem exists_mem_words {c : Char} (hblank : isBlank c = false) {text : List Char}
    (hc : c ∈ text) : ∃ w ∈ words text, c ∈ w := exists_mem_wordsFrom hblank (.inl hc)

-- A character between two texts changes no word but the one that it becomes part of.
theorem mem_words_append_cons {c : Char} (hc : isBlank c = false) {w s t : List Char}
    (h : w ∈ words (s ++ c :: t)) : c ∈ w ∨ w ∈ words s ∨ w ∈ words t := by
  suffices key : ∀ collected : List Char, w ∈ wordsFrom collected (s ++ c :: t) →
      c ∈ w ∨ w ∈ wordsFrom collected s ∨ w ∈ words t from key [] h
  clear h
  induction s with
  | nil =>
    intro collected h
    rw [List.nil_append, wordsFrom, if_neg (by simp [hc])] at h
    rcases mem_wordsFrom_of_mem List.mem_cons_self h with h | h
    · exact .inl h
    · exact .inr (.inr h)
  | cons d s ih =>
    intro collected h
    rw [List.cons_append, wordsFrom] at h
    rw [wordsFrom]
    split
    · rename_i hd
      rw [if_pos hd, List.mem_append] at h
      rcases h with h | h
      · exact .inr (.inl (List.mem_append_left _ h))
      · rcases ih [] h with h | h | h
        · exact .inl h
        · exact .inr (.inl (List.mem_append_right _ h))
        · exact .inr (.inr h)
    · rename_i hd
      rw [if_neg hd] at h
      exact ih (d :: collected) h

/-! ## Ends -/

theorem trimEnd_append_blank {t : List Char} (h : blank t = true) (s : List Char) :
    trimEnd (s ++ t) = trimEnd s := by
  have hall : ∀ c ∈ t.reverse, isBlank c = true :=
    fun c hc => List.all_eq_true.mp h c (List.mem_reverse.mp hc)
  rw [trimEnd, List.reverse_append, List.dropWhile_append_of_pos hall]
  rfl

theorem trimEnd_eq_self {t : List Char} (h : ∀ c ∈ t.getLast?, isBlank c = false) :
    trimEnd t = t := by
  rw [← List.head?_reverse] at h
  rw [trimEnd]
  cases hrev : t.reverse with
  | nil => simpa using hrev.symm
  | cons c cs =>
    have hc : ¬isBlank c = true := by simp [h c (by rw [hrev]; rfl)]
    rw [List.dropWhile_cons_of_neg hc, ← hrev, List.reverse_reverse]

theorem trim_eq_self {t : List Char} (hfirst : ∀ c ∈ t.head?, isBlank c = false)
    (hlast : ∀ c ∈ t.getLast?, isBlank c = false) : trim t = t := by
  have hdrop : t.dropWhile isBlank = t := by
    cases t with
    | nil => rfl
    | cons c cs =>
      have hc : ¬isBlank c = true := by simp [hfirst c rfl]
      rw [List.dropWhile_cons_of_neg hc]
  rw [trim, hdrop, trimEnd_eq_self hlast]

theorem trim_eq_nil_iff {t : List Char} : trim t = [] ↔ blank t = true := by
  have hend : trimEnd (t.dropWhile isBlank) = [] ↔ t.dropWhile isBlank = [] := by
    rw [trimEnd, List.reverse_eq_nil_iff, List.dropWhile_eq_nil_iff]
    apply Iff.intro
    · intro hall
      by_contra hne
      have hhead := List.head_dropWhile_not isBlank hne
      rw [hall _ (List.mem_reverse.mpr (List.head_mem hne))] at hhead
      cases hhead
    · intro hnil
      simp [hnil]
  rw [trim, hend, List.dropWhile_eq_nil_iff, blank, List.all_eq_true]

/-! ## Pieces -/

/-- Behind the text, a separator is found where it stands and no earlier. -/
def StandsClear (separator text : List Char) : Prop :=
  ∀ u v, text ++ separator = u ++ separator ++ v → v = []

theorem StandsClear.tail {separator text : List Char} {c : Char}
    (h : StandsClear separator (c :: text)) : StandsClear separator text := by
  intro u v heq
  exact h (c :: u) v (by rw [List.cons_append, heq, List.cons_append, List.cons_append])

-- The separator's letters may also go on behind the text, as long as they are the separator's.
theorem StandsClear.not_isPrefix {separator text rest : List Char} {c : Char}
    (h : StandsClear separator (c :: text)) (hrest : rest <+: separator ∨ separator <+: rest) :
    ¬separator <+: c :: text ++ rest := by
  intro hfound
  have hinside : separator <+: c :: text ++ separator := by
    rcases hrest with hrest | hrest
    · exact hfound.trans ((List.prefix_append_right_inj _).mpr hrest)
    · have hlong : c :: text ++ separator <+: c :: text ++ rest :=
        (List.prefix_append_right_inj _).mpr hrest
      exact List.prefix_of_prefix_length_le hfound hlong (by rw [List.length_append]; omega)
  rcases hinside with ⟨v, hv⟩
  have hnil := h [] v (by rw [← hv, List.nil_append])
  have hlen := congrArg List.length hv
  rw [hnil] at hlen
  simp only [List.length_append, List.length_cons, List.length_nil] at hlen
  omega

theorem piecesFrom_append {separator text rest : List Char} (h : StandsClear separator text)
    (hrest : rest <+: separator ∨ separator <+: rest) (collected : List Char) :
    piecesFrom separator 0 collected (text ++ rest) =
      piecesFrom separator 0 (text.reverse ++ collected) rest := by
  induction text generalizing collected with
  | nil => rfl
  | cons c text ih =>
    have hnot : ¬separator.isPrefixOf (c :: (text ++ rest)) = true := by
      rw [List.isPrefixOf_iff_prefix]
      exact h.not_isPrefix hrest
    rw [List.cons_append, piecesFrom, if_neg hnot, ih h.tail, List.reverse_cons,
      List.append_assoc]
    rfl

theorem piecesFrom_skip (separator collected skipped rest : List Char) :
    piecesFrom separator skipped.length collected (skipped ++ rest) =
      piecesFrom separator 0 collected rest := by
  induction skipped with
  | nil => rfl
  | cons c skipped ih => exact ih

theorem piecesFrom_separator {separator : List Char} (hne : separator ≠ [])
    (collected rest : List Char) :
    piecesFrom separator 0 collected (separator ++ rest) =
      collected.reverse :: pieces separator rest := by
  cases separator with
  | nil => exact absurd rfl hne
  | cons c cs =>
    have hfound : (c :: cs).isPrefixOf (c :: (cs ++ rest)) = true :=
      List.isPrefixOf_iff_prefix.mpr (List.prefix_append (c :: cs) rest)
    have hlen : (c :: cs).length - 1 = cs.length := rfl
    rw [List.cons_append, piecesFrom, if_pos hfound, hlen, piecesFrom_skip, pieces]

/-- Cutting undoes joining, if no text has the separator begin inside it. -/
theorem pieces_intercalate {separator : List Char} (hne : separator ≠ []) {ts : List (List Char)}
    (hts : ts ≠ []) (h : ∀ t ∈ ts, StandsClear separator t) :
    pieces separator (separator.intercalate ts) = ts := by
  induction ts with
  | nil => exact absurd rfl hts
  | cons t ts ih =>
    have hclear := h t List.mem_cons_self
    cases ts with
    | nil =>
      have hlast := piecesFrom_append hclear (.inl List.nil_prefix) []
      rw [List.append_nil, List.append_nil] at hlast
      rw [List.intercalate_singleton, pieces, hlast, piecesFrom, List.reverse_reverse]
    | cons u ts =>
      have hfollows : separator <+: separator ++ separator.intercalate (u :: ts) :=
        List.prefix_append _ _
      have hnext := piecesFrom_append hclear (.inr hfollows) []
      rw [List.intercalate_cons_cons, List.append_assoc, pieces, hnext,
        piecesFrom_separator hne, List.append_nil, List.reverse_reverse,
        ih (List.cons_ne_nil u ts) fun p hp => h p (List.mem_cons_of_mem t hp)]

/-- Joining undoes cutting. -/
theorem intercalate_pieces {separator : List Char} (hne : separator ≠ []) (text : List Char) :
    separator.intercalate (pieces separator text) = text := by
  suffices key : ∀ collected : List Char,
      separator.intercalate (piecesFrom separator 0 collected text) = collected.reverse ++ text from
    key []
  -- a separator that is found takes several letters off the text at once
  induction hlen : text.length using Nat.strong_induction_on generalizing text with
  | h n ih =>
    intro collected
    cases text with
    | nil => rw [piecesFrom, List.intercalate_singleton, List.append_nil]
    | cons c cs =>
      by_cases hfound : separator <+: c :: cs
      · rcases hfound with ⟨rest, hrest⟩
        have hpos := List.length_pos_of_ne_nil hne
        have hshort : rest.length < n := by
          rw [← hlen, ← hrest, List.length_append]
          omega
        rw [← hrest, piecesFrom_separator hne, List.intercalate_cons_of_ne_nil (pieces_ne_nil _ _),
          pieces, ih _ hshort rest rfl]
        simp
      · rw [piecesFrom, if_neg (by rwa [List.isPrefixOf_iff_prefix]),
          ih cs.length (by rw [← hlen, List.length_cons]; omega) cs rfl, List.reverse_cons,
          List.append_assoc]
        rfl

-- Both sides of `heq` have the same words, so the separator's word is the last one of either and
-- there are only blanks after it; and it has a single blank after it.
theorem standsClear_of_not_mem_words {w t : List Char} (hne : w ≠ [])
    (hw : ∀ c ∈ w, isBlank c = false) (h : w ∉ words t) :
    StandsClear (' ' :: w ++ [' ']) t := by
  intro u v heq
  have hwords : words t ++ [w] = words u ++ w :: words v := by
    have hleft := words_append_word hne hw t []
    rw [List.append_nil, heq, words_append_word hne hw] at hleft
    exact hleft.symm
  have hblank : blank v = true := by
    rw [← words_eq_nil_iff]
    rcases List.eq_nil_or_concat (words v) with hnil | ⟨l, x, hl⟩
    · exact hnil
    · rw [hl, List.concat_eq_append, ← List.cons_append, ← List.append_assoc] at hwords
      have hmem : w ∈ words t := by
        rw [(List.append_inj' hwords rfl).1]
        simp
      exact absurd hmem h
  have hspace : blank [' '] = true := by decide
  have hspaces : blank (' ' :: v) = true := by
    rw [blank, List.all_cons, isBlank_space]
    exact hblank
  have hlast (s : List Char) : trimEnd (s ++ ' ' :: w) = s ++ ' ' :: w := by
    apply trimEnd_eq_self
    intro c hc
    rw [List.getLast?_append_of_ne_nil _ (List.cons_ne_nil _ _),
      List.getLast?_cons_of_ne_nil hne] at hc
    exact hw c (List.mem_of_getLast? hc)
  have htrim := congrArg trimEnd heq
  have hleft : t ++ (' ' :: w ++ [' ']) = (t ++ ' ' :: w) ++ [' '] := by simp
  have hright : u ++ (' ' :: w ++ [' ']) ++ v = (u ++ ' ' :: w) ++ (' ' :: v) := by simp
  rw [hleft, hright, trimEnd_append_blank hspace, trimEnd_append_blank hspaces, hlast, hlast]
    at htrim
  rw [hleft, hright, htrim] at heq
  simpa using heq

end TwoLevel.Text
