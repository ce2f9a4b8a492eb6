import TwoLevel.Proofs.Cover

/-!
# Greedy choices

Each pick is one of the implicants that are not taken and that cover most of what is left, the
earliest of them in the list.  It covers some of it, so there are no more picks than rows, and
picking ends when no implicant that is not taken covers any of what is left.  Main statement: the
picks are such choices to the end, and leave exactly the rows that nobody could cover
(`isGreedyCover_greedy`).
-/

namespace TwoLevel

namespace Implicant

/-- Covers most of what is left among the implicants whose patterns are not taken, and strictly more
than those before it. -/
structure IsGreedyChoice (xs : List Implicant) (left : SortedSet Int) (taken : List Pattern)
    (x : Implicant) : Prop where
  mem : x ∈ xs
  not_taken : x.bits ∉ taken
  gain_pos : 0 < gain left x
  gain_le : ∀ y ∈ xs, y.bits ∉ taken → gain left y ≤ gain left x
  gain_lt : ∀ before after, xs = before ++ x :: after →
    ∀ y ∈ before, y.bits ∉ taken → gain left y < gain left x

/-- Greedy choices, one after the other on what those before them leave, until nothing that is left
can be covered. -/
structure IsGreedyCover (xs selected : List Implicant) (uncovered : SortedSet Int)
    (picks : List Implicant) : Prop where
  length_le : picks.length ≤ uncovered.size
  nodup : (picks.map bits).Nodup
  not_selected : ∀ x ∈ picks, x.bits ∉ selected.map bits
  choice : ∀ before x after, picks = before ++ x :: after →
    IsGreedyChoice xs (uncovered \ coveredBy before) ((selected ++ before).map bits) x
  left_iff : ∀ row, row ∈ uncovered \ coveredBy picks ↔
    row ∈ uncovered ∧ ∀ y ∈ xs, y.bits ∉ selected.map bits → row ∉ y.minterms

variable {xs : List Implicant} {remaining : SortedSet Int} {taken : List Pattern}

/-! ## One pick -/

theorem isGreedyChoice_of_widest? (hxs : xs.Nodup) {x : Implicant}
    (h : widest? remaining (xs.filter (·.bits ∉ taken)) = some x) :
    IsGreedyChoice xs remaining taken x := by
  have hx := mem_untaken.mp (mem_of_widest?_eq_some h)
  refine ⟨hx.1, hx.2, gain_pos_of_widest? h, ?_, ?_⟩
  · intro y hy htaken
    exact gain_le_of_widest? h (mem_untaken.mpr ⟨hy, htaken⟩)
  · rintro before after rfl y hy htaken
    rcases exists_split_of_widest? h with ⟨l, r, hsplit, hl, -⟩
    -- `x` stands once in the list, so the two ways to split it there are one
    rw [List.nodup_middle, List.nodup_cons, List.mem_append, not_or] at hxs
    have hbefore : x ∉ before.filter (·.bits ∉ taken) :=
      fun hmem => hxs.1.1 (mem_untaken.mp hmem).1
    have hafter : x ∉ after.filter (·.bits ∉ taken) :=
      fun hmem => hxs.1.2 (mem_untaken.mp hmem).1
    have hkept : (x :: after).filter (·.bits ∉ taken) = x :: after.filter (·.bits ∉ taken) :=
      List.filter_cons_of_pos (decide_eq_true hx.2)
    rw [List.filter_append, hkept, List.append_cons_inj_of_notMem hbefore hafter] at hsplit
    apply hl y
    rw [← hsplit.1]
    exact mem_untaken.mpr ⟨hy, htaken⟩

theorem isGreedyChoice_of_greedy (hxs : xs.Nodup) {before after : List Implicant} {x : Implicant}
    (h : greedy xs remaining taken = before ++ x :: after) :
    IsGreedyChoice xs (remaining \ coveredBy before) ((before.map bits).reverse ++ taken) x :=
  isGreedyChoice_of_widest? hxs (widest?_of_greedy_eq_cons (greedy_of_append h)).1

/-! ## All picks -/

theorem length_greedy_le (xs : List Implicant) (remaining : SortedSet Int)
    (taken : List Pattern) : (greedy xs remaining taken).length ≤ remaining.size := by
  fun_induction greedy xs remaining taken with
  | case1 => exact Nat.zero_le _
  | case2 remaining taken x hfound ih =>
    have hlt := SortedSet.size_diff_lt (gain_pos_of_widest? hfound)
    rw [List.length_cons]
    omega

/-- Picking leaves the rows that no implicant covers unless it is taken from the start. -/
theorem mem_diff_coveredBy_greedy_iff (hxs : (xs.map bits).Nodup) {row : Int} :
    row ∈ remaining \ coveredBy (greedy xs remaining taken) ↔
      row ∈ remaining ∧ ∀ y ∈ xs, y.bits ∉ taken → row ∉ y.minterms := by
  rw [SortedSet.mem_diff, mem_coveredBy]
  apply and_congr_right
  intro hrow
  apply Iff.intro
  · intro hleft y hy htaken hyrow
    exact hleft (exists_mem_greedy hxs hrow hy htaken hyrow)
  · intro hnone hex
    rcases hex with ⟨x, hx, hxrow⟩
    rcases mem_greedy hx with ⟨hmem, htaken⟩
    exact hnone x hmem htaken hxrow

/-- Picking makes greedy choices to the end, and leaves the rows that cannot be covered. -/
theorem isGreedyCover_greedy (xs selected : List Implicant) (uncovered : SortedSet Int)
    (hxs : (xs.map bits).Nodup) :
    IsGreedyCover xs selected uncovered (greedy xs uncovered (selected.map bits)) := by
  refine ⟨length_greedy_le _ _ _, nodup_bits_greedy _ _ _, fun x hx => (mem_greedy hx).2, ?_,
    fun row => mem_diff_coveredBy_greedy_iff hxs⟩
  intro before x after hpicks
  have hchoice := isGreedyChoice_of_greedy hxs.of_map hpicks
  have htaken {p : Pattern} : p ∈ (selected ++ before).map bits ↔
      p ∈ (before.map bits).reverse ++ selected.map bits := by
    rw [List.map_append, List.mem_append, List.mem_append, List.mem_reverse, or_comm]
  refine ⟨hchoice.mem, ?_, hchoice.gain_pos, ?_, ?_⟩
  · rw [htaken]
    exact hchoice.not_taken
  · intro y hy hfree
    rw [htaken] at hfree
    exact hchoice.gain_le y hy hfree
  · intro l r hsplit y hy hfree
    rw [htaken] at hfree
    exact hchoice.gain_lt l r hsplit y hy hfree

-- The first and the last implicant gain two rows each; row 4 belongs to the selected one alone, and
-- row 9 to none.
theorem isGreedyCover_greedy_tie :
    IsGreedyCover
      [⟨"01-".toList, .ofList [2, 3]⟩, ⟨"1-0".toList, .ofList [4, 6]⟩,
        ⟨"-11".toList, .ofList [3, 7]⟩, ⟨"0-0".toList, .ofList [0, 2]⟩]
      [⟨"1-0".toList, .ofList [4, 6]⟩] (.ofList [0, 2, 3, 4, 9])
      [⟨"01-".toList, .ofList [2, 3]⟩, ⟨"0-0".toList, .ofList [0, 2]⟩] := by
  have hcover := isGreedyCover_greedy
    [⟨"01-".toList, .ofList [2, 3]⟩, ⟨"1-0".toList, .ofList [4, 6]⟩,
      ⟨"-11".toList, .ofList [3, 7]⟩, ⟨"0-0".toList, .ofList [0, 2]⟩]
    [⟨"1-0".toList, .ofList [4, 6]⟩] (.ofList [0, 2, 3, 4, 9]) (by decide)
  have hpicks : greedy
      [⟨"01-".toList, .ofList [2, 3]⟩, ⟨"1-0".toList, .ofList [4, 6]⟩,
        ⟨"-11".toList, .ofList [3, 7]⟩, ⟨"0-0".toList, .ofList [0, 2]⟩]
      (.ofList [0, 2, 3, 4, 9]) ["1-0".toList] =
      [⟨"01-".toList, .ofList [2, 3]⟩, ⟨"0-0".toList, .ofList [0, 2]⟩] := by
    decide +kernel
  exact hpicks ▸ hcover

end Implicant

end TwoLevel
