import Mathlib.NumberTheory.Harmonic.Defs
import Mathlib.Algebra.Order.BigOperators.Group.List
import Mathlib.Algebra.Order.Field.Basic
import Mathlib.Data.Finset.Card
import Mathlib.Tactic.Linarith
import TwoLevel.Proofs.GreedyChoice

/-!
# The price of greedy choices

Let other implicants cover all that is left, each with the harmonic number of the rows that it gains
for its weight.  A pick takes at least as many rows from them in sum as it gains itself, and none of
them gains more than the pick, so that the sum of their weights falls by one or more.  Main
statement: the number of picks is at most the size of any other cover, times the harmonic number of
the most rows that one implicant covers (`length_greedy_le_harmonic`).
-/

namespace TwoLevel

/-! ## Harmonic numbers -/

theorem harmonic_mono : Monotone harmonic := by
  apply monotone_nat_of_le_succ
  intro n
  rw [harmonic_succ]
  have hpos : (0 : ℚ) < (↑(n + 1))⁻¹ := inv_pos.mpr (Nat.cast_pos.mpr n.succ_pos)
  linarith

theorem harmonic_nonneg (n : Nat) : 0 ≤ harmonic n := harmonic_mono (Nat.zero_le n)

-- The last reciprocals in a harmonic number up to the one of `g` are no smaller than that of `g`.
theorem harmonic_add_le (b d : Nat) {g : Nat} (hle : b + d ≤ g) :
    harmonic b + d * (g : ℚ)⁻¹ ≤ harmonic (b + d) := by
  induction d with
  | zero => simp
  | succ d ih =>
    have hstep : (g : ℚ)⁻¹ ≤ (↑(b + d + 1))⁻¹ := by
      apply inv_anti₀
      · exact Nat.cast_pos.mpr (Nat.succ_pos _)
      · exact Nat.cast_le.mpr hle
    have hrest := ih (by omega)
    rw [← Nat.add_assoc, harmonic_succ, Nat.cast_succ, add_mul, one_mul]
    linarith

/-! ## Rows as finite sets -/

namespace SortedSet

def toFinset (s : SortedSet Int) : Finset Int := s.toList.toFinset

theorem mem_toFinset {s : SortedSet Int} {row : Int} : row ∈ s.toFinset ↔ row ∈ s :=
  List.mem_toFinset

theorem toFinset_diff (s t : SortedSet Int) : (s \ t).toFinset = s.toFinset \ t.toFinset := by
  ext row
  rw [Finset.mem_sdiff, mem_toFinset, mem_toFinset, mem_toFinset, mem_diff]

theorem common_eq_card (s t : SortedSet Int) : s.common t = (s.toFinset ∩ t.toFinset).card := by
  have hnodup : (s.toList.filter (· ∈ t)).Nodup := (s.ascending.imp ne_of_lt).filter _
  have hinter : s.toFinset ∩ t.toFinset = (s.toList.filter (· ∈ t)).toFinset := by
    ext row
    rw [Finset.mem_inter, mem_toFinset, mem_toFinset, List.mem_toFinset, List.mem_filter,
      decide_eq_true_eq, mem_iff]
  rw [hinter, List.toFinset_card_of_nodup hnodup, ← List.countP_eq_length_filter, common]

end SortedSet

namespace Implicant

variable {xs cover : List Implicant} {left : SortedSet Int} {taken : List Pattern}

theorem gain_eq_card (left : SortedSet Int) (x : Implicant) :
    gain left x = (left.toFinset ∩ x.minterms.toFinset).card := by
  rw [gain, SortedSet.common_eq_card, Finset.inter_comm]

/-- How many rows that are left two implicants share. -/
def shared (left : SortedSet Int) (x y : Implicant) : Nat :=
  (left.toFinset ∩ x.minterms.toFinset ∩ y.minterms.toFinset).card

theorem gain_diff_add_shared (left : SortedSet Int) (x y : Implicant) :
    gain (left \ x.minterms) y + shared left x y = gain left y := by
  have hrest : (left \ x.minterms).toFinset ∩ y.minterms.toFinset =
      (left.toFinset ∩ y.minterms.toFinset) \ x.minterms.toFinset := by
    rw [SortedSet.toFinset_diff, Finset.sdiff_inter_right_comm]
  rw [gain_eq_card, gain_eq_card, shared, hrest, Finset.inter_right_comm,
    Finset.card_sdiff_add_card_inter]

theorem card_le_sum_card_inter (rows : Finset Int)
    (hcovers : ∀ row ∈ rows, ∃ y ∈ cover, row ∈ y.minterms) :
    rows.card ≤ (cover.map fun y => (rows ∩ y.minterms.toFinset).card).sum := by
  induction cover generalizing rows with
  | nil =>
    have hnone : rows = ∅ := by
      apply Finset.eq_empty_of_forall_notMem
      intro row hrow
      rcases hcovers row hrow with ⟨y, hy, -⟩
      cases hy
    rw [hnone, Finset.card_empty]
    exact Nat.zero_le _
  | cons z cover ih =>
    have hrest := ih (rows \ z.minterms.toFinset) (by
      intro row hrow
      rcases Finset.mem_sdiff.mp hrow with ⟨hrow, hz⟩
      rcases hcovers row hrow with ⟨y, hy, hyrow⟩
      rcases List.mem_cons.mp hy with rfl | hy
      · exact absurd (SortedSet.mem_toFinset.mpr hyrow) hz
      · exact ⟨y, hy, hyrow⟩)
    have hfewer : (cover.map fun y =>
          (rows \ z.minterms.toFinset ∩ y.minterms.toFinset).card).sum ≤
        (cover.map fun y => (rows ∩ y.minterms.toFinset).card).sum := by
      apply List.sum_le_sum
      intro y _
      exact Finset.card_le_card (Finset.inter_subset_inter_right Finset.sdiff_subset)
    have hsplit := Finset.card_inter_add_card_sdiff rows z.minterms.toFinset
    rw [List.map_cons, List.sum_cons]
    omega

-- Every row that the pick gains is shared with some implicant of the cover.
theorem gain_le_sum_shared (hcovers : ∀ row ∈ left, ∃ y ∈ cover, row ∈ y.minterms)
    (x : Implicant) : gain left x ≤ (cover.map (shared left x)).sum := by
  rw [gain_eq_card]
  apply card_le_sum_card_inter
  intro row hrow
  exact hcovers row (SortedSet.mem_toFinset.mp (Finset.mem_inter.mp hrow).1)

/-! ## The weight of a cover -/

/-- The harmonic numbers of what the implicants gain, summed up. -/
def weight (cover : List Implicant) (left : SortedSet Int) : ℚ :=
  (cover.map fun y => harmonic (gain left y)).sum

theorem weight_nonneg (cover : List Implicant) (left : SortedSet Int) : 0 ≤ weight cover left := by
  apply List.sum_nonneg
  intro w hw
  rcases List.mem_map.mp hw with ⟨y, -, rfl⟩
  exact harmonic_nonneg _

theorem weight_le {k : Nat} (hk : ∀ y ∈ cover, gain left y ≤ k) :
    weight cover left ≤ harmonic k * cover.length := by
  have hsum := List.sum_le_card_nsmul (cover.map fun y => harmonic (gain left y)) (harmonic k) (by
    intro w hw
    rcases List.mem_map.mp hw with ⟨y, hy, rfl⟩
    exact harmonic_mono (hk y hy))
  rwa [List.length_map, nsmul_eq_mul, mul_comm] at hsum

theorem weight_diff_add_le {x : Implicant} (hwidest : ∀ y ∈ cover, gain left y ≤ gain left x) :
    weight cover (left \ x.minterms) + (cover.map (shared left x)).sum * (gain left x : ℚ)⁻¹ ≤
      weight cover left := by
  induction cover with
  | nil => simp [weight]
  | cons y cover ih =>
    rcases List.forall_mem_cons.mp hwidest with ⟨hy, hcover⟩
    have hrest := ih hcover
    have hsplit := gain_diff_add_shared left x y
    have hhead := harmonic_add_le (gain (left \ x.minterms) y) (shared left x y)
      (hsplit.trans_le hy)
    rw [hsplit] at hhead
    unfold weight at hrest ⊢
    rw [List.map_cons, List.map_cons, List.map_cons, List.sum_cons, List.sum_cons, List.sum_cons,
      Nat.cast_add, add_mul]
    linarith

/-- An implicant takes a weight of one from a cover in which no other gains more. -/
theorem weight_diff_add_one_le {x : Implicant} (hpos : 0 < gain left x)
    (hwidest : ∀ y ∈ cover, gain left y ≤ gain left x)
    (hcovers : ∀ row ∈ left, ∃ y ∈ cover, row ∈ y.minterms) :
    weight cover (left \ x.minterms) + 1 ≤ weight cover left := by
  have hgain : (0 : ℚ) < gain left x := Nat.cast_pos.mpr hpos
  have hshared : (gain left x : ℚ) ≤ (cover.map (shared left x)).sum :=
    Nat.cast_le.mpr (gain_le_sum_shared hcovers x)
  have hone : 1 ≤ ((cover.map (shared left x)).sum : ℚ) * (gain left x : ℚ)⁻¹ := by
    rw [← div_eq_mul_inv, one_le_div hgain]
    exact hshared
  have hall := weight_diff_add_le hwidest
  linarith

/-! ## The run -/

/-- Listed implicants that cover all that is left.  Those of them that are taken are used up. -/
structure IsRival (xs : List Implicant) (left : SortedSet Int) (taken : List Pattern)
    (cover : List Implicant) : Prop where
  mem : ∀ y ∈ cover, y ∈ xs
  covers : ∀ row ∈ left, ∃ y ∈ cover, row ∈ y.minterms
  used_up : ∀ y ∈ cover, y.bits ∈ taken → gain left y = 0

theorem IsRival.gain_le (h : IsRival xs left taken cover) {x : Implicant}
    (hx : widest? left (xs.filter (·.bits ∉ taken)) = some x) {y : Implicant} (hy : y ∈ cover) :
    gain left y ≤ gain left x := by
  by_cases htaken : y.bits ∈ taken
  · rw [h.used_up y hy htaken]
    exact Nat.zero_le _
  · exact gain_le_of_widest? hx (mem_untaken.mpr ⟨h.mem y hy, htaken⟩)

theorem gain_diff_self (left : SortedSet Int) (x : Implicant) :
    gain (left \ x.minterms) x = 0 := by
  apply Nat.eq_zero_of_not_pos
  intro hpos
  rcases SortedSet.common_pos.mp hpos with ⟨row, hxrow, hrow⟩
  exact (SortedSet.mem_diff.mp hrow).2 hxrow

theorem IsRival.diff (h : IsRival xs left taken cover) (hxs : (xs.map bits).Nodup)
    {x : Implicant} (hx : x ∈ xs) : IsRival xs (left \ x.minterms) (x.bits :: taken) cover := by
  refine ⟨h.mem, fun row hrow => h.covers row (SortedSet.mem_diff.mp hrow).1, ?_⟩
  intro y hy htaken
  rcases List.mem_cons.mp htaken with hbits | htaken
  · rw [List.inj_on_of_nodup_map hxs (h.mem y hy) hx hbits]
    exact gain_diff_self left x
  · have hsplit := gain_diff_add_shared left x y
    have hzero := h.used_up y hy htaken
    omega

/-- Each pick takes a weight of one from the rival, which has no less than nothing in the end. -/
theorem IsRival.length_greedy_le_weight (h : IsRival xs left taken cover)
    (hxs : (xs.map bits).Nodup) : ((greedy xs left taken).length : ℚ) ≤ weight cover left := by
  fun_induction greedy xs left taken with
  | case1 => exact weight_nonneg _ _
  | case2 left taken x hfound ih =>
    have hx := (mem_untaken.mp (mem_of_widest?_eq_some hfound)).1
    have hrest := ih (h.diff hxs hx)
    have hstep := weight_diff_add_one_le (gain_pos_of_widest? hfound)
      (fun y hy => h.gain_le hfound hy) h.covers
    rw [List.length_cons, Nat.cast_succ]
    linarith

/-- The most rows that an implicant covers whose pattern is not taken. -/
def maxGain (xs : List Implicant) (left : SortedSet Int) (taken : List Pattern) : Nat :=
  ((xs.filter (·.bits ∉ taken)).map (gain left)).foldr max 0

theorem maxGain_le_iff {k : Nat} :
    maxGain xs left taken ≤ k ↔ ∀ x ∈ xs, x.bits ∉ taken → gain left x ≤ k := by
  have hfold (l : List Nat) : l.foldr max 0 ≤ k ↔ ∀ n ∈ l, n ≤ k := by
    induction l with
    | nil => simp
    | cons n l ih => rw [List.foldr_cons, Nat.max_le, ih, List.forall_mem_cons]
  rw [maxGain, hfold, List.forall_mem_map]
  simp only [mem_untaken, and_imp]

/-- Picking takes at most a harmonic number of times as many implicants as any other cover of the
same rows has. -/
theorem length_greedy_le_harmonic (xs selected cover : List Implicant) (uncovered : SortedSet Int)
    (hxs : (xs.map bits).Nodup)
    (hcover : ∀ y ∈ cover, y ∈ xs ∧ y.bits ∉ selected.map bits)
    (hcovers : ∀ row ∈ uncovered, ∃ y ∈ cover, row ∈ y.minterms) :
    ((greedy xs uncovered (selected.map bits)).length : ℚ) ≤
        (cover.map fun y => harmonic (gain uncovered y)).sum ∧
      ((greedy xs uncovered (selected.map bits)).length : ℚ) ≤
        harmonic (maxGain xs uncovered (selected.map bits)) * cover.length := by
  have hrival : IsRival xs uncovered (selected.map bits) cover :=
    ⟨fun y hy => (hcover y hy).1, hcovers, fun y hy htaken => absurd htaken (hcover y hy).2⟩
  have hweight := hrival.length_greedy_le_weight hxs
  refine ⟨hweight, hweight.trans (weight_le ?_)⟩
  intro y hy
  exact maxGain_le_iff.mp (Nat.le_refl _) y (hcover y hy).1 (hcover y hy).2

-- The first pick gains four rows and leaves one to each of two implicants that would do alone.
theorem length_greedy_le_harmonic_three :
    greedy
        [⟨"0--".toList, .ofList [0, 1, 2, 3]⟩, ⟨"-0-".toList, .ofList [0, 1, 4, 5]⟩,
          ⟨"-1-".toList, .ofList [2, 3, 6, 7]⟩, ⟨"1-1".toList, .ofList [5, 7]⟩]
        (.ofList [0, 1, 2, 3, 4, 6]) ["1-1".toList] =
      [⟨"0--".toList, .ofList [0, 1, 2, 3]⟩, ⟨"-0-".toList, .ofList [0, 1, 4, 5]⟩,
        ⟨"-1-".toList, .ofList [2, 3, 6, 7]⟩] ∧
    (3 : ℚ) ≤ harmonic 4 * 2 := by
  have hbound := length_greedy_le_harmonic
    [⟨"0--".toList, .ofList [0, 1, 2, 3]⟩, ⟨"-0-".toList, .ofList [0, 1, 4, 5]⟩,
      ⟨"-1-".toList, .ofList [2, 3, 6, 7]⟩, ⟨"1-1".toList, .ofList [5, 7]⟩]
    [⟨"1-1".toList, .ofList [5, 7]⟩]
    [⟨"-0-".toList, .ofList [0, 1, 4, 5]⟩, ⟨"-1-".toList, .ofList [2, 3, 6, 7]⟩]
    (.ofList [0, 1, 2, 3, 4, 6]) (by decide) (by decide) (by decide)
  have hpicks : greedy
      [⟨"0--".toList, .ofList [0, 1, 2, 3]⟩, ⟨"-0-".toList, .ofList [0, 1, 4, 5]⟩,
        ⟨"-1-".toList, .ofList [2, 3, 6, 7]⟩, ⟨"1-1".toList, .ofList [5, 7]⟩]
      (.ofList [0, 1, 2, 3, 4, 6]) ["1-1".toList] =
      [⟨"0--".toList, .ofList [0, 1, 2, 3]⟩, ⟨"-0-".toList, .ofList [0, 1, 4, 5]⟩,
        ⟨"-1-".toList, .ofList [2, 3, 6, 7]⟩] := by
    decide +kernel
  have hmax : maxGain
      [⟨"0--".toList, .ofList [0, 1, 2, 3]⟩, ⟨"-0-".toList, .ofList [0, 1, 4, 5]⟩,
        ⟨"-1-".toList, .ofList [2, 3, 6, 7]⟩, ⟨"1-1".toList, .ofList [5, 7]⟩]
      (.ofList [0, 1, 2, 3, 4, 6]) ["1-1".toList] = 4 := by
    decide
  have hthree := hbound.2
  rw [List.map_singleton, hpicks, hmax] at hthree
  exact ⟨hpicks, hthree⟩

end Implicant

end TwoLevel
