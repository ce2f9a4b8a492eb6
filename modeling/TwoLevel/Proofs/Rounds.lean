import TwoLevel.Proofs.PatternOrder
import TwoLevel.Proofs.PrimeImplicants

/-!
# The order of rounds

Of several merges into one pattern the first counts for its place in the next round, and this is the
one that frees the first of the free places.  So every round keeps the order of patterns, and the
prime implicants come in the order of their free places first.  Main statement: prime implicants
with a free place come in the order of their ranks (`IsSortedRound.pairwise_primes`).
-/

namespace TwoLevel

/-! ## First occurrences -/

section FirstOccurrences

variable {α β : Type} [BEq β] [LawfulBEq β]

-- Without repeats, a value comes before another if it does so once before the other comes at all.
theorem pairwise_eraseDups_map {R : α → α → Prop} {f : α → β} {l : List α} (h : l.Pairwise R) :
    (l.map f).eraseDups.Pairwise fun p q => ∃ a ∈ l, f a = p ∧ ∀ b ∈ l, f b = q → R a b := by
  induction hn : l.length using Nat.strong_induction_on generalizing l with
  | h n ih =>
    cases l with
    | nil => exact List.Pairwise.nil
    | cons a l =>
      rcases List.pairwise_cons.mp h with ⟨ha, hl⟩
      have hrest : (l.map f).filter (fun q => !q == f a) = (l.filter fun b => !f b == f a).map f :=
        List.filter_map
      have hlen := List.length_filter_le (fun b => !f b == f a) l
      rw [List.length_cons] at hn
      rw [List.map_cons, List.eraseDups_cons, hrest, List.pairwise_cons]
      apply And.intro
      · intro q hq
        rw [List.mem_eraseDups, List.mem_map] at hq
        rcases hq with ⟨c, hc, rfl⟩
        have hne : f c ≠ f a := by simpa using (List.mem_filter.mp hc).2
        refine ⟨a, List.mem_cons_self, rfl, ?_⟩
        intro b hb hbc
        rcases List.mem_cons.mp hb with rfl | hb
        · exact absurd hbc.symm hne
        · exact ha b hb
      · refine (ih _ (by omega) (hl.filter _) rfl).imp_of_mem ?_
        intro p q _ hq hex
        rcases hex with ⟨c, hc, hcp, hfirst⟩
        rw [List.mem_eraseDups, List.mem_map] at hq
        rcases hq with ⟨d, hd, hdq⟩
        have hne : q ≠ f a := by simpa [hdq] using (List.mem_filter.mp hd).2
        refine ⟨c, List.mem_cons_of_mem a (List.mem_filter.mp hc).1, hcp, ?_⟩
        intro b hb hbq
        rcases List.mem_cons.mp hb with rfl | hb
        · exact absurd hbq.symm hne
        · exact hfirst b (List.mem_filter.mpr ⟨hb, by simpa [hbq] using hne⟩) hbq

end FirstOccurrences

namespace Implicant

open Pattern (parents)

/-! ## Merges -/

-- Merges follow one another by the ones of their lower parents, then by where these stand in the
-- list, then by where their upper parents stand in it.
theorem pairwise_merges {xs : List Implicant}
    (h : xs.Pairwise fun x y => x.ones = y.ones → x.bits.place < y.bits.place) :
    (merges xs).Pairwise fun m m' =>
      parents m.lower.bits m.upper.bits < parents m'.lower.bits m'.upper.bits := by
  have hgroup (k : Nat) : (xs.filter fun x => x.ones = k).Pairwise fun x y =>
      x.ones = y.ones ∧ x.bits.place < y.bits.place := by
    refine (h.filter _).imp_of_mem ?_
    intro x y hx hy hplace
    have hxk : x.ones = k := by simpa using (List.mem_filter.mp hx).2
    have hyk : y.ones = k := by simpa using (List.mem_filter.mp hy).2
    have hones := hxk.trans hyk.symm
    exact ⟨hones, hplace hones⟩
  unfold merges groups
  rw [List.pairwise_flatMap, List.pairwise_map]
  apply And.intro
  · intro g hg
    rcases List.mem_map.mp hg with ⟨k, -, rfl⟩
    dsimp only
    rw [List.pairwise_flatMap]
    apply And.intro
    · intro x _
      unfold mergesWith
      rw [List.pairwise_filterMap]
      refine (hgroup (k + 1)).imp ?_
      intro y y' hyy m hm m' hm'
      rcases Option.map_eq_some_iff.mp hm with ⟨_, -, rfl⟩
      rcases Option.map_eq_some_iff.mp hm' with ⟨_, -, rfl⟩
      exact Pattern.parents_lt_iff.mpr (.inr ⟨rfl, .inr ⟨rfl, hyy.2⟩⟩)
    · refine (hgroup k).imp ?_
      intro x x' hxx m hm m' hm'
      rw [mem_mergesWith] at hm hm'
      rw [hm.1, hm'.1]
      exact Pattern.parents_lt_iff.mpr (.inr ⟨hxx.1, .inl hxx.2⟩)
  · refine (SortedSet.ascending _).imp ?_
    intro k k' hkk m hm m' hm'
    rcases List.mem_flatMap.mp hm with ⟨x, hx, hm⟩
    rcases List.mem_flatMap.mp hm' with ⟨x', hx', hm'⟩
    have hxk : x.ones = k := by simpa using (List.mem_filter.mp hx).2
    have hxk' : x'.ones = k' := by simpa using (List.mem_filter.mp hx').2
    rw [mem_mergesWith] at hm hm'
    have hones : x.ones < x'.ones := by omega
    rw [hm.1, hm'.1]
    exact Pattern.parents_lt_iff.mpr (.inl hones)

/-! ## Rounds -/

/-- A round in the order of patterns.  The first round, of rows, has this order only among those of
equally many ones. -/
structure IsSortedRound (width : Nat) (on : Set Int) (n : Nat) (xs : List Implicant) : Prop
    extends IsRound width on n xs where
  sorted : xs.Pairwise fun x y => n < width ∨ x.ones = y.ones → x.bits.order < y.bits.order

variable {width n : Nat} {on : Set Int} {xs : List Implicant}

namespace IsSortedRound

theorem pairwise_place (h : IsSortedRound width on n xs) :
    xs.Pairwise fun x y => x.ones = y.ones → x.bits.place < y.bits.place := by
  refine h.sorted.imp ?_
  intro x y horder hones
  rcases Pattern.order_lt_iff.mp (horder (.inr hones)) with hlt | hboth
  · exact absurd hones (Nat.ne_of_lt hlt)
  · exact hboth.2

theorem combined (h : IsSortedRound width on (n + 1) xs) :
    IsSortedRound width on n (pass xs).combined := by
  have hround := h.toIsRound.combined
  have hw := h.le_width
  have hsorted : ((pass xs).combined.map bits).Pairwise fun p q => p.order < q.order := by
    have hfirst := pairwise_eraseDups_map (f := fun m : Merge => m.merged.bits)
      (pairwise_merges h.pairwise_place)
    rw [← map_bits_combined] at hfirst
    refine hfirst.imp_of_mem ?_
    intro p q hp hq hex
    rcases hex with ⟨m, hm, rfl, hbefore⟩
    rcases (hround.exists_iff _).mp (List.mem_map.mp hp) with ⟨himp, hfixed⟩
    rcases (hround.exists_iff q).mp (List.mem_map.mp hq) with ⟨himp', hfixed'⟩
    -- the merge of `q` at the first free place
    have hfree : 0 < q.free := by
      have := Pattern.free_add_fixed q
      have := himp'.isTerm.length_eq
      omega
    rcases List.eq_append_cons_of_mem (Pattern.free_pos_iff.mp hfree) with ⟨l', r', rfl, hl'⟩
    rcases h.exists_merge himp' (by omega) with ⟨m', hm', hlower', hupper', hmerged'⟩
    rcases h.of_merge hm with ⟨l, r, hlower, hupper, hmerged, -, -⟩
    have hlt := hbefore m' hm' hmerged'
    rw [hlower, hupper, hlower', hupper'] at hlt
    rw [hmerged] at himp hfixed ⊢
    exact Pattern.order_lt_of_parents hl' (himp.isTerm.length_eq.trans himp'.isTerm.length_eq.symm)
      (hfixed.trans hfixed'.symm) hlt
  rw [List.pairwise_map] at hsorted
  refine { hround with sorted := hsorted.imp ?_ }
  intro x y hlt _
  exact hlt

-- All implicants of a round have equally many free places.
theorem pairwise_rank (h : IsSortedRound width on n xs) :
    xs.Pairwise fun x y => '-' ∈ x.bits → x.bits.rank < y.bits.rank := by
  refine h.sorted.imp_of_mem ?_
  intro x y hx hy horder hdash
  have hfree : x.bits.free + n = width ∧ y.bits.free + n = width := by
    have hx' := Pattern.free_add_fixed x.bits
    have hy' := Pattern.free_add_fixed y.bits
    rw [h.fixed_eq hx, (h.isImplicant hx).isTerm.length_eq] at hx'
    rw [h.fixed_eq hy, (h.isImplicant hy).isTerm.length_eq] at hy'
    exact ⟨hx', hy'⟩
  have hpos := Pattern.free_pos_iff.mpr hdash
  exact Pattern.rank_lt_iff.mpr (.inr ⟨by omega, horder (.inl (by omega))⟩)

theorem pairwise_leftovers (h : IsSortedRound width on n xs) :
    ((passes xs).flatMap (·.leftovers)).Pairwise fun x y =>
      '-' ∈ x.bits → x.bits.rank < y.bits.rank := by
  fun_induction passes xs generalizing n with
  | case1 xs made =>
    rw [List.flatMap_singleton]
    exact h.pairwise_rank.filter _
  | case2 xs made hne =>
    rename_i ih
    have hpos := h.pos_of_combined_ne_nil hne
    rcases ⟨n - 1, by omega⟩ with ⟨k, rfl⟩ : ∃ k, n = k + 1
    rw [List.flatMap_cons, List.pairwise_append]
    refine ⟨h.pairwise_rank.filter _, ih h.combined, ?_⟩
    -- what is left over later has more free places
    intro x hx y hy _
    rcases h.exists_leftover_iff.mp ⟨x, hx, rfl⟩ with ⟨hprime, hfixed⟩
    rcases h.combined.exists_passes_leftover_iff.mp ⟨y, hy, rfl⟩ with ⟨hprime', hfixed'⟩
    have hx' := Pattern.free_add_fixed x.bits
    have hy' := Pattern.free_add_fixed y.bits
    rw [hprime.isTerm.length_eq] at hx'
    rw [hprime'.isTerm.length_eq] at hy'
    exact Pattern.rank_lt_iff.mpr (.inl (by omega))

/-- Prime implicants with a free place come in the order of their ranks, after those without. -/
theorem pairwise_primes (h : IsSortedRound width on n xs) :
    (primes xs).primes.Pairwise fun x y => '-' ∈ x.bits → x.bits.rank < y.bits.rank :=
  h.pairwise_leftovers.sublist (distinct_sublist _)

end IsSortedRound

-- The rows of a set in ascending order.
theorem isSortedRound_ofRow {rows : List Int} (hrows : ∀ row ∈ rows, 0 ≤ row ∧ row < 2 ^ width)
    (hascending : rows.Pairwise (· < ·)) :
    IsSortedRound width {row | row ∈ rows} width (rows.map (ofRow width)) := by
  refine { isRound_ofRow hrows with sorted := ?_ }
  rw [List.pairwise_map]
  refine hascending.imp_of_mem ?_
  intro row row' hrow hrow' hlt hones
  rcases hrows row hrow with ⟨h0, hbound⟩
  rcases hrows row' hrow' with ⟨h0', hbound'⟩
  rw [or_iff_right (Nat.lt_irrefl width)] at hones
  have hleast : (ofRow width row).bits.least < (ofRow width row').bits.least := by
    rw [bits_ofRow h0 hbound, bits_ofRow h0' hbound',
      Pattern.least_lowBits (Pattern.toNat_lt_two_pow h0 hbound),
      Pattern.least_lowBits (Pattern.toNat_lt_two_pow h0' hbound')]
    omega
  exact Pattern.order_lt_iff.mpr (.inr ⟨hones, Pattern.place_lt_iff.mpr (.inl hleast)⟩)

end Implicant

end TwoLevel
