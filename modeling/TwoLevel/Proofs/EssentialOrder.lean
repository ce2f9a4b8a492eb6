import Mathlib.Data.Int.LeastGreatest
import Mathlib.Order.Bounds.Basic
import TwoLevel.Proofs.CanonicalRounds
import TwoLevel.Proofs.Cover

/-!
# The order of essential implicants

The rows that a prime implicant alone covers are those that the other prime implicants leave out.
Looking through ascending rows, an essential implicant is met first at the smallest of these, and
only this first meeting counts.  Main statement: the implicants found essential are those that the
others cannot replace, in the order of the smallest rows that they alone cover
(`essentials_primesOfRows?`).
-/

namespace TwoLevel

namespace Pattern

variable {width : Nat} {on : Set Int} {p : Pattern}

/-- The rows of a set that no other prime implicant of the set covers. -/
def ownRows (width : Nat) (on : Set Int) (p : Pattern) : Set Int :=
  {row | row ∈ on ∧ row ∈ p.cube ∧ ∀ q, IsPrime width on q → row ∈ q.cube → q = p}

theorem isEssential_iff_nonempty :
    IsEssential width on p ↔ IsPrime width on p ∧ (ownRows width on p).Nonempty := by
  apply Iff.intro
  · intro h
    exact ⟨h.toIsPrime, h.sole⟩
  · intro hboth
    rcases hboth with ⟨hprime, row, hrow⟩
    exact ⟨hprime, row, hrow⟩

/-- The rows of a set that are left without one of its prime implicants are its own rows. -/
theorem isEssential_iff_not_subset (hon : ∀ row ∈ on, 0 ≤ row ∧ row < 2 ^ width) :
    IsEssential width on p ↔
      IsPrime width on p ∧ ¬on ⊆ ⋃ q ∈ {q | IsPrime width on q ∧ q ≠ p}, q.cube := by
  rw [isEssential_iff_nonempty]
  apply and_congr_right
  intro _
  rw [Set.not_subset]
  apply exists_congr
  intro row
  have hother : row ∉ (⋃ q ∈ {q | IsPrime width on q ∧ q ≠ p}, q.cube) ↔
      ∀ q, IsPrime width on q → row ∈ q.cube → q = p := by
    simp only [Set.mem_iUnion, Set.mem_ofPred, exists_prop, not_exists, not_and, and_imp]
    exact forall₂_congr fun q _ => not_imp_not
  rw [hother]
  apply Iff.intro
  · intro hown
    exact ⟨hown.1, hown.2.2⟩
  · intro hboth
    rcases hboth with ⟨hrow, hsole⟩
    -- some prime implicant covers the row, and it can only be this one
    rcases hon row hrow with ⟨h0, hlt⟩
    rcases (isImplicant_of_mem hrow h0 hlt).exists_isPrime with ⟨q, hq, hadmits⟩
    have hcube : row ∈ q.cube := by
      apply cube_subset_of_admits hadmits
      rw [cube_lowBits_toNat h0 hlt]
      exact Set.mem_singleton row
    have hqp := hsole q hq hcube
    subst hqp
    exact ⟨hrow, hcube, hsole⟩

theorem IsEssential.exists_isLeast (h : IsEssential width on p) :
    ∃ row, IsLeast (ownRows width on p) row := by
  have hbounded : ∃ b, ∀ row, row ∈ ownRows width on p → b ≤ row :=
    ⟨0, fun row hrow => (mem_cube.mp hrow.2.1).1⟩
  rcases Int.exists_least_of_bdd hbounded h.sole with ⟨row, hrow, hleast⟩
  exact ⟨row, hrow, hleast⟩

end Pattern

namespace Implicant

open Pattern (IsPrime IsEssential ownRows)

variable {width : Nat} {on : Set Int} {xs : List Implicant}

/-! ## First meetings -/

-- What was seen before is not met for the first time, so it may be met at the first row too.
theorem pairwise_go_filterMap {f : Int → Option Implicant} {rows : List Int}
    (h : rows.Pairwise (· < ·)) (seen : List Pattern) :
    (distinct.go seen (rows.filterMap f)).Pairwise fun x y =>
      ∃ row ∈ rows, f row = some x ∧ ∀ row' ∈ rows, f row' = some y → row < row' := by
  induction rows generalizing seen with
  | nil => exact List.Pairwise.nil
  | cons first rows ih =>
    rcases List.pairwise_cons.mp h with ⟨hfirst, hrows⟩
    have hrest (seen : List Pattern) (hseen : ∀ x, f first = some x → x.bits ∈ seen) :
        (distinct.go seen (rows.filterMap f)).Pairwise fun x y => ∃ row ∈ first :: rows,
          f row = some x ∧ ∀ row' ∈ first :: rows, f row' = some y → row < row' := by
      refine (ih hrows seen).imp_of_mem ?_
      rintro x y _ hy ⟨row, hrow, hx, hlater⟩
      refine ⟨row, List.mem_cons_of_mem first hrow, hx, ?_⟩
      intro row' hrow' hfound
      rcases List.mem_cons.mp hrow' with rfl | hrow'
      · exact absurd (hseen y hfound) (mem_of_mem_go hy).2
      · exact hlater row' hrow' hfound
    cases hfound : f first with
    | none =>
      rw [List.filterMap_cons_none hfound]
      exact hrest seen fun x hx => absurd (hfound.symm.trans hx) (by simp)
    | some x =>
      have hsame (y : Implicant) (hy : f first = some y) : y = x :=
        Option.some.inj (hy.symm.trans hfound)
      rw [List.filterMap_cons_some hfound, distinct.go]
      split
      · rename_i hseen
        exact hrest seen fun y hy => hsame y hy ▸ hseen
      · rw [List.pairwise_cons]
        refine ⟨?_, hrest _ fun y hy => hsame y hy ▸ List.mem_cons_self⟩
        intro y hy
        refine ⟨first, List.mem_cons_self, hfound, ?_⟩
        intro row hrow hyrow
        rcases List.mem_cons.mp hrow with rfl | hrow
        · have hbits : y.bits ∈ x.bits :: seen := hsame y hyrow ▸ List.mem_cons_self
          exact absurd hbits (mem_of_mem_go hy).2
        · exact hfirst row hrow

/-! ## Own rows -/

theorem IsPrimeList.soleCover?_eq_some_iff (h : IsPrimeList width on xs) {row : Int}
    (hrow : row ∈ on) {x : Implicant} :
    soleCover? xs row = some x ↔ x ∈ xs ∧ row ∈ ownRows width on x.bits := by
  apply Iff.intro
  · intro hfound
    have hcovering (y : Implicant) : y ∈ xs ∧ row ∈ y.minterms ↔ y = x := by
      rw [← List.mem_singleton, ← Implicant.soleCover?_eq_some_iff.mp hfound, List.mem_filter,
        covers, decide_eq_true_eq]
    rcases (hcovering x).mpr rfl with ⟨hx, hxrow⟩
    refine ⟨hx, hrow, (h.exact x hx row).mp hxrow, ?_⟩
    intro q hq hcube
    rcases (h.exists_iff q).mpr hq with ⟨y, hy, rfl⟩
    rw [(hcovering y).mp ⟨hy, (h.exact y hy row).mpr hcube⟩]
  · intro hboth
    rcases hboth with ⟨hx, -, hcube, hsole⟩
    apply soleCover?_eq_some h.nodup hx ((h.exact x hx row).mpr hcube)
    intro y hy hyrow
    exact hsole y.bits (h.isPrime hy) ((h.exact y hy row).mp hyrow)

theorem IsPrimeList.mem_map_essentials_iff (h : IsPrimeList width on xs) {rows : List Int}
    (hrows : ∀ row, row ∈ rows ↔ row ∈ on) {p : Pattern} :
    p ∈ (essentials xs rows).map bits ↔ IsEssential width on p := by
  apply Iff.intro
  · intro hp
    rcases List.mem_map.mp hp with ⟨x, hx, rfl⟩
    exact h.isEssential_of_mem_essentials (fun row hrow => (hrows row).mp hrow) hx
  · intro hp
    rcases (h.exists_iff p).mpr hp.toIsPrime with ⟨x, hx, rfl⟩
    exact h.mem_essentials (fun row hrow => (hrows row).mpr hrow) hx hp

/-- Essential implicants come in the order of the smallest rows that they alone cover. -/
theorem IsPrimeList.pairwise_essentials (h : IsPrimeList width on xs) {rows : List Int}
    (hrows : ∀ row, row ∈ rows ↔ row ∈ on) (hascending : rows.Pairwise (· < ·)) :
    (essentials xs rows).Pairwise fun x y => ∃ row row', IsLeast (ownRows width on x.bits) row ∧
      IsLeast (ownRows width on y.bits) row' ∧ row < row' := by
  have hfirst : (essentials xs rows).Pairwise fun x y => ∃ row ∈ rows,
      soleCover? xs row = some x ∧ ∀ row' ∈ rows, soleCover? xs row' = some y → row < row' :=
    pairwise_go_filterMap hascending []
  refine hfirst.imp_of_mem ?_
  rintro x y hx hy ⟨found, hfound, hxfound, hlater⟩
  have hessential {z : Implicant} (hz : z ∈ essentials xs rows) : IsEssential width on z.bits :=
    (h.mem_map_essentials_iff hrows).mp (List.mem_map_of_mem hz)
  rcases (hessential hx).exists_isLeast with ⟨row, hrow⟩
  rcases (hessential hy).exists_isLeast with ⟨row', hrow'⟩
  refine ⟨row, row', hrow, hrow', ?_⟩
  have hxown := ((h.soleCover?_eq_some_iff ((hrows found).mp hfound)).mp hxfound).2
  have hyfound : soleCover? xs row' = some y :=
    (h.soleCover?_eq_some_iff hrow'.1.1).mpr ⟨mem_of_mem_essentials hy, hrow'.1⟩
  calc row ≤ found := hrow.2 hxown
    _ < row' := hlater row' ((hrows row').mpr hrow'.1.1) hyfound

/-- Found essential are the prime implicants that the others cannot replace, each once, in the order
of the smallest rows that they alone cover. -/
theorem essentials_primesOfRows? (width : Nat) (rows : List Int)
    (hrows : ∀ row ∈ rows, 0 ≤ row ∧ row < 2 ^ width) (hascending : rows.Pairwise (· < ·)) :
    ∃ found, primesOfRows? width rows = .ok found ∧
      essentials found.primes rows ⊆ found.primes ∧
      ((essentials found.primes rows).map bits).Nodup ∧
      (∀ p : Pattern, p ∈ (essentials found.primes rows).map bits ↔
        IsPrime width {row | row ∈ rows} p ∧
          ¬{row | row ∈ rows} ⊆ ⋃ q ∈ {q | IsPrime width {row | row ∈ rows} q ∧ q ≠ p}, q.cube) ∧
      (essentials found.primes rows).Pairwise fun x y => ∃ row row',
        IsLeast (ownRows width {row | row ∈ rows} x.bits) row ∧
        IsLeast (ownRows width {row | row ∈ rows} y.bits) row' ∧ row < row' := by
  have hprimes := (isRound_ofRow hrows).isPrimeList_primes
  refine ⟨_, primesOfRows?_natCast width rows, fun x hx => mem_of_mem_essentials hx,
    nodup_bits_distinct _, ?_, hprimes.pairwise_essentials (fun _ => Iff.rfl) hascending⟩
  intro p
  rw [hprimes.mem_map_essentials_iff fun _ => Iff.rfl]
  exact Pattern.isEssential_iff_not_subset hrows

-- Row 12 is prime by itself and left over by the first pass, but the rows before it belong to the
-- other prime implicant.
theorem essentials_primesOfRows?_two :
    ∃ found, primesOfRows? 4 [0, 1, 2, 3, 12] = .ok found ∧
      (essentials found.primes [0, 1, 2, 3, 12]).Pairwise fun x y => ∃ row row',
        IsLeast (ownRows 4 {row | row ∈ [0, 1, 2, 3, 12]} x.bits) row ∧
        IsLeast (ownRows 4 {row | row ∈ [0, 1, 2, 3, 12]} y.bits) row' ∧ row < row' := by
  rcases essentials_primesOfRows? 4 [0, 1, 2, 3, 12] (by decide) (by decide) with
    ⟨found, hok, -, -, -, hordered⟩
  exact ⟨found, hok, hordered⟩

end Implicant

end TwoLevel
