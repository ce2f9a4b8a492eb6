import TwoLevel.Proofs.Cover
import TwoLevel.Proofs.Rounds
import TwoLevel.Proofs.Widening

/-!
# Minimisation over fewer variables

Dropping variables that a function does not depend on narrows its minimisation and changes nothing
else.  The essential implicants come in the order of the first rows that they alone cover, which
projection keeps; the others all have a free place and come in the order of ranks, which spreading
keeps; and every gain is multiplied by the same number, so that each pick is the same.  Main
statement: what is selected over all variables are the widened selected implicants
(`Minimisation.selected_widen`).
-/

namespace TwoLevel

namespace Pattern

-- A prime implicant without a free place is a row with no neighbour in the set.
theorem IsPrime.isEssential {width : Nat} {on : Set Int} {p : Pattern} (h : IsPrime width on p)
    (hfree : '-' ∉ p) : IsEssential width on p := by
  have hfixed : fixed p = width := by
    have hcount := free_add_fixed p
    rw [free, List.count_eq_zero.mpr hfree, h.isTerm.length_eq] at hcount
    omega
  rcases exists_lowBits_of_fixed h.isTerm hfixed with ⟨n, hn, rfl⟩
  have hcube : (n : Int) ∈ (lowBits width n).cube := by
    rw [cube_lowBits hn]
    exact Set.mem_singleton _
  refine ⟨h, n, h.inside hcube, hcube, ?_⟩
  intro q hq hqrow
  have hadmits := (natCast_mem_cube hq.isTerm.length_eq hn).mp hqrow
  exact (isPrime_iff_largest.mp h).2 q hq.toIsImplicant hadmits

end Pattern

namespace Implicant

open Pattern (lift project embed spread)

variable {keep : List Bool}

/-! ## Choosing among widened implicants -/

theorem spread_mem_map_iff {p : Pattern} {taken : List Pattern} :
    spread keep p ∈ taken.map (spread keep) ↔ p ∈ taken :=
  List.mem_map_of_injective fun _ _ => Pattern.spread_inj.mp

theorem go_map_widen (xs : List Implicant) (seen : List Pattern) :
    distinct.go (seen.map (spread keep)) (xs.map (widen keep)) =
      (distinct.go seen xs).map (widen keep) := by
  induction xs generalizing seen with
  | nil => rfl
  | cons x xs ih =>
    rw [List.map_cons]
    unfold distinct.go
    simp only [bits_widen, spread_mem_map_iff]
    split
    · exact ih seen
    · exact congrArg (widen keep x :: ·) (ih (x.bits :: seen))

theorem distinct_map_widen (xs : List Implicant) :
    distinct (xs.map (widen keep)) = (distinct xs).map (widen keep) := go_map_widen xs []

-- Where a row comes again, its implicant has been seen.
theorem go_filterMap_filter {f : Int → Option Implicant} {row : Int} {seen : List Pattern}
    (h : ∀ x, f row = some x → x.bits ∈ seen) (rows : List Int) :
    distinct.go seen ((rows.filter fun r => !r == row).filterMap f) =
      distinct.go seen (rows.filterMap f) := by
  induction rows generalizing seen with
  | nil => rfl
  | cons r rows ih =>
    by_cases hr : r = row
    · subst hr
      rw [List.filter_cons_of_neg (by simp), ih h]
      cases hf : f r with
      | none => rw [List.filterMap_cons_none hf]
      | some x => rw [List.filterMap_cons_some hf, distinct.go, if_pos (h x hf)]
    · rw [List.filter_cons_of_pos (by simpa using hr)]
      cases hf : f r with
      | none => rw [List.filterMap_cons_none hf, List.filterMap_cons_none hf, ih h]
      | some x =>
        rw [List.filterMap_cons_some hf, List.filterMap_cons_some hf, distinct.go, distinct.go]
        split
        · exact ih h
        · exact congrArg (x :: ·) (ih fun y hy => List.mem_cons_of_mem _ (h y hy))

theorem go_filterMap_eraseDups (f : Int → Option Implicant) (rows : List Int)
    (seen : List Pattern) : distinct.go seen (rows.eraseDups.filterMap f) =
      distinct.go seen (rows.filterMap f) := by
  induction hn : rows.length using Nat.strong_induction_on generalizing rows seen with
  | h n ih =>
    cases rows with
    | nil => rfl
    | cons row rows =>
      have hlen := List.length_filter_le (fun r => !r == row) rows
      rw [List.length_cons] at hn
      have hrest (seen : List Pattern) (h : ∀ x, f row = some x → x.bits ∈ seen) :
          distinct.go seen ((rows.filter fun r => !r == row).eraseDups.filterMap f) =
            distinct.go seen (rows.filterMap f) := by
        rw [ih _ (by omega) _ _ rfl, go_filterMap_filter h]
      rw [List.eraseDups_cons]
      cases hf : f row with
      | none =>
        rw [List.filterMap_cons_none hf, List.filterMap_cons_none hf]
        exact hrest seen fun x hx => absurd (hf.symm.trans hx) (by simp)
      | some x =>
        have hsame (y : Implicant) (hy : f row = some y) : y = x :=
          Option.some.inj (hy.symm.trans hf)
        rw [List.filterMap_cons_some hf, List.filterMap_cons_some hf, distinct.go, distinct.go]
        split
        · rename_i hseen
          exact hrest seen fun y hy => hsame y hy ▸ hseen
        · exact congrArg (x :: ·) (hrest _ fun y hy => hsame y hy ▸ List.mem_cons_self)

theorem covers_widen {x : Implicant} {row : Int} (h0 : 0 ≤ row) (h : row < 2 ^ keep.length) :
    (widen keep x).covers row = x.covers (project keep row.toNat) := by
  have hmem : row ∈ (widen keep x).minterms ↔ (project keep row.toNat : Int) ∈ x.minterms := by
    rw [minterms_widen, mem_liftRows, Pattern.mem_lift, and_iff_right h0, and_iff_right h]
    exact Iff.rfl
  rw [covers, covers]
  simp only [hmem]

theorem soleCover?_map_widen (xs : List Implicant) {row : Int} (h0 : 0 ≤ row)
    (h : row < 2 ^ keep.length) : soleCover? (xs.map (widen keep)) row =
      (soleCover? xs (project keep row.toNat)).map (widen keep) := by
  have hfilter : (xs.map (widen keep)).filter (·.covers row) =
      (xs.filter (·.covers (project keep row.toNat))).map (widen keep) := by
    rw [List.filter_map]
    congr 1
    exact List.filter_congr fun x _ => covers_widen h0 h
  unfold soleCover?
  rw [hfilter]
  generalize xs.filter (·.covers (project keep row.toNat)) = covering
  rcases covering with _ | ⟨x, _ | ⟨y, ys⟩⟩ <;> rfl

theorem soleCover?_perm {xs ys : List Implicant} (h : xs.Perm ys) (row : Int) :
    soleCover? xs row = soleCover? ys row := by
  apply Option.ext
  intro x
  rw [soleCover?_eq_some_iff, soleCover?_eq_some_iff, ← List.perm_singleton, ← List.perm_singleton]
  exact (h.filter _).congr_left _

theorem widest?_map_widen {xs : List Implicant} {remaining : SortedSet Int}
    (hxs : ∀ x ∈ xs, ∀ row ∈ x.minterms, 0 ≤ row ∧ row < 2 ^ keep.count true) :
    widest? (liftRows keep remaining) (xs.map (widen keep)) =
      (widest? remaining xs).map (widen keep) := by
  induction xs with
  | nil => rfl
  | cons x xs ih =>
    rcases List.forall_mem_cons.mp hxs with ⟨hx, hxs⟩
    have hpos := Nat.two_pow_pos (keep.count false)
    rw [List.map_cons]
    unfold widest?
    rw [ih hxs, gain_widen hx]
    cases hy : widest? remaining xs with
    | none =>
      have hgain : 0 < 2 ^ keep.count false * gain remaining x ↔ 0 < gain remaining x :=
        Nat.mul_pos_iff_of_pos_left hpos
      simp only [Option.map_none, hgain]
      split <;> rfl
    | some y =>
      have hymem := mem_of_widest?_eq_some hy
      simp only [Option.map_some, gain_widen (hxs y hymem), Nat.mul_le_mul_left_iff hpos]
      split <;> rfl

theorem filter_map_widen (xs : List Implicant) (taken : List Pattern) :
    (xs.map (widen keep)).filter (·.bits ∉ taken.map (spread keep)) =
      (xs.filter (·.bits ∉ taken)).map (widen keep) := by
  rw [List.filter_map]
  congr 1
  apply List.filter_congr
  intro x _
  simp only [Function.comp_apply, bits_widen, spread_mem_map_iff]

theorem filter_not_mem_cons (xs : List Implicant) (p : Pattern) (taken : List Pattern) :
    xs.filter (·.bits ∉ p :: taken) = (xs.filter (·.bits ∉ taken)).filter (·.bits ≠ p) := by
  rw [List.filter_filter]
  apply List.filter_congr
  intro x _
  simp only [List.mem_cons, not_or, Bool.decide_and]

-- Picking goes on in the same way as long as the implicants that are not taken correspond.
theorem greedy_widen {xs ys : List Implicant} {remaining : SortedSet Int} {taken : List Pattern}
    (hys : ∀ y ∈ ys, ∀ row ∈ y.minterms, 0 ≤ row ∧ row < 2 ^ keep.count true)
    (h : xs.filter (·.bits ∉ taken.map (spread keep)) =
      (ys.filter (·.bits ∉ taken)).map (widen keep)) :
    greedy xs (liftRows keep remaining) (taken.map (spread keep)) =
      (greedy ys remaining taken).map (widen keep) := by
  have hwidest (remaining : SortedSet Int) (taken : List Pattern)
      (h : xs.filter (·.bits ∉ taken.map (spread keep)) =
        (ys.filter (·.bits ∉ taken)).map (widen keep)) :
      widest? (liftRows keep remaining) (xs.filter (·.bits ∉ taken.map (spread keep))) =
        (widest? remaining (ys.filter (·.bits ∉ taken))).map (widen keep) := by
    rw [h]
    exact widest?_map_widen fun y hy => hys y (List.mem_filter.mp hy).1
  fun_induction greedy ys remaining taken with
  | case1 remaining taken hnone =>
    have hnone' := hwidest remaining taken h
    rw [hnone, Option.map_none] at hnone'
    unfold greedy
    split
    · rfl
    · rename_i x hx
      rw [hnone'] at hx
      cases hx
  | case2 remaining taken y hfound ih =>
    have hfound' := hwidest remaining taken h
    rw [hfound, Option.map_some] at hfound'
    -- one more pattern is taken on both sides
    have hfilter : xs.filter (·.bits ∉ (y.bits :: taken).map (spread keep)) =
        (ys.filter (·.bits ∉ y.bits :: taken)).map (widen keep) := by
      rw [List.map_cons, filter_not_mem_cons, filter_not_mem_cons, h, List.filter_map]
      congr 1
      apply List.filter_congr
      intro x _
      simp only [Function.comp_apply, bits_widen, ne_eq, Pattern.spread_inj]
    rw [List.map_cons, ← ih hfilter, liftRows_diff, ← minterms_widen]
    conv_lhs => unfold greedy
    split
    · rename_i hnone
      rw [hnone] at hfound'
      cases hfound'
    · rename_i x hx
      rw [hfound', Option.some.injEq] at hx
      subst hx
      rfl

/-! ## Rows over fewer places -/

/-- Two lists of rows, both ascending: those over the kept places, and all that are projected to
them. -/
structure IsLift (keep : List Bool) (rows narrow : List Int) : Prop where
  ascending : rows.Pairwise (· < ·)
  narrow_ascending : narrow.Pairwise (· < ·)
  narrow_bounds : ∀ row ∈ narrow, 0 ≤ row ∧ row < 2 ^ keep.count true
  mem_iff : ∀ row, row ∈ rows ↔ row ∈ lift keep {row | row ∈ narrow}

/-- The prime implicants that come of a list of rows. -/
def primesOf (width : Nat) (rows : List Int) : List Implicant :=
  (primes (rows.map (ofRow width))).primes

variable {rows narrow : List Int}

namespace IsLift

theorem bounds (h : IsLift keep rows narrow) {row : Int} (hrow : row ∈ rows) :
    0 ≤ row ∧ row < 2 ^ keep.length := by
  rcases Pattern.mem_lift.mp ((h.mem_iff row).mp hrow) with ⟨h0, hlt, -⟩
  exact ⟨h0, hlt⟩

theorem project_mem (h : IsLift keep rows narrow) {row : Int} (hrow : row ∈ rows) :
    (project keep row.toNat : Int) ∈ narrow :=
  (Pattern.mem_lift.mp ((h.mem_iff row).mp hrow)).2.2

theorem embed_mem (h : IsLift keep rows narrow) {row : Int} (hrow : row ∈ narrow) :
    (embed keep row.toNat : Int) ∈ rows := by
  rcases h.narrow_bounds row hrow with ⟨h0, hlt⟩
  rw [h.mem_iff, Pattern.embed_mem_lift (Pattern.toNat_lt_two_pow h0 hlt),
    Int.toNat_of_nonneg h0]
  exact hrow

theorem project_embed (h : IsLift keep rows narrow) {row : Int} (hrow : row ∈ narrow) :
    (project keep (embed keep row.toNat : Int).toNat : Int) = row := by
  rcases h.narrow_bounds row hrow with ⟨h0, hlt⟩
  rw [Int.toNat_natCast, Pattern.project_embed (Pattern.toNat_lt_two_pow h0 hlt),
    Int.toNat_of_nonneg h0]

theorem isPrimeList (h : IsLift keep rows narrow) :
    IsPrimeList keep.length (lift keep {row | row ∈ narrow}) (primesOf keep.length rows) := by
  have hset : {row | row ∈ rows} = lift keep {row | row ∈ narrow} := by
    ext row
    exact h.mem_iff row
  have hprimes := (isRound_ofRow fun _ hrow => h.bounds hrow).isPrimeList_primes
  rwa [hset] at hprimes

theorem isPrimeList_narrow (h : IsLift keep rows narrow) :
    IsPrimeList (keep.count true) {row | row ∈ narrow} (primesOf (keep.count true) narrow) :=
  (isRound_ofRow h.narrow_bounds).isPrimeList_primes

theorem exact_widen (h : IsLift keep rows narrow) {y : Implicant}
    (hy : y ∈ primesOf (keep.count true) narrow) : (widen keep y).IsExact :=
  (h.isPrimeList_narrow.exact y hy).widen (h.isPrimeList_narrow.isPrime hy).isTerm.length_eq

-- The rows of an implicant over the kept places are rows over the kept places.
theorem minterms_bounds (h : IsLift keep rows narrow) {y : Implicant}
    (hy : y ∈ primesOf (keep.count true) narrow) {row : Int} (hrow : row ∈ y.minterms) :
    0 ≤ row ∧ row < 2 ^ keep.count true :=
  h.narrow_bounds row <|
    (h.isPrimeList_narrow.isPrime hy).inside ((h.isPrimeList_narrow.exact y hy row).mp hrow)

theorem mem_primes_iff (h : IsLift keep rows narrow) {x : Implicant} :
    x ∈ primesOf keep.length rows ↔
      x ∈ (primesOf (keep.count true) narrow).map (widen keep) := by
  rw [List.mem_map]
  apply Iff.intro
  · intro hx
    rcases Pattern.isPrime_lift_iff.mp (h.isPrimeList.isPrime hx) with ⟨q, hq, hbits⟩
    rcases (h.isPrimeList_narrow.exists_iff q).mpr hq with ⟨y, hy, rfl⟩
    exact ⟨y, hy, (h.exact_widen hy).eq_of_bits (h.isPrimeList.exact x hx) hbits.symm⟩
  · intro hex
    rcases hex with ⟨y, hy, rfl⟩
    have hprime := Pattern.isPrime_lift_iff.mpr ⟨y.bits, h.isPrimeList_narrow.isPrime hy, rfl⟩
    rcases (h.isPrimeList.exists_iff _).mpr hprime with ⟨x, hx, hbits⟩
    rwa [← (h.isPrimeList.exact x hx).eq_of_bits (h.exact_widen hy) hbits]

/-- Over all places the prime implicants are those over the kept ones, widened, in some order. -/
theorem perm_primes (h : IsLift keep rows narrow) : (primesOf keep.length rows).Perm
    ((primesOf (keep.count true) narrow).map (widen keep)) := by
  have hnodup : ((primesOf (keep.count true) narrow).map (widen keep)).Nodup := by
    apply List.Nodup.of_map bits
    rw [List.map_map]
    have hspread : bits ∘ widen keep = spread keep ∘ bits := rfl
    rw [hspread, ← List.map_map]
    exact h.isPrimeList_narrow.nodup.map fun _ _ => Pattern.spread_inj.mp
  rw [List.perm_ext_iff_of_nodup h.isPrimeList.nodup.of_map hnodup]
  exact fun _ => h.mem_primes_iff

/-! ## Essential implicants -/

theorem mem_map_project (h : IsLift keep rows narrow) {row : Int} :
    row ∈ rows.map (fun row => (project keep row.toNat : Int)) ↔ row ∈ narrow := by
  rw [List.mem_map]
  apply Iff.intro
  · intro hex
    rcases hex with ⟨row, hrow, rfl⟩
    exact h.project_mem hrow
  · exact fun hrow => ⟨_, h.embed_mem hrow, h.project_embed hrow⟩

-- Each row over the kept places is first met where the dropped places have zeros, and these first
-- rows ascend with it.
theorem eraseDups_project (h : IsLift keep rows narrow) :
    (rows.map fun row => (project keep row.toNat : Int)).eraseDups = narrow := by
  have hsorted : (rows.map fun row => (project keep row.toNat : Int)).eraseDups.Pairwise
      (· < ·) := by
    refine (pairwise_eraseDups_map h.ascending).imp_of_mem ?_
    intro p q _ hq hex
    rcases hex with ⟨row, hrow, rfl, hfirst⟩
    rw [List.mem_eraseDups, h.mem_map_project] at hq
    have hlt := hfirst _ (h.embed_mem hq) (h.project_embed hq)
    rcases h.bounds hrow with ⟨h0, hbound⟩
    have hembed : row.toNat < embed keep q.toNat := by omega
    have hproject :=
      Pattern.project_lt_of_lt_embed (Pattern.toNat_lt_two_pow h0 hbound) hembed
    omega
  have hperm : (rows.map fun row => (project keep row.toNat : Int)).eraseDups.Perm narrow := by
    rw [List.perm_ext_iff_of_nodup hsorted.nodup h.narrow_ascending.nodup]
    intro row
    rw [List.mem_eraseDups, h.mem_map_project]
  exact hperm.eq_of_pairwise (fun _ _ _ _ hlt hgt => absurd hgt (Int.not_lt.mpr (Int.le_of_lt hlt)))
    hsorted h.narrow_ascending

theorem essentials_widen (h : IsLift keep rows narrow) :
    essentials (primesOf keep.length rows) rows =
      (essentials (primesOf (keep.count true) narrow) narrow).map (widen keep) := by
  have hsole : rows.filterMap (soleCover? (primesOf keep.length rows)) =
      ((rows.map fun row => (project keep row.toNat : Int)).filterMap
        (soleCover? (primesOf (keep.count true) narrow))).map (widen keep) := by
    rw [List.filterMap_map, List.map_filterMap]
    apply List.filterMap_congr
    intro row hrow
    rcases h.bounds hrow with ⟨h0, hlt⟩
    rw [soleCover?_perm h.perm_primes, soleCover?_map_widen _ h0 hlt]
    rfl
  rw [essentials, hsole, distinct_map_widen, distinct, ← go_filterMap_eraseDups,
    h.eraseDups_project]
  rfl

/-! ## Further implicants -/

-- What is not essential has a free place.
theorem dash_mem_of_untaken (h : IsLift keep rows narrow) {y : Implicant}
    (hy : y ∈ primesOf (keep.count true) narrow)
    (huntaken : y.bits ∉ (essentials (primesOf (keep.count true) narrow) narrow).map bits) :
    '-' ∈ y.bits := by
  by_contra hfree
  exact huntaken (h.isPrimeList_narrow.mem_essentials (fun _ hrow => hrow) hy
    ((h.isPrimeList_narrow.isPrime hy).isEssential hfree))

-- The prime implicants with a free place come by their ranks over the kept places and over all.
theorem untaken_widen (h : IsLift keep rows narrow) {taken : List Pattern}
    (htaken : taken = (essentials (primesOf (keep.count true) narrow) narrow).map bits) :
    (primesOf keep.length rows).filter (·.bits ∉ taken.map (spread keep)) =
      ((primesOf (keep.count true) narrow).filter (·.bits ∉ taken)).map (widen keep) := by
  have hperm := h.perm_primes.filter fun x => decide (x.bits ∉ taken.map (spread keep))
  rw [filter_map_widen] at hperm
  have hlen {y : Implicant} (hy : y ∈ primesOf (keep.count true) narrow) :
      y.bits.length = keep.count true := (h.isPrimeList_narrow.isPrime hy).isTerm.length_eq
  have hdash {y : Implicant} (hy : y ∈ primesOf (keep.count true) narrow)
      (huntaken : y.bits ∉ taken) : '-' ∈ y.bits := h.dash_mem_of_untaken hy (htaken ▸ huntaken)
  have hsorted : ((primesOf keep.length rows).filter
      (·.bits ∉ taken.map (spread keep))).Pairwise fun x y => x.bits.rank < y.bits.rank := by
    have hround := isSortedRound_ofRow (fun _ hrow => h.bounds hrow) h.ascending
    refine (hround.pairwise_primes.filter _).imp_of_mem ?_
    intro x x' hx _ hrank
    rcases List.mem_map.mp (hperm.mem_iff.mp hx) with ⟨y, hy, rfl⟩
    rw [List.mem_filter, decide_eq_true_eq] at hy
    have hpos := Pattern.free_pos_iff.mpr (hdash hy.1 hy.2)
    apply hrank
    rw [bits_widen, ← Pattern.free_pos_iff, Pattern.free_spread (hlen hy.1)]
    omega
  have hnarrow : (((primesOf (keep.count true) narrow).filter (·.bits ∉ taken)).map
      (widen keep)).Pairwise fun x y => x.bits.rank < y.bits.rank := by
    have hround := isSortedRound_ofRow h.narrow_bounds h.narrow_ascending
    rw [List.pairwise_map]
    refine (hround.pairwise_primes.filter _).imp_of_mem ?_
    intro y y' hy hy' hrank
    rw [List.mem_filter, decide_eq_true_eq] at hy hy'
    exact Pattern.rank_spread_lt (hlen hy.1) (hlen hy'.1) (hrank (hdash hy.1 hy.2))
  exact hperm.eq_of_pairwise (fun _ _ _ _ hxy hyx => absurd hyx (lt_asymm hxy)) hsorted hnarrow

theorem coveredBy_map_widen (xs : List Implicant) :
    coveredBy (xs.map (widen keep)) = liftRows keep (coveredBy xs) := by
  apply SortedSet.ext
  intro row
  rw [mem_coveredBy, mem_liftRows, Pattern.mem_lift]
  simp only [List.mem_map, exists_exists_and_eq_and, minterms_widen, mem_liftRows,
    Pattern.mem_lift, Set.mem_ofPred, mem_coveredBy]
  apply Iff.intro
  · intro hex
    rcases hex with ⟨x, hx, h0, hlt, hrow⟩
    exact ⟨h0, hlt, x, hx, hrow⟩
  · intro hex
    rcases hex with ⟨h0, hlt, x, hx, hrow⟩
    exact ⟨x, hx, h0, hlt, hrow⟩

theorem ofList_rows (h : IsLift keep rows narrow) :
    SortedSet.ofList rows = liftRows keep (SortedSet.ofList narrow) := by
  apply SortedSet.ext
  intro row
  rw [SortedSet.mem_ofList, h.mem_iff, mem_liftRows]
  simp only [Pattern.mem_lift, Set.mem_ofPred, SortedSet.mem_ofList]

/-- The choice over all places is the choice over the kept ones, widened. -/
theorem selected_chooseCover (h : IsLift keep rows narrow) :
    (chooseCover (primesOf keep.length rows) rows).selected =
      (chooseCover (primesOf (keep.count true) narrow) narrow).selected.map (widen keep) := by
  have hbits (xs : List Implicant) :
      (xs.map (widen keep)).map bits = (xs.map bits).map (spread keep) := by
    rw [List.map_map, List.map_map]
    rfl
  have hselected (xs : List Implicant) (rows : List Int) : (chooseCover xs rows).selected =
      essentials xs rows ++ greedy xs (SortedSet.ofList rows \ coveredBy (essentials xs rows))
        ((essentials xs rows).map bits) := rfl
  rw [hselected, hselected, h.essentials_widen, coveredBy_map_widen, h.ofList_rows,
    ← liftRows_diff, hbits, greedy_widen (fun y hy row hrow => h.minterms_bounds hy hrow)
      (h.untaken_widen rfl), List.map_append]

end IsLift

end Implicant

/-! ## Tables over fewer variables -/

namespace TruthTable

-- Each value is that in the row of the kept variables.
theorem isLift_trueRows {keep : List Bool} {table narrow : List Bool}
    (hlen : table.length = 2 ^ keep.length) (hnarrow : narrow.length = 2 ^ keep.count true)
    (h : ∀ n < 2 ^ keep.length, table[n]? = narrow[Pattern.project keep n]?) :
    Implicant.IsLift keep ((trueRows table).map Int.ofNat) ((trueRows narrow).map Int.ofNat) := by
  have hascending (table : List Bool) :
      ((trueRows table).map Int.ofNat).Pairwise (· < ·) :=
    (pairwise_trueRows table).map Int.ofNat fun _ _ hlt => Int.ofNat_lt.mpr hlt
  have hbounds (row : Int) (hrow : row ∈ (trueRows narrow).map Int.ofNat) :
      0 ≤ row ∧ row < 2 ^ keep.count true :=
    bounds_of_mem_onSet hnarrow (mem_map_trueRows_iff.mp hrow)
  refine ⟨hascending table, hascending narrow, hbounds, ?_⟩
  intro row
  have hset : {row | row ∈ (trueRows narrow).map Int.ofNat} = onSet narrow := by
    ext row
    exact mem_map_trueRows_iff
  rw [mem_map_trueRows_iff, hset]
  have hcast := Pattern.natCast_two_pow keep.length
  apply Iff.intro
  · intro hrow
    rcases bounds_of_mem_onSet hlen hrow with ⟨h0, hlt⟩
    rcases hrow with ⟨n, rfl, hn⟩
    rw [Pattern.natCast_mem_lift (by omega)]
    exact ⟨_, rfl, (h n (by omega)).symm.trans hn⟩
  · intro hrow
    rcases Pattern.mem_lift.mp hrow with ⟨h0, hlt, m, hm, htrue⟩
    rw [Int.natCast_inj] at hm
    refine ⟨row.toNat, Int.toNat_of_nonneg h0, ?_⟩
    rw [h _ (by omega), ← hm]
    exact htrue

end TruthTable

namespace Minimisation

open Implicant (IsLift primesOf chooseCover widen)

variable {keep : List Bool} {names narrowNames : List String} {rows narrow : List Nat}

theorem selected_ofRows (names : List String) (rows : List Nat) :
    (ofRows names rows).selected =
      if (primesOf names.length (rows.map Int.ofNat)).length = 1
      then primesOf names.length (rows.map Int.ofNat)
      else (chooseCover (primesOf names.length (rows.map Int.ofNat))
        (rows.map Int.ofNat)).selected := by
  unfold ofRows primesOf
  simp only [selected]
  split <;> rfl

/-- Dropping variables that a function does not depend on narrows what is selected for it, and keeps
it in the same order. -/
theorem selected_widen (hnames : names.length = keep.length)
    (hnarrow : narrowNames.length = keep.count true)
    (h : IsLift keep (rows.map Int.ofNat) (narrow.map Int.ofNat)) :
    (ofRows names rows).selected = (ofRows narrowNames narrow).selected.map (widen keep) := by
  have hlen := h.perm_primes.length_eq
  rw [List.length_map] at hlen
  rw [selected_ofRows, selected_ofRows, hnames, hnarrow, hlen]
  split
  · rename_i hone
    rcases List.length_eq_one_iff.mp hone with ⟨y, hy⟩
    have hperm := h.perm_primes
    rw [hy, List.map_singleton, List.perm_singleton] at hperm
    rw [hy, hperm, List.map_singleton]
  · exact h.selected_chooseCover

end Minimisation

end TwoLevel
