import Mathlib.Order.Bounds.Basic
import TwoLevel.Proofs.Rounds

/-!
# The rounds of a list of rows

Each round frees one place more than the one before it, and rounds go on as long as the set has an
implicant that is free enough.  In a round the implicants come by their ones, then by the least rows
of their cubes, and then by their free places, counted from the last one.  Main statement: which
rounds there are for ascending rows, and what they list in which order
(`primesOfRows?_isCanonicalRound`).
-/

namespace TwoLevel

namespace Pattern

/-- The free places in ascending order, counted from the last place. -/
def freePlaces (p : Pattern) : List Nat := p.reverse.idxsOf '-'

/-- Comes before by the ones, then by the least row of the cube, then by the free places. -/
def Precedes (p q : Pattern) : Prop :=
  p.ones < q.ones ∨ p.ones = q.ones ∧ ∃ row row' : Int, IsLeast p.cube row ∧ IsLeast q.cube row' ∧
    (row < row' ∨ row = row' ∧ p.freePlaces < q.freePlaces)

/-! ## Least rows -/

theorem least_le_of_admits {p ds : Pattern} (h : p.Admits ds) : least p ≤ least ds := by
  induction h with
  | nil => exact Nat.le_refl _
  | @cons c d p ds hcd hadmits ih =>
    have hlen : p.length = ds.length := hadmits.length_eq
    rw [least, least, hlen]
    rcases hcd with rfl | rfl
    · rw [if_neg (by decide)]
      omega
    · omega

theorem IsTerm.isLeast_cube {width : Nat} {p : Pattern} (h : IsTerm width p) :
    IsLeast p.cube (p.least : Int) := by
  apply And.intro
  · rw [natCast_mem_cube rfl (least_lt p), lowBits_least]
    show List.Forall₂ _ p _
    rw [List.forall₂_map_right_iff, List.forall₂_same]
    intro c hc
    rcases h.places c hc with rfl | rfl | rfl <;> decide
  · intro row hrow
    rcases mem_cube.mp hrow with ⟨h0, hlt, hadmits⟩
    have hle := least_le_of_admits hadmits
    rw [least_lowBits (toNat_lt_two_pow h0 hlt)] at hle
    omega

/-! ## Free places -/

theorem mask_concat (p : Pattern) (c : Char) :
    mask (p ++ [c]) = mask p + if c = '-' then 0 else 2 ^ p.length := by
  induction p with
  | nil =>
    show (if c = '-' then 0 else 1) + 2 * 0 = 0 + if c = '-' then 0 else 1
    omega
  | cons d p ih =>
    rw [List.cons_append, mask, mask, ih, List.length_cons, Nat.pow_succ]
    split_ifs <;> omega

theorem mask_lt (p : Pattern) : mask p < 2 ^ p.length := by
  induction p with
  | nil => decide
  | cons c p ih =>
    rw [mask, List.length_cons, Nat.pow_succ]
    split <;> omega

theorem free_concat (p : Pattern) (c : Char) :
    free (p ++ [c]) = free p + if c = '-' then 1 else 0 := by
  unfold free
  rw [List.count_append, List.count_singleton]
  simp only [beq_iff_eq]

theorem exists_idxsOf_eq_cons {p : Pattern} (h : 0 < p.free) (start : Nat) :
    ∃ i is, p.reverse.idxsOf '-' start = i :: is ∧ start ≤ i := by
  cases hidxs : p.reverse.idxsOf '-' start with
  | nil =>
    have hcount : p.free = (p.reverse.idxsOf '-' start).length := by
      rw [List.length_idxsOf, List.count_reverse, free]
    rw [hidxs, List.length_nil] at hcount
    omega
  | cons i is =>
    have hmem : i ∈ p.reverse.idxsOf '-' start := hidxs ▸ List.mem_cons_self
    exact ⟨i, is, rfl, List.ge_of_mem_idxsOf i hmem⟩

-- Of the places that only one of the patterns has free, the last one decides on the masks, and on
-- the free places, where it is the first to be counted.
theorem idxsOf_reverse_lt {p q : Pattern} (hlen : p.length = q.length) (hfree : p.free = q.free)
    (h : mask p < mask q) (start : Nat) :
    p.reverse.idxsOf '-' start < q.reverse.idxsOf '-' start := by
  induction p using List.reverseRecOn generalizing q start with
  | nil =>
    rw [List.length_nil, eq_comm, List.length_eq_zero_iff] at hlen
    rw [hlen] at h
    exact absurd h (Nat.lt_irrefl _)
  | append_singleton p c ih =>
    rcases List.eq_nil_or_concat q with rfl | ⟨q, d, rfl⟩
    · rw [List.length_append] at hlen
      cases hlen
    · rw [List.concat_eq_append] at hlen hfree h ⊢
      rw [List.length_append, List.length_append, List.length_singleton, List.length_singleton,
        Nat.add_right_cancel_iff] at hlen
      rw [free_concat, free_concat] at hfree
      rw [mask_concat, mask_concat, hlen] at h
      rw [List.reverse_concat, List.reverse_concat, List.idxsOf_cons, List.idxsOf_cons]
      simp only [beq_iff_eq]
      by_cases hc : c = '-'
      · by_cases hd : d = '-'
        · rw [if_pos hc, if_pos hd] at hfree h ⊢
          rw [List.cons_lt_cons_self]
          exact ih hlen (by omega) (by omega) (start + 1)
        · rw [if_pos hc, if_neg hd] at hfree h ⊢
          rcases exists_idxsOf_eq_cons (p := q) (by omega) (start + 1) with ⟨i, is, hidxs, hi⟩
          rw [hidxs]
          exact List.cons_lt_cons_iff.mpr (.inl hi)
      · by_cases hd : d = '-'
        · rw [if_neg hc, if_pos hd] at h
          have hlt := mask_lt q
          omega
        · rw [if_neg hc, if_neg hd] at hfree h ⊢
          exact ih hlen (by omega) (by omega) (start + 1)

theorem precedes_of_order_lt {width : Nat} {p q : Pattern} (hp : IsTerm width p)
    (hq : IsTerm width q) (hfree : p.free = q.free) (h : p.order < q.order) : p.Precedes q := by
  rcases order_lt_iff.mp h with hones | ⟨hones, hplace⟩
  · exact .inl hones
  · refine .inr ⟨hones, _, _, hp.isLeast_cube, hq.isLeast_cube, ?_⟩
    rcases place_lt_iff.mp hplace with hleast | ⟨hleast, hmask⟩
    · exact .inl (Int.ofNat_lt.mpr hleast)
    · have hlen := hp.length_eq.trans hq.length_eq.symm
      exact .inr ⟨congrArg Nat.cast hleast, idxsOf_reverse_lt hlen hfree hmask 0⟩

end Pattern

namespace Implicant

open Pattern (IsImplicant)

/-- The implicants of a set that have a number of free places, each once and with the rows of its
cube, in their order. -/
structure IsCanonicalRound (width : Nat) (on : Set Int) (free : Nat) (xs : List Implicant) :
    Prop where
  nodup : (xs.map bits).Nodup
  mem_iff : ∀ p, p ∈ xs.map bits ↔ IsImplicant width on p ∧ p.free = free
  exact : ∀ x ∈ xs, ∀ row, row ∈ x.minterms ↔ row ∈ x.bits.cube
  sorted : xs.Pairwise fun x y => x.bits.Precedes y.bits

variable {width n : Nat} {on : Set Int} {xs : List Implicant}

theorem IsSortedRound.isCanonicalRound (h : IsSortedRound width on n xs) {free : Nat}
    (hpos : 0 < free) (hn : n + free = width) : IsCanonicalRound width on free xs := by
  have hfixed {p : Pattern} (hp : IsImplicant width on p) : p.fixed = n ↔ p.free = free := by
    have hsum := Pattern.free_add_fixed p
    rw [hp.isTerm.length_eq] at hsum
    omega
  have hmem (p : Pattern) : p ∈ xs.map bits ↔ IsImplicant width on p ∧ p.free = free := by
    rw [List.mem_map, h.exists_iff]
    exact and_congr_right hfixed
  have horder : xs.Pairwise fun x y => x.bits.order < y.bits.order :=
    h.sorted.imp fun horder => horder (.inl (by omega))
  refine ⟨?_, hmem, h.exact, ?_⟩
  · rw [List.Nodup, List.pairwise_map]
    exact horder.imp fun hlt heq => absurd (congrArg Pattern.order heq) (ne_of_lt hlt)
  · refine horder.imp_of_mem ?_
    intro x y hx hy hlt
    rcases (hmem x.bits).mp (List.mem_map_of_mem hx) with ⟨hximp, hxfree⟩
    rcases (hmem y.bits).mp (List.mem_map_of_mem hy) with ⟨hyimp, hyfree⟩
    exact Pattern.precedes_of_order_lt hximp.isTerm hyimp.isTerm (hxfree.trans hyfree.symm) hlt

/-! ## All rounds -/

theorem rounds_eq (xs : List Implicant) :
    (primes xs).rounds = if (pass xs).combined = [] then []
      else (pass xs).combined :: (primes (pass xs).combined).rounds := by
  unfold primes
  dsimp only
  rw [passes]
  split
  · rename_i hnil
    rw [List.map_singleton, List.filter_cons_of_neg (by simpa using hnil), List.filter_nil]
  · rename_i hne
    rw [List.map_cons, List.filter_cons_of_pos (by simpa using hne)]

theorem IsSortedRound.of_rounds_eq_cons (h : IsSortedRound width on n xs)
    {round : List Implicant} {rest : List (List Implicant)}
    (hrounds : (primes xs).rounds = round :: rest) :
    ∃ m, m + 1 = n ∧ round ≠ [] ∧ IsSortedRound width on m round ∧
      (primes round).rounds = rest := by
  rw [rounds_eq] at hrounds
  split at hrounds
  · cases hrounds
  · rename_i hne
    rw [List.cons.injEq] at hrounds
    rcases hrounds with ⟨rfl, hrest⟩
    have hpos := h.pos_of_combined_ne_nil hne
    rcases ⟨n - 1, by omega⟩ with ⟨m, rfl⟩ : ∃ m, n = m + 1
    exact ⟨m, rfl, hne, h.combined, hrest⟩

-- Each round fixes one place fewer than the one before it.
theorem IsSortedRound.of_getElem?_rounds (h : IsSortedRound width on n xs) {k : Nat}
    {round : List Implicant} (hround : (primes xs).rounds[k]? = some round) :
    ∃ m, m + (k + 1) = n ∧ round ≠ [] ∧ IsSortedRound width on m round := by
  induction hrounds : (primes xs).rounds generalizing n xs k with
  | nil =>
    rw [hrounds] at hround
    cases hround
  | cons first rest ih =>
    rcases h.of_rounds_eq_cons hrounds with ⟨m, rfl, hne, hfirst, hrest⟩
    rw [hrounds] at hround
    cases k with
    | zero =>
      rw [List.getElem?_cons_zero, Option.some.injEq] at hround
      subst hround
      exact ⟨m, rfl, hne, hfirst⟩
    | succ k =>
      rw [List.getElem?_cons_succ, ← hrest] at hround
      rcases ih hfirst hround hrest with ⟨l, hl, hround⟩
      exact ⟨l, by omega, hround⟩

-- Rounds do not end while there are implicants that fix fewer places.
theorem IsRound.le_fixed_add_length_rounds (h : IsRound width on n xs) {p : Pattern}
    (hp : IsImplicant width on p) (hle : p.fixed ≤ n) :
    n ≤ p.fixed + (primes xs).rounds.length := by
  induction n generalizing xs with
  | zero => exact Nat.zero_le _
  | succ n ih =>
    rw [rounds_eq]
    by_cases hnil : (pass xs).combined = []
    · have hfixed := h.fixed_eq_of_combined_eq_nil hnil hp hle
      omega
    · rw [if_neg hnil, List.length_cons]
      by_cases hfixed : p.fixed = n + 1
      · omega
      · have hrest := ih h.combined (by omega)
        omega

theorem primesOfRows?_natCast (width : Nat) (rows : List Int) :
    primesOfRows? width rows = .ok (primes (rows.map (ofRow width))) := by
  have hwidth : ¬(width : Int) < 0 := Int.not_lt.mpr (Int.natCast_nonneg width)
  have hstart : ofRow? (width : Int) = fun row => pure (ofRow width row) := by
    funext row
    rw [ofRow?, if_neg hwidth, Int.toNat_natCast]
    rfl
  rw [primesOfRows?, hstart, List.mapM_pure]
  rfl

/-- Rounds list the implicants with one free place, with two and so on, as far as there are any. -/
theorem primesOfRows?_isCanonicalRound (width : Nat) (rows : List Int)
    (hrows : ∀ row ∈ rows, 0 ≤ row ∧ row < 2 ^ width) (hascending : rows.Pairwise (· < ·)) :
    ∃ found, primesOfRows? width rows = .ok found ∧
      (∀ k round, found.rounds[k]? = some round →
        IsCanonicalRound width {row | row ∈ rows} (k + 1) round) ∧
      IsGreatest {k | k = 0 ∨ ∃ p, IsImplicant width {row | row ∈ rows} p ∧ p.free = k}
        found.rounds.length := by
  have hstart := isSortedRound_ofRow hrows hascending
  have hcanonical {k : Nat} {round : List Implicant}
      (hround : (primes (rows.map (ofRow width))).rounds[k]? = some round) :
      round ≠ [] ∧ IsCanonicalRound width {row | row ∈ rows} (k + 1) round := by
    rcases hstart.of_getElem?_rounds hround with ⟨m, hm, hne, hsorted⟩
    exact ⟨hne, hsorted.isCanonicalRound (Nat.succ_pos k) hm⟩
  refine ⟨_, primesOfRows?_natCast width rows, fun k round hround => (hcanonical hround).2, ?_, ?_⟩
  · -- the last round has implicants of its number
    cases hlen : (primes (rows.map (ofRow width))).rounds.length with
    | zero => exact .inl rfl
    | succ k =>
      have hlast := List.getElem?_eq_getElem (l := (primes (rows.map (ofRow width))).rounds)
        (i := k) (by omega)
      rcases hcanonical hlast with ⟨hne, hround⟩
      rcases List.exists_mem_of_ne_nil _ hne with ⟨x, hx⟩
      exact .inr ⟨x.bits, (hround.mem_iff x.bits).mp (List.mem_map_of_mem hx)⟩
  · rintro k (rfl | ⟨p, himp, rfl⟩)
    · exact Nat.zero_le _
    · have hsum := Pattern.free_add_fixed p
      have hlength := himp.isTerm.length_eq
      have hle := hstart.le_fixed_add_length_rounds himp (by omega)
      omega

-- Two rounds; the implicants of the first come by ones, by least rows and by free places.
theorem primesOfRows?_isCanonicalRound_two :
    ∃ found, primesOfRows? 3 [0, 1, 2, 3, 4, 6] = .ok found ∧
      ∀ k round, found.rounds[k]? = some round →
        IsCanonicalRound 3 {row | row ∈ [0, 1, 2, 3, 4, 6]} (k + 1) round := by
  rcases primesOfRows?_isCanonicalRound 3 [0, 1, 2, 3, 4, 6] (by decide) (by decide) with
    ⟨found, hok, hrounds, -⟩
  exact ⟨found, hok, hrounds⟩

end Implicant

end TwoLevel
