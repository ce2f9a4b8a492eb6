import Mathlib.Data.List.Nodup
import TwoLevel.Implicant.Prime
import TwoLevel.Proofs.Combination
import TwoLevel.Proofs.Cube

/-!
# Prime implicants

An implicant of a set of rows is a cube inside the set, and it is prime if none of its fixed places
can be freed.  The invariant of a round is that its list has all the implicants that fix one number
of places, each with exactly the rows of its cube.  Main statement: the prime implicants that come
of the rows of a set are those of the set, each once (`primesOfRows?_eq_ok`).
-/

namespace TwoLevel

namespace Pattern

/-! ## Implicants of a set of rows -/

/-- A cube inside a set of rows. -/
structure IsImplicant (width : Nat) (on : Set Int) (p : Pattern) : Prop where
  isTerm : IsTerm width p
  inside : p.cube ⊆ on

/-- An implicant that leaves the set when any one of its fixed places is freed. -/
structure IsPrime (width : Nat) (on : Set Int) (p : Pattern) : Prop
    extends IsImplicant width on p where
  maximal : ∀ (i : Nat) (hi : i < p.length), p[i] ≠ '-' → ¬cube (p.set i '-') ⊆ on

variable {width : Nat} {on : Set Int}

theorem isImplicant_of_mem {row : Int} (hrow : row ∈ on) (h0 : 0 ≤ row) (hlt : row < 2 ^ width) :
    IsImplicant width on (lowBits width row.toNat) := by
  have hinside : (lowBits width row.toNat).cube ⊆ on := by
    rw [cube_lowBits_toNat h0 hlt]
    exact Set.singleton_subset_iff.mpr hrow
  exact ⟨isTerm_lowBits width _, hinside⟩

theorem isImplicant_free_iff {l r : Pattern} :
    IsImplicant width on (l ++ '-' :: r) ↔
      IsImplicant width on (l ++ '0' :: r) ∧ IsImplicant width on (l ++ '1' :: r) := by
  apply Iff.intro
  · intro h
    have hinside := h.inside
    rw [cube_free, Set.union_subset_iff] at hinside
    exact ⟨⟨h.isTerm.replace (.inl rfl), hinside.1⟩,
      ⟨h.isTerm.replace (.inr (.inl rfl)), hinside.2⟩⟩
  · intro hboth
    rcases hboth with ⟨h0, h1⟩
    have hinside : cube (l ++ '-' :: r) ⊆ on := by
      rw [cube_free]
      exact Set.union_subset h0.inside h1.inside
    exact ⟨h0.isTerm.replace (.inr (.inr rfl)), hinside⟩

-- The place to free as a split of the pattern, in which merges show it, in place of its index.
theorem isPrime_iff {p : Pattern} :
    IsPrime width on p ↔ IsImplicant width on p ∧
      ∀ l c r, p = l ++ c :: r → c ≠ '-' → ¬IsImplicant width on (l ++ '-' :: r) := by
  apply Iff.intro
  · intro h
    refine ⟨h.toIsImplicant, ?_⟩
    intro l c r hp hc himp
    subst hp
    have hset : (l ++ c :: r).set l.length '-' = l ++ '-' :: r := by simp
    have hmax := h.maximal l.length (by simp) (by simpa using hc)
    rw [hset] at hmax
    exact hmax himp.inside
  · intro hboth
    rcases hboth with ⟨himp, hmax⟩
    refine ⟨himp, ?_⟩
    intro i hi hc hinside
    have hsplit : p = p.take i ++ p[i] :: p.drop (i + 1) := by simp
    rw [List.set_eq_take_append_cons_drop, if_pos hi] at hinside
    have hterm := himp.isTerm
    rw [hsplit] at hterm
    exact hmax _ _ _ hsplit hc ⟨hterm.replace (.inr (.inr rfl)), hinside⟩

/-- Every implicant is admitted by a prime one. -/
theorem IsImplicant.exists_isPrime {p : Pattern} (h : IsImplicant width on p) :
    ∃ q, IsPrime width on q ∧ q.Admits p := by
  -- freeing a place fixes one place fewer, so it comes to an end
  induction hn : p.fixed using Nat.strong_induction_on generalizing p with
  | h n ih =>
    by_cases hprime : IsPrime width on p
    · exact ⟨p, hprime, Admits.refl p⟩
    · have hfree : ∃ l c r, p = l ++ c :: r ∧ c ≠ '-' ∧ IsImplicant width on (l ++ '-' :: r) := by
        by_contra hnone
        push Not at hnone
        exact hprime (isPrime_iff.mpr ⟨h, hnone⟩)
      rcases hfree with ⟨l, c, r, rfl, hc, himp⟩
      have hfixed := fixed_free_add_one l r hc
      rcases ih _ (by omega) himp rfl with ⟨q, hq, hadmits⟩
      exact ⟨q, hq, hadmits.trans (admits_free l r c)⟩

theorem exists_dash_of_fixed_lt {p : Pattern} (h : p.fixed < p.length) :
    ∃ l r, p = l ++ '-' :: r := by
  have hmem : '-' ∈ p := by
    by_contra hnone
    have hall : p.fixed = p.length :=
      List.countP_eq_length.mpr fun c hc => by
        have hne : c ≠ '-' := fun e => hnone (e ▸ hc)
        simpa using hne
    omega
  rcases List.append_of_mem hmem with ⟨l, r, hsplit⟩
  exact ⟨l, r, hsplit⟩

-- Places can be fixed one after another without leaving the set.
theorem IsImplicant.exists_fixed_eq {p : Pattern} (h : IsImplicant width on p) {n : Nat}
    (hn : p.fixed ≤ n) (hw : n ≤ width) : ∃ q, IsImplicant width on q ∧ q.fixed = n := by
  induction n, hn using Nat.le_induction with
  | base => exact ⟨p, h, rfl⟩
  | succ n _ ih =>
    rcases ih (by omega) with ⟨q, hq, hqn⟩
    have hlen := hq.isTerm.length_eq
    rcases exists_dash_of_fixed_lt (p := q) (by omega) with ⟨l, r, rfl⟩
    have hfixed : fixed (l ++ '-' :: r) + 1 = fixed (l ++ '0' :: r) :=
      fixed_free_add_one l r (by decide)
    exact ⟨l ++ '0' :: r, (isImplicant_free_iff.mp hq).1, by omega⟩

end Pattern

namespace Implicant

open Pattern (IsImplicant IsPrime IsTerm)

/-! ## Rounds -/

/-- The minterms are the rows of the pattern's cube. -/
def IsExact (x : Implicant) : Prop := ∀ row, row ∈ x.minterms ↔ row ∈ x.bits.cube

/-- A list has all the implicants of a set that fix a number of places. -/
structure IsRound (width : Nat) (on : Set Int) (n : Nat) (xs : List Implicant) : Prop where
  le_width : n ≤ width
  exists_iff : ∀ p, (∃ x ∈ xs, x.bits = p) ↔ IsImplicant width on p ∧ p.fixed = n
  exact : ∀ x ∈ xs, IsExact x

variable {width n : Nat} {on : Set Int} {xs : List Implicant}

namespace IsRound

theorem isImplicant (h : IsRound width on n xs) {x : Implicant} (hx : x ∈ xs) :
    IsImplicant width on x.bits := ((h.exists_iff x.bits).mp ⟨x, hx, rfl⟩).1

theorem fixed_eq (h : IsRound width on n xs) {x : Implicant} (hx : x ∈ xs) :
    x.bits.fixed = n := ((h.exists_iff x.bits).mp ⟨x, hx, rfl⟩).2

theorem of_merge (h : IsRound width on n xs) {m : Merge} (hm : m ∈ merges xs) :
    ∃ l r, m.lower.bits = l ++ '0' :: r ∧ m.upper.bits = l ++ '1' :: r ∧
      m.merged.bits = l ++ '-' :: r ∧ IsImplicant width on (l ++ '-' :: r) ∧
      IsExact m.merged := by
  rcases mem_merges.mp hm with ⟨hl, hu, hones, hcombine⟩
  rcases Option.map_eq_some_iff.mp hcombine with ⟨bits, hbits, hmerged⟩
  have himpl := h.isImplicant hl
  have himpu := h.isImplicant hu
  rcases (Pattern.merge?_eq_some_iff himpl.isTerm himpu.isTerm hones).mp hbits with
    ⟨l, r, hlb, hub, rfl⟩
  rw [hlb] at himpl
  rw [hub] at himpu
  have himp := Pattern.isImplicant_free_iff.mpr ⟨himpl, himpu⟩
  -- the minterms of both parents, whose cubes make up the cube of the merge
  have hexact : IsExact m.merged := by
    intro row
    rw [← hmerged, SortedSet.mem_union, h.exact _ hl, h.exact _ hu, hlb, hub, Pattern.cube_free]
    exact Iff.rfl
  exact ⟨l, r, hlb, hub, by rw [← hmerged], himp, hexact⟩

-- A cube inside the set that frees one place more is a merge of the round.
theorem exists_merge (h : IsRound width on n xs) {l r : Pattern}
    (himp : IsImplicant width on (l ++ '-' :: r)) (hn : (l ++ '-' :: r).fixed + 1 = n) :
    ∃ m ∈ merges xs, m.lower.bits = l ++ '0' :: r ∧ m.upper.bits = l ++ '1' :: r ∧
      m.merged.bits = l ++ '-' :: r := by
  rcases Pattern.isImplicant_free_iff.mp himp with ⟨himp0, himp1⟩
  have hfixed0 : (l ++ '0' :: r).fixed = n := by
    rw [← Pattern.fixed_free_add_one l r (by decide), hn]
  have hfixed1 : (l ++ '1' :: r).fixed = n := by
    rw [← Pattern.fixed_free_add_one l r (by decide), hn]
  rcases (h.exists_iff _).mpr ⟨himp0, hfixed0⟩ with ⟨x, hx, hxb⟩
  rcases (h.exists_iff _).mpr ⟨himp1, hfixed1⟩ with ⟨y, hy, hyb⟩
  have hones : y.ones = x.ones + 1 := by
    show y.bits.ones = x.bits.ones + 1
    rw [hxb, hyb, Pattern.ones_split, Pattern.ones_split, if_pos rfl, if_neg (by decide)]
  have hmerge : x.bits.merge? y.bits = some (l ++ '-' :: r) := by
    rw [hxb, hyb]
    exact Pattern.merge?_split l r (by decide) (by decide) (by decide)
  have hcombine : x.combine? y = some ⟨l ++ '-' :: r, x.minterms ∪ y.minterms⟩ := by
    rw [combine?, hmerge, Option.map_some]
  exact ⟨⟨x, y, _⟩, mem_merges.mpr ⟨hx, hy, hones, hcombine⟩, hxb, hyb, rfl⟩

/-- What a pass combines is the round that frees one place more. -/
theorem combined (h : IsRound width on (n + 1) xs) : IsRound width on n (pass xs).combined := by
  have hw := h.le_width
  apply IsRound.mk
  · omega
  · intro p
    rw [exists_combined_iff]
    apply Iff.intro
    · intro hex
      rcases hex with ⟨m, hm, rfl⟩
      rcases h.of_merge hm with ⟨l, r, hl, -, hmerged, himp, -⟩
      have hfixed := h.fixed_eq (mem_merges.mp hm).1
      rw [hl, ← Pattern.fixed_free_add_one l r (by decide)] at hfixed
      rw [hmerged]
      exact ⟨himp, by omega⟩
    · intro hboth
      rcases hboth with ⟨himp, hfixed⟩
      have hlen := himp.isTerm.length_eq
      rcases Pattern.exists_dash_of_fixed_lt (p := p) (by omega) with ⟨l, r, rfl⟩
      rcases h.exists_merge himp (by omega) with ⟨m, hm, -, -, hmerged⟩
      exact ⟨m, hm, hmerged⟩
  · intro z hz row
    -- all merges of one pattern have the rows of its cube, so their union has no others
    rw [mem_minterms_combined_iff hz]
    apply Iff.intro
    · intro hex
      rcases hex with ⟨m, hm, hbits, hrow⟩
      rcases h.of_merge hm with ⟨-, -, -, -, -, -, hexact⟩
      rw [← hbits]
      exact (hexact row).mp hrow
    · intro hrow
      rcases exists_combined_iff.mp ⟨z, hz, rfl⟩ with ⟨m, hm, hbits⟩
      rcases h.of_merge hm with ⟨-, -, -, -, -, -, hexact⟩
      rw [← hbits] at hrow
      exact ⟨m, hm, hbits, (hexact row).mpr hrow⟩

-- What takes part in no merge of a round is prime.
theorem mem_leftovers_iff (h : IsRound width on n xs) {x : Implicant} (hx : x ∈ xs) :
    x ∈ (pass xs).leftovers ↔ IsPrime width on x.bits := by
  rw [Implicant.mem_leftovers_iff, Pattern.isPrime_iff]
  apply Iff.intro
  · intro hboth
    rcases hboth with ⟨-, hunused⟩
    refine ⟨h.isImplicant hx, ?_⟩
    -- freeing a place inside the set would be a merge of the round, with `x` as a parent
    intro l c r hsplit hc himp
    have hfixed := h.fixed_eq hx
    rw [hsplit, ← Pattern.fixed_free_add_one l r hc] at hfixed
    rcases h.exists_merge himp hfixed with ⟨m, hm, hlower, hupper, -⟩
    have hplaces := (h.isImplicant hx).isTerm.places c (by rw [hsplit]; simp)
    rcases hplaces with rfl | rfl | rfl
    · exact (hunused m hm).1 (hlower.trans hsplit.symm)
    · exact (hunused m hm).2 (hupper.trans hsplit.symm)
    · exact hc rfl
  · intro hboth
    rcases hboth with ⟨-, hmax⟩
    refine ⟨hx, ?_⟩
    intro m hm
    rcases h.of_merge hm with ⟨l, r, hlower, hupper, -, himp, -⟩
    apply And.intro
    · intro hbits
      exact hmax l '0' r (hbits.symm.trans hlower) (by decide) himp
    · intro hbits
      exact hmax l '1' r (hbits.symm.trans hupper) (by decide) himp

theorem exists_leftover_iff (h : IsRound width on n xs) {p : Pattern} :
    (∃ x ∈ (pass xs).leftovers, x.bits = p) ↔ IsPrime width on p ∧ p.fixed = n := by
  apply Iff.intro
  · intro hex
    rcases hex with ⟨x, hx, rfl⟩
    have hmem := (Implicant.mem_leftovers_iff.mp hx).1
    exact ⟨(h.mem_leftovers_iff hmem).mp hx, h.fixed_eq hmem⟩
  · intro hboth
    rcases hboth with ⟨hprime, hfixed⟩
    rcases (h.exists_iff p).mpr ⟨hprime.toIsImplicant, hfixed⟩ with ⟨x, hx, rfl⟩
    exact ⟨x, (h.mem_leftovers_iff hx).mpr hprime, rfl⟩

/-! ## All passes -/

-- Each pass goes down one round, so the passes reach every prime implicant that fixes at most as
-- many places as the first round does.

theorem pos_of_combined_ne_nil (h : IsRound width on n xs) (hne : (pass xs).combined ≠ []) :
    0 < n := by
  rcases List.exists_mem_of_ne_nil _ hne with ⟨z, hz⟩
  rcases exists_fixed_of_mem_combined hz with ⟨x, hx, hfixed⟩
  have hn := h.fixed_eq hx
  omega

-- When nothing combines, no implicant of the set fixes fewer places.
theorem fixed_eq_of_combined_eq_nil (h : IsRound width on n xs) (hnil : (pass xs).combined = [])
    {p : Pattern} (hp : IsImplicant width on p) (hle : p.fixed ≤ n) : p.fixed = n := by
  by_contra hne
  rcases ⟨n - 1, by omega⟩ with ⟨k, rfl⟩ : ∃ k, n = k + 1
  have hw := h.le_width
  rcases hp.exists_fixed_eq (n := k) (by omega) (by omega) with ⟨q, hq, hqk⟩
  rcases (h.combined.exists_iff q).mpr ⟨hq, hqk⟩ with ⟨x, hx, -⟩
  rw [hnil] at hx
  cases hx

theorem exists_passes_leftover_iff (h : IsRound width on n xs) {p : Pattern} :
    (∃ x ∈ (passes xs).flatMap (·.leftovers), x.bits = p) ↔ IsPrime width on p ∧ p.fixed ≤ n := by
  fun_induction passes xs generalizing n with
  | case1 xs made =>
    rename_i hnil
    rw [List.flatMap_singleton, h.exists_leftover_iff]
    apply and_congr_right
    intro hprime
    apply Iff.intro
    · exact Nat.le_of_eq
    · exact h.fixed_eq_of_combined_eq_nil hnil hprime.toIsImplicant
  | case2 xs made hne =>
    rename_i ih
    have hpos := h.pos_of_combined_ne_nil hne
    rcases ⟨n - 1, by omega⟩ with ⟨k, rfl⟩ : ∃ k, n = k + 1
    rw [List.flatMap_cons]
    simp only [List.mem_append, or_and_right, exists_or]
    rw [h.exists_leftover_iff, ih h.combined, ← and_or_left]
    apply and_congr_right
    intro _
    omega

theorem isExact_of_passes (h : IsRound width on n xs) {x : Implicant}
    (hx : x ∈ (passes xs).flatMap (·.leftovers)) : IsExact x := by
  have hleft {n : Nat} {xs : List Implicant} (h : IsRound width on n xs)
      (hx : x ∈ (pass xs).leftovers) : IsExact x :=
    h.exact x (Implicant.mem_leftovers_iff.mp hx).1
  fun_induction passes xs generalizing n with
  | case1 xs made =>
    rename_i hnil
    rw [List.flatMap_singleton] at hx
    exact hleft h hx
  | case2 xs made hne =>
    rename_i ih
    have hpos := h.pos_of_combined_ne_nil hne
    rcases ⟨n - 1, by omega⟩ with ⟨k, rfl⟩ : ∃ k, n = k + 1
    rw [List.flatMap_cons] at hx
    rcases List.mem_append.mp hx with hx | hx
    · exact hleft h hx
    · exact ih h.combined hx

end IsRound

/-! ## The rows of a set -/

theorem bits_ofRow {row : Int} (h0 : 0 ≤ row) (hlt : row < 2 ^ width) :
    (ofRow width row).bits = Pattern.lowBits width row.toNat :=
  Pattern.ofRow_eq_lowBits h0 hlt

theorem mem_minterms_ofRow {row r : Int} : r ∈ (ofRow width row).minterms ↔ r = row := by
  show r ∈ SortedSet.ofList [row] ↔ _
  rw [SortedSet.mem_ofList, List.mem_singleton]

-- The rows of a set make the round that fixes every place.
theorem isRound_ofRow {rows : List Int} (hrows : ∀ row ∈ rows, 0 ≤ row ∧ row < 2 ^ width) :
    IsRound width {row | row ∈ rows} width (rows.map (ofRow width)) := by
  have hcast := Pattern.natCast_two_pow width
  refine ⟨Nat.le_refl width, ?_, ?_⟩
  · intro p
    simp only [List.mem_map, exists_exists_and_eq_and]
    apply Iff.intro
    · intro hex
      rcases hex with ⟨row, hrow, rfl⟩
      rcases hrows row hrow with ⟨h0, hlt⟩
      rw [bits_ofRow h0 hlt]
      exact ⟨Pattern.isImplicant_of_mem hrow h0 hlt, Pattern.fixed_lowBits width _⟩
    · intro hboth
      rcases hboth with ⟨himp, hfixed⟩
      rcases Pattern.exists_lowBits_of_fixed himp.isTerm hfixed with ⟨k, hk, rfl⟩
      have hmem : (k : Int) ∈ {row | row ∈ rows} := by
        apply himp.inside
        rw [Pattern.cube_lowBits hk]
        exact Set.mem_singleton _
      have hbits : (ofRow width (k : Int)).bits = Pattern.lowBits width k := by
        rw [bits_ofRow (by omega) (by omega), Int.toNat_natCast]
      exact ⟨(k : Int), hmem, hbits⟩
  · intro x hx
    rcases List.mem_map.mp hx with ⟨row, hrow, rfl⟩
    rcases hrows row hrow with ⟨h0, hlt⟩
    intro r
    rw [mem_minterms_ofRow, bits_ofRow h0 hlt, Pattern.cube_lowBits_toNat h0 hlt]
    exact Iff.rfl

/-- A list has the prime implicants of a set, each once and with the rows of its cube. -/
structure IsPrimeList (width : Nat) (on : Set Int) (xs : List Implicant) : Prop where
  nodup : (xs.map bits).Nodup
  exists_iff : ∀ p, (∃ x ∈ xs, x.bits = p) ↔ IsPrime width on p
  exact : ∀ x ∈ xs, IsExact x

theorem IsRound.isPrimeList_primes (h : IsRound width on width xs) :
    IsPrimeList width on (primes xs).primes := by
  have hprimes (p : Pattern) : (∃ x ∈ (primes xs).primes, x.bits = p) ↔ IsPrime width on p := by
    show (∃ x ∈ distinct ((passes xs).flatMap (·.leftovers)), x.bits = p) ↔ _
    rw [exists_mem_distinct_iff, h.exists_passes_leftover_iff]
    -- a pattern cannot fix more places than it has
    apply and_iff_left_of_imp
    intro hprime
    have hle := Pattern.fixed_le_length p
    rwa [hprime.isTerm.length_eq] at hle
  exact ⟨nodup_bits_distinct _, hprimes,
    fun x hx => h.isExact_of_passes (mem_of_mem_distinct hx)⟩

/-- The prime implicants that come of a list of rows are those of the set of the rows, each once and
with the rows of its cube. -/
theorem primesOfRows?_eq_ok (width : Nat) (rows : List Int)
    (hrows : ∀ row ∈ rows, 0 ≤ row ∧ row < 2 ^ width) :
    ∃ found, primesOfRows? width rows = .ok found ∧ (found.primes.map bits).Nodup ∧
      (∀ p : Pattern, p ∈ found.primes.map bits ↔ IsPrime width {row | row ∈ rows} p) ∧
      ∀ x ∈ found.primes, ∀ row, row ∈ x.minterms ↔ row ∈ x.bits.cube := by
  have hprimes := (isRound_ofRow hrows).isPrimeList_primes
  -- a width that is not negative gives every row its implicant
  have hstart : rows.mapM (ofRow? width) = .ok (rows.map (ofRow width)) := by
    have hrow : ofRow? (width : Int) = fun row => pure (ofRow width row) := by
      funext row
      rw [ofRow?, if_neg (by omega), Int.toNat_natCast]
      rfl
    rw [hrow, List.mapM_pure]
    rfl
  have hfound : primesOfRows? width rows = .ok (primes (rows.map (ofRow width))) := by
    rw [primesOfRows?, hstart]
    rfl
  refine ⟨primes (rows.map (ofRow width)), hfound, hprimes.nodup, ?_, hprimes.exact⟩
  intro p
  rw [List.mem_map]
  exact hprimes.exists_iff p

theorem primesOfRows?_repeated_rows :
    ∃ found, primesOfRows? 3 [7, 0, 1, 5, 7, 0] = .ok found ∧ (found.primes.map bits).Nodup ∧
      ∀ p : Pattern, p ∈ found.primes.map bits ↔ IsPrime 3 {row | row ∈ [7, 0, 1, 5, 7, 0]} p := by
  rcases primesOfRows?_eq_ok 3 [7, 0, 1, 5, 7, 0] (by decide) with ⟨found, hok, hnodup, hprimes, -⟩
  exact ⟨found, hok, hnodup, hprimes⟩

end Implicant

end TwoLevel
