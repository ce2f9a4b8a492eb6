import Mathlib.Data.Set.Lattice
import TwoLevel.Minimisation
import TwoLevel.Proofs.PrimeImplicants

/-!
# Covers

The choice among the prime implicants of a set takes each that alone covers some row, and picks
further ones as long as a row is left.  A row that is left always has an implicant that is not taken
yet, which is why picking cannot stop early.  Main statement: what is selected for a table are
distinct prime implicants, the essential ones among them, and together they cover exactly the true
rows (`ofTable_selected`).
-/

namespace TwoLevel

namespace Pattern

/-- A prime implicant that alone covers some row of the set. -/
structure IsEssential (width : Nat) (on : Set Int) (p : Pattern) : Prop
    extends IsPrime width on p where
  sole : ∃ row ∈ on, row ∈ p.cube ∧ ∀ q, IsPrime width on q → row ∈ q.cube → q = p

end Pattern

namespace Implicant

open Pattern (IsPrime IsEssential)

/-! ## Picking -/

theorem gain_eq_zero_of_widest?_eq_none {remaining : SortedSet Int} {xs : List Implicant}
    (h : widest? remaining xs = none) {x : Implicant} (hx : x ∈ xs) : gain remaining x = 0 := by
  induction xs with
  | nil => cases hx
  | cons y ys ih =>
    unfold widest? at h
    split at h
    · rename_i hnone
      split at h
      · cases h
      · rename_i hgain
        rcases List.mem_cons.mp hx with rfl | hx
        · omega
        · exact ih hnone hx
    · split at h <;> cases h

/-- The widest implicant gains no less than any other, and more than those before it. -/
theorem exists_split_of_widest? {remaining : SortedSet Int} {xs : List Implicant} {x : Implicant}
    (h : widest? remaining xs = some x) :
    ∃ before after, xs = before ++ x :: after ∧
      (∀ y ∈ before, gain remaining y < gain remaining x) ∧
      ∀ y ∈ xs, gain remaining y ≤ gain remaining x := by
  induction xs generalizing x with
  | nil => cases h
  | cons y ys ih =>
    unfold widest? at h
    split at h
    · rename_i hnone
      split at h
      · cases h
        refine ⟨[], ys, rfl, fun z hz => (nomatch hz), ?_⟩
        refine List.forall_mem_cons.mpr ⟨Nat.le_refl _, fun z hz => ?_⟩
        rw [gain_eq_zero_of_widest?_eq_none hnone hz]
        exact Nat.zero_le _
      · cases h
    · rename_i w hw
      rcases ih hw with ⟨before, after, hsplit, hbefore, hall⟩
      split at h
      · rename_i hle
        cases h
        refine ⟨[], ys, rfl, fun z hz => (nomatch hz), ?_⟩
        exact List.forall_mem_cons.mpr ⟨Nat.le_refl _, fun z hz => Nat.le_trans (hall z hz) hle⟩
      · rename_i hlt
        cases h
        have hy := Nat.lt_of_not_le hlt
        exact ⟨y :: before, after, congrArg (y :: ·) hsplit,
          List.forall_mem_cons.mpr ⟨hy, hbefore⟩, List.forall_mem_cons.mpr ⟨Nat.le_of_lt hy, hall⟩⟩

theorem mem_of_widest?_eq_some {remaining : SortedSet Int} {xs : List Implicant} {x : Implicant}
    (h : widest? remaining xs = some x) : x ∈ xs := by
  rcases exists_split_of_widest? h with ⟨before, after, rfl, -, -⟩
  exact List.mem_append_right before List.mem_cons_self

theorem gain_le_of_widest? {remaining : SortedSet Int} {xs : List Implicant} {x y : Implicant}
    (h : widest? remaining xs = some x) (hy : y ∈ xs) : gain remaining y ≤ gain remaining x := by
  rcases exists_split_of_widest? h with ⟨-, -, -, -, hall⟩
  exact hall y hy

theorem mem_untaken {xs : List Implicant} {taken : List Pattern} {x : Implicant} :
    x ∈ xs.filter (·.bits ∉ taken) ↔ x ∈ xs ∧ x.bits ∉ taken := by
  rw [List.mem_filter, decide_eq_true_eq]

theorem mem_greedy {xs : List Implicant} {remaining : SortedSet Int} {taken : List Pattern}
    {x : Implicant} (hx : x ∈ greedy xs remaining taken) : x ∈ xs ∧ x.bits ∉ taken := by
  fun_induction greedy xs remaining taken with
  | case1 => cases hx
  | case2 remaining taken y hfound ih =>
    rcases List.mem_cons.mp hx with rfl | hx
    · exact mem_untaken.mp (mem_of_widest?_eq_some hfound)
    · rcases ih hx with ⟨hmem, htaken⟩
      exact ⟨hmem, fun h => htaken (List.mem_cons_of_mem _ h)⟩

theorem nodup_bits_greedy (xs : List Implicant) (remaining : SortedSet Int)
    (taken : List Pattern) : ((greedy xs remaining taken).map bits).Nodup := by
  fun_induction greedy xs remaining taken with
  | case1 => exact List.nodup_nil
  | case2 remaining taken y hfound ih =>
    have hlater : y.bits ∉ (greedy xs (remaining \ y.minterms) (y.bits :: taken)).map bits := by
      intro hy
      rcases List.mem_map.mp hy with ⟨x, hx, hbits⟩
      have htaken := (mem_greedy hx).2
      rw [hbits] at htaken
      exact htaken List.mem_cons_self
    rw [List.map_cons, List.nodup_cons]
    exact ⟨hlater, ih⟩

theorem widest?_of_greedy_eq_cons {xs ys : List Implicant} {remaining : SortedSet Int}
    {taken : List Pattern} {x : Implicant} (h : greedy xs remaining taken = x :: ys) :
    widest? remaining (xs.filter (·.bits ∉ taken)) = some x ∧
      greedy xs (remaining \ x.minterms) (x.bits :: taken) = ys := by
  rw [greedy] at h
  split at h
  · cases h
  · rename_i y hfound
    rw [List.cons.injEq] at h
    rcases h with ⟨rfl, h⟩
    exact ⟨hfound, h⟩

theorem exists_row_of_greedy_eq_cons {xs ys : List Implicant} {remaining : SortedSet Int}
    {taken : List Pattern} {x : Implicant} (h : greedy xs remaining taken = x :: ys) :
    ∃ row ∈ remaining, row ∈ x.minterms := by
  have hgain := gain_pos_of_widest? (widest?_of_greedy_eq_cons h).1
  rcases SortedSet.common_pos.mp hgain with ⟨row, hxrow, hrow⟩
  exact ⟨row, hrow, hxrow⟩

theorem diff_coveredBy_cons (remaining : SortedSet Int) (x : Implicant) (xs : List Implicant) :
    remaining \ coveredBy (x :: xs) = (remaining \ x.minterms) \ coveredBy xs := by
  apply SortedSet.ext
  intro row
  have hcons : row ∈ coveredBy (x :: xs) ↔ row ∈ x.minterms ∨ row ∈ coveredBy xs :=
    SortedSet.mem_union
  rw [SortedSet.mem_diff, SortedSet.mem_diff, SortedSet.mem_diff, hcons, not_or, and_assoc]

/-- The later picks are those for the rows that the earlier ones leave. -/
theorem greedy_of_append {xs before after : List Implicant} {remaining : SortedSet Int}
    {taken : List Pattern} (h : greedy xs remaining taken = before ++ after) :
    greedy xs (remaining \ coveredBy before) ((before.map bits).reverse ++ taken) = after := by
  induction before generalizing remaining taken with
  | nil =>
    have hnone : remaining \ coveredBy [] = remaining := by
      apply SortedSet.ext
      intro row
      rw [SortedSet.mem_diff]
      exact and_iff_left SortedSet.not_mem_empty
    rw [hnone]
    exact h
  | cons y before ih =>
    have hrest := ih (widest?_of_greedy_eq_cons h).2
    rw [diff_coveredBy_cons, List.map_cons, List.reverse_cons, List.append_assoc]
    exact hrest

/-- Every pick covers a row that was left and that no earlier pick covers. -/
theorem exists_own_row_of_greedy {xs before after : List Implicant} {remaining : SortedSet Int}
    {taken : List Pattern} {x : Implicant}
    (h : greedy xs remaining taken = before ++ x :: after) :
    ∃ row ∈ remaining, row ∈ x.minterms ∧ ∀ y ∈ before, row ∉ y.minterms := by
  rcases exists_row_of_greedy_eq_cons (greedy_of_append h) with ⟨row, hrow, hxrow⟩
  rcases SortedSet.mem_diff.mp hrow with ⟨hremaining, hbefore⟩
  exact ⟨row, hremaining, hxrow, fun y hy hyrow => hbefore (mem_coveredBy.mpr ⟨y, hy, hyrow⟩)⟩

-- A row that is left and that some implicant not taken covers will be covered.
theorem exists_mem_greedy {xs : List Implicant} {remaining : SortedSet Int} {taken : List Pattern}
    (hxs : (xs.map bits).Nodup) {row : Int} (hrow : row ∈ remaining) {x : Implicant} (hx : x ∈ xs)
    (htaken : x.bits ∉ taken) (hxrow : row ∈ x.minterms) :
    ∃ y ∈ greedy xs remaining taken, row ∈ y.minterms := by
  fun_induction greedy xs remaining taken with
  | case1 remaining taken hnone =>
    -- picking stops when no implicant gains a row, but `x` would gain this row
    have hzero := gain_eq_zero_of_widest?_eq_none hnone (mem_untaken.mpr ⟨hx, htaken⟩)
    have hpos : 0 < gain remaining x := SortedSet.common_pos.mpr ⟨row, hxrow, hrow⟩
    omega
  | case2 remaining taken y hfound ih =>
    by_cases hy : row ∈ y.minterms
    · exact ⟨y, List.mem_cons_self, hy⟩
    · have hymem := (mem_untaken.mp (mem_of_widest?_eq_some hfound)).1
      have htaken' : x.bits ∉ y.bits :: taken := by
        intro hmem
        rcases List.mem_cons.mp hmem with hbits | hmem
        · rw [List.inj_on_of_nodup_map hxs hx hymem hbits] at hxrow
          exact hy hxrow
        · exact htaken hmem
      rcases ih (SortedSet.mem_diff.mpr ⟨hrow, hy⟩) htaken' with ⟨z, hz, hzrow⟩
      exact ⟨z, List.mem_cons_of_mem y hz, hzrow⟩

/-! ## Implicants that alone cover a row -/

theorem soleCover?_eq_some_iff {xs : List Implicant} {row : Int} {x : Implicant} :
    soleCover? xs row = some x ↔ xs.filter (·.covers row) = [x] := by
  unfold soleCover?
  split
  · rename_i y hy
    rw [hy, Option.some.injEq, List.cons.injEq, and_iff_left rfl]
  · rename_i hne
    apply Iff.intro
    · intro h
      cases h
    · intro h
      exact absurd h (hne x)

theorem exists_sole_of_mem_essentials {xs : List Implicant} {rows : List Int} {x : Implicant}
    (hx : x ∈ essentials xs rows) : ∃ row ∈ rows, ∀ y, y ∈ xs ∧ row ∈ y.minterms ↔ y = x := by
  rcases List.mem_filterMap.mp (mem_of_mem_distinct hx) with ⟨row, hrow, hsole⟩
  have hfilter := soleCover?_eq_some_iff.mp hsole
  refine ⟨row, hrow, ?_⟩
  intro y
  rw [← List.mem_singleton, ← hfilter, List.mem_filter, covers, decide_eq_true_eq]

theorem mem_of_mem_essentials {xs : List Implicant} {rows : List Int} {x : Implicant}
    (hx : x ∈ essentials xs rows) : x ∈ xs := by
  rcases exists_sole_of_mem_essentials hx with ⟨row, -, hsole⟩
  exact ((hsole x).mpr rfl).1

theorem soleCover?_eq_some {xs : List Implicant} (hxs : (xs.map bits).Nodup) {row : Int}
    {x : Implicant} (hx : x ∈ xs) (hrow : row ∈ x.minterms)
    (hsole : ∀ y ∈ xs, row ∈ y.minterms → y.bits = x.bits) : soleCover? xs row = some x := by
  rw [soleCover?_eq_some_iff]
  -- the members of a list without repeats tell it up to order, and one member has only one order
  apply List.perm_singleton.mp
  rw [List.perm_ext_iff_of_nodup (hxs.of_map.filter _) (List.nodup_singleton x)]
  intro y
  rw [List.mem_filter, List.mem_singleton]
  apply Iff.intro
  · intro hboth
    rcases hboth with ⟨hy, hcovers⟩
    have hyrow : row ∈ y.minterms := by simpa [covers] using hcovers
    exact List.inj_on_of_nodup_map hxs hy hx (hsole y hy hyrow)
  · intro he
    subst he
    exact ⟨hx, by simpa [covers] using hrow⟩

/-! ## The chosen cover -/

/-- Distinct prime implicants of a set, the essential ones among them, that together cover exactly
the set. -/
structure IsPrimeCover (width : Nat) (on : Set Int) (xs : List Implicant) : Prop where
  nodup : (xs.map bits).Nodup
  isPrime : ∀ x ∈ xs, IsPrime width on x.bits
  essential : ∀ p, IsEssential width on p → p ∈ xs.map bits
  covers_iff : ∀ row, row ∈ on ↔ ∃ x ∈ xs, row ∈ x.bits.cube

variable {width : Nat} {on : Set Int} {xs : List Implicant}

theorem IsPrimeList.isPrime (h : IsPrimeList width on xs) {x : Implicant} (hx : x ∈ xs) :
    IsPrime width on x.bits := (h.exists_iff x.bits).mp ⟨x, hx, rfl⟩

-- The prime implicants of a set leave no row of it out.
theorem IsPrimeList.exists_mem (h : IsPrimeList width on xs)
    (hon : ∀ row ∈ on, 0 ≤ row ∧ row < 2 ^ width) {row : Int} (hrow : row ∈ on) :
    ∃ x ∈ xs, row ∈ x.minterms := by
  rcases hon row hrow with ⟨h0, hlt⟩
  have hself : row ∈ (Pattern.lowBits width row.toNat).cube := by
    rw [Pattern.cube_lowBits_toNat h0 hlt]
    exact Set.mem_singleton row
  -- the row by itself is an implicant, and it lies inside a prime one
  rcases (Pattern.isImplicant_of_mem hrow h0 hlt).exists_isPrime with ⟨q, hq, hadmits⟩
  rcases (h.exists_iff q).mpr hq with ⟨x, hx, rfl⟩
  exact ⟨x, hx, (h.exact x hx row).mpr (Pattern.cube_subset_of_admits hadmits hself)⟩

theorem IsPrimeList.mem_essentials (h : IsPrimeList width on xs) {rows : List Int}
    (hrows : ∀ row ∈ on, row ∈ rows) {x : Implicant} (hx : x ∈ xs)
    (hess : IsEssential width on x.bits) : x.bits ∈ (essentials xs rows).map bits := by
  rcases hess.sole with ⟨row, hon, hcube, hsole⟩
  have honly : ∀ y ∈ xs, row ∈ y.minterms → y.bits = x.bits := by
    intro y hy hyrow
    exact hsole y.bits (h.isPrime hy) ((h.exact y hy row).mp hyrow)
  have hfound : soleCover? xs row = some x :=
    soleCover?_eq_some h.nodup hx ((h.exact x hx row).mpr hcube) honly
  have hmem : ∃ y ∈ rows.filterMap (soleCover? xs), y.bits = x.bits :=
    ⟨x, List.mem_filterMap.mpr ⟨row, hrows row hon, hfound⟩, rfl⟩
  rcases exists_mem_distinct_iff.mpr hmem with ⟨y, hy, hbits⟩
  exact List.mem_map.mpr ⟨y, hy, hbits⟩

theorem IsPrimeList.isEssential_of_mem_essentials (h : IsPrimeList width on xs) {rows : List Int}
    (hrows : ∀ row ∈ rows, row ∈ on) {x : Implicant} (hx : x ∈ essentials xs rows) :
    IsEssential width on x.bits := by
  rcases exists_sole_of_mem_essentials hx with ⟨row, hrow, hsole⟩
  rcases (hsole x).mpr rfl with ⟨hmem, hxrow⟩
  refine ⟨h.isPrime hmem, row, hrows row hrow, (h.exact x hmem row).mp hxrow, ?_⟩
  intro q hq hcube
  rcases (h.exists_iff q).mpr hq with ⟨y, hy, rfl⟩
  rw [(hsole y).mp ⟨hy, (h.exact y hy row).mpr hcube⟩]

-- A single prime implicant alone covers every row of the set.
theorem IsPrimeList.isEssential_of_length_eq_one (h : IsPrimeList width on xs)
    (hon : ∀ row ∈ on, 0 ≤ row ∧ row < 2 ^ width) (hne : on.Nonempty) (hone : xs.length = 1)
    {x : Implicant} (hx : x ∈ xs) : IsEssential width on x.bits := by
  rcases List.length_eq_one_iff.mp hone with ⟨y, rfl⟩
  rcases List.mem_singleton.mp hx with rfl
  rcases hne with ⟨row, hrow⟩
  rcases h.exists_mem hon hrow with ⟨y, hy, hyrow⟩
  rcases List.mem_singleton.mp hy with rfl
  refine ⟨h.isPrime hx, row, hrow, (h.exact y hx row).mp hyrow, ?_⟩
  intro q hq _
  rcases (h.exists_iff q).mpr hq with ⟨z, hz, rfl⟩
  rw [List.mem_singleton.mp hz]

theorem mem_selected {rows : List Int} {x : Implicant} (hx : x ∈ (chooseCover xs rows).selected) :
    x ∈ xs := by
  rcases List.mem_append.mp hx with hx | hx
  · exact mem_of_mem_essentials hx
  · exact (mem_greedy hx).1

theorem nodup_bits_selected (xs : List Implicant) (rows : List Int) :
    ((chooseCover xs rows).selected.map bits).Nodup := by
  show ((essentials xs rows ++ greedy _ _ _).map bits).Nodup
  rw [List.map_append]
  refine List.nodup_append.mpr ⟨nodup_bits_distinct _, nodup_bits_greedy _ _ _, ?_⟩
  -- picking starts with the essential ones taken
  intro p hp q hq heq
  subst heq
  rcases List.mem_map.mp hq with ⟨x, hx, rfl⟩
  exact (mem_greedy hx).2 hp

theorem IsPrimeList.exists_mem_selected (h : IsPrimeList width on xs) {rows : List Int}
    (hrows : ∀ row ∈ rows, row ∈ on) (hon : ∀ row ∈ on, 0 ≤ row ∧ row < 2 ^ width) {row : Int}
    (hrow : row ∈ rows) : ∃ x ∈ (chooseCover xs rows).selected, row ∈ x.minterms := by
  by_cases hess : row ∈ coveredBy (essentials xs rows)
  · rcases mem_coveredBy.mp hess with ⟨x, hx, hxrow⟩
    exact ⟨x, List.mem_append_left _ hx, hxrow⟩
  · rcases h.exists_mem hon (hrows row hrow) with ⟨x, hx, hxrow⟩
    have hfree : x.bits ∉ (essentials xs rows).map bits := by
      intro hbits
      rcases List.mem_map.mp hbits with ⟨y, hy, hyx⟩
      have heq := List.inj_on_of_nodup_map h.nodup (mem_of_mem_essentials hy) hx hyx
      exact hess (mem_coveredBy.mpr ⟨y, hy, heq ▸ hxrow⟩)
    have hremaining := SortedSet.mem_diff.mpr ⟨SortedSet.mem_ofList.mpr hrow, hess⟩
    rcases exists_mem_greedy h.nodup hremaining hx hfree hxrow with ⟨y, hy, hyrow⟩
    exact ⟨y, List.mem_append_right _ hy, hyrow⟩

theorem IsPrimeList.isPrimeCover_chooseCover (h : IsPrimeList width on xs) {rows : List Int}
    (hrows : ∀ row, row ∈ rows ↔ row ∈ on) (hon : ∀ row ∈ on, 0 ≤ row ∧ row < 2 ^ width) :
    IsPrimeCover width on (chooseCover xs rows).selected := by
  refine ⟨nodup_bits_selected xs rows, fun x hx => h.isPrime (mem_selected hx), ?_, ?_⟩
  · intro p hp
    rcases (h.exists_iff p).mpr hp.toIsPrime with ⟨x, hx, rfl⟩
    have hmem := h.mem_essentials (fun row hrow => (hrows row).mpr hrow) hx hp
    show _ ∈ (essentials xs rows ++ _).map bits
    rw [List.map_append]
    exact List.mem_append_left _ hmem
  · intro row
    apply Iff.intro
    · intro hrow
      have hrow' := (hrows row).mpr hrow
      rcases h.exists_mem_selected (fun r hr => (hrows r).mp hr) hon hrow' with ⟨x, hx, hxrow⟩
      exact ⟨x, hx, (h.exact x (mem_selected hx) row).mp hxrow⟩
    · intro hex
      rcases hex with ⟨x, hx, hcube⟩
      exact (h.isPrime (mem_selected hx)).inside hcube

-- A single prime implicant needs no choice: it is essential and covers the set.
theorem IsPrimeList.isPrimeCover_self (h : IsPrimeList width on xs)
    (hon : ∀ row ∈ on, 0 ≤ row ∧ row < 2 ^ width) : IsPrimeCover width on xs := by
  refine ⟨h.nodup, fun x hx => h.isPrime hx, ?_, ?_⟩
  · intro p hp
    exact List.mem_map.mpr ((h.exists_iff p).mpr hp.toIsPrime)
  · intro row
    apply Iff.intro
    · intro hrow
      rcases h.exists_mem hon hrow with ⟨x, hx, hxrow⟩
      exact ⟨x, hx, (h.exact x hx row).mp hxrow⟩
    · intro hex
      rcases hex with ⟨x, hx, hcube⟩
      exact (h.isPrime hx).inside hcube

end Implicant

/-! ## Tables -/

namespace TruthTable

theorem rowCount_eq (width : Nat) : rowCount width = 2 ^ width := rfl

/-- The rows whose value is true. -/
def onSet (table : List Bool) : Set Int :=
  {row | ∃ n : Nat, (n : Int) = row ∧ table[n]? = some true}

theorem mem_map_trueRows_iff {table : List Bool} {row : Int} :
    row ∈ (trueRows table).map Int.ofNat ↔ row ∈ onSet table := by
  rw [List.mem_map]
  apply Iff.intro
  · intro hex
    rcases hex with ⟨n, hn, rfl⟩
    exact ⟨n, rfl, mem_trueRows.mp hn⟩
  · intro hex
    rcases hex with ⟨n, rfl, hn⟩
    exact ⟨n, mem_trueRows.mpr hn, rfl⟩

theorem bounds_of_mem_onSet {table : List Bool} {width : Nat} (hlen : table.length = 2 ^ width)
    {row : Int} (hrow : row ∈ onSet table) : 0 ≤ row ∧ row < 2 ^ width := by
  rcases hrow with ⟨n, rfl, hn⟩
  rcases List.getElem?_eq_some_iff.mp hn with ⟨hlt, -⟩
  have hcast := Pattern.natCast_two_pow width
  omega

theorem onSet_nonempty {table : List Bool} (htrue : true ∈ table) : (onSet table).Nonempty := by
  rcases List.mem_iff_getElem?.mp htrue with ⟨n, hn⟩
  exact ⟨n, n, rfl, hn⟩

/-- The true rows make the round that fixes every place. -/
theorem isRound_trueRows {table : List Bool} {width : Nat} (hlen : table.length = 2 ^ width) :
    Implicant.IsRound width (onSet table) width
      (((trueRows table).map Int.ofNat).map (Implicant.ofRow width)) := by
  have hset : {row | row ∈ (trueRows table).map Int.ofNat} = onSet table := by
    ext row
    exact mem_map_trueRows_iff
  have hrows : ∀ row ∈ (trueRows table).map Int.ofNat, 0 ≤ row ∧ row < 2 ^ width :=
    fun row hrow => bounds_of_mem_onSet hlen (mem_map_trueRows_iff.mp hrow)
  have hround := Implicant.isRound_ofRow hrows
  rwa [hset] at hround

/-- The prime implicants that come of the true rows are those of the set of them. -/
theorem isPrimeList_trueRows {table : List Bool} {width : Nat} (hlen : table.length = 2 ^ width) :
    Implicant.IsPrimeList width (onSet table) (Implicant.primes
      (((trueRows table).map Int.ofNat).map (Implicant.ofRow width))).primes :=
  (isRound_trueRows hlen).isPrimeList_primes

theorem length_trueRowsFrom (first : Nat) (table : List Bool) :
    (trueRowsFrom first table).length = table.count true := by
  induction table generalizing first with
  | nil => rfl
  | cons b table ih =>
    cases b with
    | false => rw [trueRowsFrom, ih, List.count_cons_of_ne (by decide)]
    | true => rw [trueRowsFrom, List.length_cons, ih, List.count_cons_self]

theorem pairwise_trueRows (table : List Bool) : (trueRows table).Pairwise (· < ·) := by
  have key (first : Nat) : (trueRowsFrom first table).Pairwise (· < ·) := by
    induction table generalizing first with
    | nil => exact List.Pairwise.nil
    | cons b table ih =>
      cases b with
      | false => exact ih (first + 1)
      | true =>
        refine List.pairwise_cons.mpr ⟨?_, ih (first + 1)⟩
        intro row hrow
        exact (mem_trueRowsFrom.mp hrow).1
  exact key 0

theorem trueRows_eq_nil_iff {table : List Bool} : trueRows table = [] ↔ true ∉ table := by
  rw [List.eq_nil_iff_forall_not_mem]
  apply Iff.intro
  · intro h htrue
    rcases List.mem_iff_getElem?.mp htrue with ⟨n, hn⟩
    exact h n (mem_trueRows.mpr hn)
  · intro h row hrow
    exact h (List.mem_of_getElem? (mem_trueRows.mp hrow))

theorem length_trueRows_eq_iff {table : List Bool} :
    (trueRows table).length = table.length ↔ false ∉ table := by
  rw [trueRows, length_trueRowsFrom, List.count_eq_length]
  apply Iff.intro
  · intro h hfalse
    cases h false hfalse
  · intro h b hb
    cases b with
    | false => exact absurd hb h
    | true => rfl

end TruthTable

namespace Minimisation

open Implicant (IsPrimeCover)
open Pattern (IsPrime IsEssential)
open TruthTable (onSet)

theorem ofTable_eq_ofRows {names : List String} {table : List Bool}
    (hlen : table.length = 2 ^ names.length) (htrue : true ∈ table) (hfalse : false ∈ table) :
    ofTable names table = .ok (ofRows names (TruthTable.trueRows table)) := by
  have hsome : TruthTable.trueRows table ≠ [] := by
    rw [ne_eq, TruthTable.trueRows_eq_nil_iff, not_not]
    exact htrue
  have hnotall : (TruthTable.trueRows table).length ≠ 2 ^ names.length := by
    rw [← hlen, ne_eq, TruthTable.length_trueRows_eq_iff, not_not]
    exact hfalse
  unfold ofTable
  rw [TruthTable.rowCount_eq, if_neg (by simp [hlen]), if_neg hsome, if_neg hnotall]

theorem isPrimeCover_ofRows {names : List String} {table : List Bool}
    (hlen : table.length = 2 ^ names.length) :
    IsPrimeCover names.length (onSet table)
      (ofRows names (TruthTable.trueRows table)).selected := by
  have hbounds (row : Int) (hrow : row ∈ onSet table) := TruthTable.bounds_of_mem_onSet hlen hrow
  have hprimes := TruthTable.isPrimeList_trueRows hlen
  unfold ofRows
  simp only [selected]
  split
  · exact hprimes.isPrimeCover_self hbounds
  · exact hprimes.isPrimeCover_chooseCover (fun row => TruthTable.mem_map_trueRows_iff) hbounds

/-- What is selected for a table that is neither always nor never true are distinct prime
implicants, every essential one among them, and their cubes make up exactly the true rows. -/
theorem ofTable_selected (names : List String) (table : List Bool)
    (hlen : table.length = 2 ^ names.length) (htrue : true ∈ table) (hfalse : false ∈ table) :
    ∃ m, ofTable names table = .ok m ∧ (m.selected.map Implicant.bits).Nodup ∧
      (∀ x ∈ m.selected, IsPrime names.length (onSet table) x.bits) ∧
      (∀ p, IsEssential names.length (onSet table) p → p ∈ m.selected.map Implicant.bits) ∧
      (⋃ x ∈ m.selected, x.bits.cube) = onSet table := by
  have hcover := isPrimeCover_ofRows hlen
  refine ⟨_, ofTable_eq_ofRows hlen htrue hfalse, hcover.nodup, hcover.isPrime,
    hcover.essential, ?_⟩
  ext row
  rw [Set.mem_iUnion₂, hcover.covers_iff]
  simp only [exists_prop]

-- Each row has two prime implicants here, so that none is essential.
theorem ofTable_selected_cyclic :
    ∃ m, ofTable ["A", "B", "C"] [true, true, true, false, false, true, true, true] = .ok m ∧
      (⋃ x ∈ m.selected, x.bits.cube) =
        onSet [true, true, true, false, false, true, true, true] := by
  rcases ofTable_selected ["A", "B", "C"] [true, true, true, false, false, true, true, true]
    (by decide) (by decide) (by decide) with ⟨m, hm, -, -, -, hcubes⟩
  exact ⟨m, hm, hcubes⟩

end Minimisation

end TwoLevel
