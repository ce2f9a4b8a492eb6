import Mathlib.Algebra.GroupWithZero.Nat
import Mathlib.Algebra.Order.BigOperators.Group.List
import Mathlib.Algebra.Order.Group.Nat
import TwoLevel.Proofs.Narrowing
import TwoLevel.Proofs.SumOfProducts

/-!
# Minimum sums

An essential implicant alone covers some row, so that in any sum of products for the set the term
over this row lies inside it and inside no other prime implicant.  Distinct essential implicants
therefore answer for distinct terms, none of which has fewer literals.  Main statement: a cover for
which nothing was picked beyond the essential implicants has the fewest terms and the fewest
literals among all sums of products for the table (`ofTable_minimum`).
-/

namespace TwoLevel

namespace Pattern

variable {width : Nat} {on : Set Int} {terms ps : List Pattern}

/-- Product terms whose cubes make up a set. -/
structure IsTermCover (width : Nat) (on : Set Int) (terms : List Pattern) : Prop where
  isTerm : ∀ t ∈ terms, IsTerm width t
  cubes : (⋃ t ∈ terms, t.cube) = on

theorem IsTermCover.mem_iff (h : IsTermCover width on terms) {row : Int} :
    row ∈ on ↔ ∃ t ∈ terms, row ∈ t.cube := by
  rw [← h.cubes, Set.mem_iUnion₂]
  simp only [exists_prop]

theorem IsTermCover.isImplicant (h : IsTermCover width on terms) {t : Pattern} (ht : t ∈ terms) :
    IsImplicant width on t :=
  ⟨h.isTerm t ht, fun _ hrow => h.mem_iff.mpr ⟨t, ht, hrow⟩⟩

/-- Some term lies inside an essential implicant and inside no other prime one. -/
theorem IsEssential.exists_admits {p : Pattern} (hp : IsEssential width on p)
    (h : IsTermCover width on terms) :
    ∃ t ∈ terms, p.Admits t ∧ ∀ q, IsPrime width on q → q.Admits t → q = p := by
  rcases hp.sole with ⟨row, hrow, -, hsole⟩
  -- the term over the row that no other prime implicant covers
  rcases h.mem_iff.mp hrow with ⟨t, ht, hcube⟩
  have honly (q : Pattern) (hq : IsPrime width on q) (hadmits : q.Admits t) : q = p :=
    hsole q hq (cube_subset_of_admits hadmits hcube)
  rcases (h.isImplicant ht).exists_isPrime with ⟨q, hq, hadmits⟩
  have hqp := honly q hq hadmits
  subst hqp
  exact ⟨t, ht, hadmits, honly⟩

/-- Distinct essential implicants have distinct terms inside them. -/
theorem exists_charge (hnodup : ps.Nodup) (hess : ∀ p ∈ ps, IsEssential width on p)
    (h : IsTermCover width on terms) :
    ∃ charge : Pattern → Pattern, (ps.map charge).Subperm terms ∧
      ∀ p ∈ ps, p.Admits (charge p) := by
  have hex (p : Pattern) (hp : p ∈ ps) := (hess p hp).exists_admits h
  choose! charge hmem hadmits honly using hex
  have hinj : (ps.map charge).Nodup := by
    apply List.Nodup.map_on _ hnodup
    intro p hp q hq heq
    have hpq := hadmits p hp
    rw [heq] at hpq
    exact honly q hq p (hess p hp).toIsPrime hpq
  have hsub : ps.map charge ⊆ terms := by
    intro t ht
    rcases List.mem_map.mp ht with ⟨p, hp, rfl⟩
    exact hmem p hp
  exact ⟨charge, List.subperm_of_subset hinj hsub, hadmits⟩

theorem length_le_of_isEssential (hnodup : ps.Nodup) (hess : ∀ p ∈ ps, IsEssential width on p)
    (h : IsTermCover width on terms) : ps.length ≤ terms.length := by
  rcases exists_charge hnodup hess h with ⟨charge, hsub, -⟩
  have hle := hsub.length_le
  rwa [List.length_map] at hle

theorem sum_fixed_le_of_isEssential (hnodup : ps.Nodup)
    (hess : ∀ p ∈ ps, IsEssential width on p) (h : IsTermCover width on terms) :
    (ps.map fixed).sum ≤ (terms.map fixed).sum := by
  rcases exists_charge hnodup hess h with ⟨charge, ⟨charged, hperm, hsub⟩, hadmits⟩
  calc (ps.map fixed).sum
      ≤ (ps.map (fixed ∘ charge)).sum :=
        List.sum_le_sum fun p hp => fixed_le_of_admits (hadmits p hp)
    _ = ((ps.map charge).map fixed).sum := by rw [List.map_map]
    _ = (charged.map fixed).sum := (hperm.map fixed).sum_eq.symm
    _ ≤ (terms.map fixed).sum := (hsub.map fixed).sum_le_sum fun _ _ => Nat.zero_le _

end Pattern

namespace ProductTerm

/-- How many literals the products of some patterns have in all. -/
def literalCount (names : List String) (terms : List Pattern) : Nat :=
  (terms.map fun t => (literals t names).length).sum

theorem length_literals {bits : Pattern} {names : List String}
    (h : Pattern.IsTerm names.length bits) : (literals bits names).length = bits.fixed := by
  induction bits generalizing names with
  | nil => rfl
  | cons c bits ih =>
    cases names with
    | nil => exact absurd h.length_eq (by simp)
    | cons name names =>
      rw [literals_cons, Pattern.fixed_cons, ← ih h.of_cons]
      rcases h.places c List.mem_cons_self with rfl | rfl | rfl <;> rfl

theorem literalCount_eq {names : List String} {terms : List Pattern}
    (h : ∀ t ∈ terms, Pattern.IsTerm names.length t) :
    literalCount names terms = (terms.map Pattern.fixed).sum := by
  rw [literalCount, List.map_congr_left fun t ht => length_literals (h t ht)]

end ProductTerm

namespace Implicant

open Pattern (IsEssential)

variable {width : Nat} {on : Set Int} {xs : List Implicant}

theorem IsPrimeCover.isTermCover (h : IsPrimeCover width on xs) :
    Pattern.IsTermCover width on (xs.map bits) := by
  apply Pattern.IsTermCover.mk
  · intro t ht
    rcases List.mem_map.mp ht with ⟨x, hx, rfl⟩
    exact (h.isPrime x hx).isTerm
  · ext row
    rw [Set.mem_iUnion₂, h.covers_iff]
    simp only [exists_prop, List.mem_map, exists_exists_and_eq_and]

/-- Nothing is picked exactly if the essential implicants cover the set. -/
theorem IsPrimeList.additional_eq_nil_iff (h : IsPrimeList width on xs) {rows : List Int}
    (hrows : ∀ row, row ∈ rows ↔ row ∈ on) (hon : ∀ row ∈ on, 0 ≤ row ∧ row < 2 ^ width) :
    (chooseCover xs rows).additional = [] ↔
      ∀ row ∈ on, ∃ p, IsEssential width on p ∧ row ∈ p.cube := by
  apply Iff.intro
  · intro hnil row hrow
    rcases h.exists_mem_selected (fun r hr => (hrows r).mp hr) hon ((hrows row).mpr hrow) with
      ⟨x, hx, hxrow⟩
    rw [Cover.selected, hnil, List.append_nil] at hx
    exact ⟨x.bits, h.isEssential_of_mem_essentials (fun r hr => (hrows r).mp hr) hx,
      (h.exact x (mem_of_mem_essentials hx) row).mp hxrow⟩
  · intro hall
    by_contra hne
    rcases List.exists_cons_of_ne_nil hne with ⟨y, ys, hpicked⟩
    -- the first pick covers a row that was left, but the essential implicants leave none
    rcases exists_row_of_greedy_eq_cons hpicked with ⟨row, hrow, -⟩
    rcases SortedSet.mem_diff.mp hrow with ⟨hrow, hleft⟩
    rw [SortedSet.mem_ofList, hrows] at hrow
    rcases hall row hrow with ⟨p, hp, hcube⟩
    rcases (h.exists_iff p).mpr hp.toIsPrime with ⟨x, hx, rfl⟩
    have hmem := h.mem_essentials (fun r hr => (hrows r).mpr hr) hx hp
    rcases List.mem_map.mp hmem with ⟨z, hz, hbits⟩
    have hzx := List.inj_on_of_nodup_map h.nodup (mem_of_mem_essentials hz) hx hbits
    subst hzx
    exact hleft (mem_coveredBy.mpr ⟨z, hz, (h.exact z hx row).mpr hcube⟩)

end Implicant

/-- The implicants that a stage picks beyond the essential ones. -/
def Stage.picks : Stage → List Implicant
  | .additional chosen => chosen
  | _ => []

namespace Minimisation

open Implicant (primesOf chooseCover)
open Pattern (IsEssential IsTermCover)
open ProductTerm (literalCount)
open TruthTable (onSet trueRows)

/-- What was picked beyond the essential implicants, as the stages tell. -/
def picked (m : Minimisation) : List Implicant := m.stages.flatMap Stage.picks

theorem picks_roundStages (rounds : List (List Implicant)) :
    (roundStages rounds).flatMap Stage.picks = [] := by
  rw [List.flatMap_eq_nil_iff]
  intro s hs
  rcases List.mem_map.mp hs with ⟨⟨combined, number⟩, -, rfl⟩
  rfl

theorem flatMap_coverStages {β : Type} (f : Stage → List β) (c : Implicant.Cover) :
    (coverStages c).flatMap f =
      (if c.essential = [] then [] else f (.essential c.essential)) ++
        if c.additional = [] then [] else f (.additional c.additional) := by
  have hstage (l : List Implicant) (s : Stage) :
      (if l = [] then [] else [s]).flatMap f = if l = [] then [] else f s := by
    split
    · rfl
    · exact List.append_nil _
  rw [coverStages, List.flatMap_append, hstage, hstage]

theorem picks_coverStages (c : Implicant.Cover) :
    (coverStages c).flatMap Stage.picks = c.additional := by
  have hpicks (l : List Implicant) : (if l = [] then [] else l) = l := by
    split
    · rename_i hnil
      exact hnil.symm
    · rfl
  rw [flatMap_coverStages]
  show (if c.essential = [] then [] else []) ++ (if c.additional = [] then [] else c.additional) = _
  rw [ite_self, List.nil_append, hpicks]

theorem picked_ofRows (names : List String) (rows : List Nat) :
    (ofRows names rows).picked =
      if (primesOf names.length (rows.map Int.ofNat)).length = 1 then []
      else (chooseCover (primesOf names.length (rows.map Int.ofNat))
        (rows.map Int.ofNat)).additional := by
  unfold picked ofRows primesOf
  simp only [List.flatMap_append, picks_roundStages]
  split
  · rfl
  · rw [picks_coverStages]
    exact List.append_nil _

variable {names : List String} {table : List Bool}

theorem picked_eq_nil_iff (hlen : table.length = 2 ^ names.length) :
    (ofRows names (trueRows table)).picked = [] ↔
      (ofRows names (trueRows table)).primes.length = 1 ∨
        ∀ row ∈ onSet table, ∃ p, IsEssential names.length (onSet table) p ∧ row ∈ p.cube := by
  have hchoice := (TruthTable.isPrimeList_trueRows hlen).additional_eq_nil_iff
    (fun _ => TruthTable.mem_map_trueRows_iff)
    fun _ hrow => TruthTable.bounds_of_mem_onSet hlen hrow
  rw [picked_ofRows, ← hchoice]
  show _ ↔ (primesOf names.length ((trueRows table).map Int.ofNat)).length = 1 ∨ _
  split
  · rename_i hone
    exact iff_of_true rfl (.inl hone)
  · rename_i hmany
    exact (or_iff_right hmany).symm

theorem isEssential_of_picked_eq_nil (hlen : table.length = 2 ^ names.length)
    (htrue : true ∈ table) (hnone : (ofRows names (trueRows table)).picked = []) {x : Implicant}
    (hx : x ∈ (ofRows names (trueRows table)).selected) :
    IsEssential names.length (onSet table) x.bits := by
  have hprimes := TruthTable.isPrimeList_trueRows hlen
  have hbounds (row : Int) (hrow : row ∈ onSet table) := TruthTable.bounds_of_mem_onSet hlen hrow
  rw [picked_ofRows] at hnone
  rw [selected_ofRows] at hx
  split at hx
  · rename_i hone
    exact hprimes.isEssential_of_length_eq_one hbounds (TruthTable.onSet_nonempty htrue) hone hx
  · rename_i hmany
    rw [if_neg hmany] at hnone
    rw [Implicant.Cover.selected, hnone, List.append_nil] at hx
    exact hprimes.isEssential_of_mem_essentials
      (fun _ hrow => TruthTable.mem_map_trueRows_iff.mp hrow) hx

/-- Where nothing is picked beyond the essential implicants, no sum of products for the table has
fewer terms or fewer literals than the one selected. -/
theorem ofTable_minimum (names : List String) (table : List Bool)
    (hlen : table.length = 2 ^ names.length) (htrue : true ∈ table) (hfalse : false ∈ table) :
    ∃ m, ofTable names table = .ok m ∧
      (m.picked = [] ↔ m.primes.length = 1 ∨
        ∀ row ∈ onSet table, ∃ p, IsEssential names.length (onSet table) p ∧ row ∈ p.cube) ∧
      IsTermCover names.length (onSet table) (m.selected.map Implicant.bits) ∧
      (m.picked = [] → ∀ terms, IsTermCover names.length (onSet table) terms →
        m.selected.length ≤ terms.length ∧
          literalCount names (m.selected.map Implicant.bits) ≤ literalCount names terms) := by
  have hcover := isPrimeCover_ofRows hlen
  refine ⟨_, ofTable_eq_ofRows hlen htrue hfalse, picked_eq_nil_iff hlen, hcover.isTermCover, ?_⟩
  intro hnone terms hterms
  have hess : ∀ p ∈ (ofRows names (trueRows table)).selected.map Implicant.bits,
      IsEssential names.length (onSet table) p := by
    intro p hp
    rcases List.mem_map.mp hp with ⟨x, hx, rfl⟩
    exact isEssential_of_picked_eq_nil hlen htrue hnone hx
  apply And.intro
  · have hle := Pattern.length_le_of_isEssential hcover.nodup hess hterms
    rwa [List.length_map] at hle
  · rw [ProductTerm.literalCount_eq hcover.isTermCover.isTerm,
      ProductTerm.literalCount_eq hterms.isTerm]
    exact Pattern.sum_fixed_le_of_isEssential hcover.nodup hess hterms

-- Both prime implicants are essential, and nothing is picked.
theorem ofTable_minimum_or :
    ∃ m, ofTable ["A", "B"] [false, true, true, true] = .ok m ∧ m.picked = [] ∧
      ∀ terms, IsTermCover 2 (onSet [false, true, true, true]) terms →
        2 ≤ terms.length ∧ 2 ≤ literalCount ["A", "B"] terms := by
  rcases ofTable_minimum ["A", "B"] [false, true, true, true] (by decide) (by decide)
    (by decide) with ⟨m, hm, -, -, hminimum⟩
  have hrows : ofTable ["A", "B"] [false, true, true, true] =
      .ok (ofRows ["A", "B"] [1, 2, 3]) := rfl
  rw [hrows, Except.ok.injEq] at hm
  subst hm
  have hnone : (ofRows ["A", "B"] [1, 2, 3]).picked = [] := by decide +kernel
  have hlength : (ofRows ["A", "B"] [1, 2, 3]).selected.length = 2 := by decide +kernel
  have hliterals : literalCount ["A", "B"]
      ((ofRows ["A", "B"] [1, 2, 3]).selected.map Implicant.bits) = 2 := by decide +kernel
  have hle := hminimum hnone
  rw [hlength, hliterals] at hle
  exact ⟨_, hrows, hnone, hle⟩

end Minimisation

end TwoLevel
