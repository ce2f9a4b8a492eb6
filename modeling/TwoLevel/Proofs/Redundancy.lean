import Mathlib.Data.List.Perm.Subperm
import Mathlib.Data.List.Sections
import TwoLevel.Proofs.Narrowing

/-!
# Redundant implicants

Picking never looks back, so that a later pick may cover what an earlier one was picked for.  Every
selected implicant covers a row that none before it covers; an essential implicant, one of the last
two and any over at most three variables cover a row that none of the others covers at all.  Main
statements: these rows (`ofTable_ownsRow`), and a table over four variables for which the first of
three picks comes to cover nothing of its own (`ofTable_redundant`).
-/

namespace TwoLevel

namespace SortedSet

-- A set that has a shared member more than another has more of them.
theorem common_lt_common {s t u : SortedSet Int} (hsub : ∀ a ∈ s, a ∈ u → a ∈ t) {a : Int}
    (hat : a ∈ t) (hau : a ∈ u) (has : a ∉ s) : s.common u < t.common u := by
  have hnodup : (s.toList.filter (· ∈ u)).Nodup := (s.ascending.imp ne_of_lt).filter _
  have hcons : (a :: s.toList.filter (· ∈ u)).Nodup :=
    List.nodup_cons.mpr ⟨fun hmem => has (List.mem_filter.mp hmem).1, hnodup⟩
  have hmem : a :: s.toList.filter (· ∈ u) ⊆ t.toList.filter (· ∈ u) := by
    intro b hb
    rcases List.mem_cons.mp hb with rfl | hb
    · exact List.mem_filter.mpr ⟨hat, by simpa using hau⟩
    · rcases List.mem_filter.mp hb with ⟨hbs, hbu⟩
      exact List.mem_filter.mpr ⟨hsub b hbs (by simpa using hbu), hbu⟩
  have hle := (List.subperm_of_subset hcons hmem).length_le
  rwa [List.length_cons, ← List.countP_eq_length_filter, ← List.countP_eq_length_filter] at hle

end SortedSet

namespace Implicant

open Pattern (IsEssential)

/-! ## Late picks -/

-- The widest implicant is not covered by another one that covers a further row.
theorem exists_row_of_gain_le {remaining : SortedSet Int} {x y : Implicant}
    (hle : gain remaining y ≤ gain remaining x) {row : Int} (hrow : row ∈ remaining)
    (hy : row ∈ y.minterms) (hx : row ∉ x.minterms) :
    ∃ r ∈ remaining, r ∈ x.minterms ∧ r ∉ y.minterms := by
  by_contra hnone
  push Not at hnone
  have hlt : gain remaining x < gain remaining y :=
    SortedSet.common_lt_common (fun r hr hleft => hnone r hleft hr) hy hrow hx
  omega

/-- The last two picks cover rows that were left and that no other pick covers. -/
theorem exists_own_row_of_late_pick {xs before after : List Implicant}
    {remaining : SortedSet Int} {taken : List Pattern} {x : Implicant}
    (h : greedy xs remaining taken = before ++ x :: after) (hlate : after.length ≤ 1) :
    ∃ row ∈ remaining, row ∈ x.minterms ∧ ∀ y ∈ before ++ after, row ∉ y.minterms := by
  cases after with
  | nil =>
    rw [List.append_nil]
    exact exists_own_row_of_greedy h
  | cons z rest =>
    rw [List.length_cons, Nat.succ_le_succ_iff, Nat.le_zero, List.length_eq_zero_iff] at hlate
    subst hlate
    rcases widest?_of_greedy_eq_cons (greedy_of_append h) with ⟨hfound, hlast⟩
    -- the last pick was there to be picked before, and it has a row that is left after `x`
    have hz : z ∈ xs.filter (·.bits ∉ (before.map bits).reverse ++ taken) := by
      have hmem := List.mem_singleton_self z
      rw [← hlast] at hmem
      rcases mem_greedy hmem with ⟨hzs, hfree⟩
      have hfree' : z.bits ∉ (before.map bits).reverse ++ taken :=
        fun hin => hfree (List.mem_cons_of_mem _ hin)
      exact mem_untaken.mpr ⟨hzs, hfree'⟩
    rcases exists_row_of_greedy_eq_cons hlast with ⟨row, hrow, hzrow⟩
    rcases SortedSet.mem_diff.mp hrow with ⟨hrow, hxrow⟩
    rcases exists_row_of_gain_le (gain_le_of_widest? hfound hz) hrow hzrow hxrow with
      ⟨r, hr, hxr, hzr⟩
    rcases SortedSet.mem_diff.mp hr with ⟨hremaining, hbefore⟩
    refine ⟨r, hremaining, hxr, ?_⟩
    intro y hy
    rcases List.mem_append.mp hy with hy | hy
    · exact fun hyr => hbefore (mem_coveredBy.mpr ⟨y, hy, hyr⟩)
    · rw [List.mem_singleton.mp hy]
      exact hzr

/-! ## Rows of one's own -/

/-- Covers a row of a set that none of some others cover. -/
def OwnsRow (on : Set Int) (others : List Implicant) (x : Implicant) : Prop :=
  ∃ row ∈ on, row ∈ x.bits.cube ∧ ∀ y ∈ others, row ∉ y.bits.cube

variable {width : Nat} {on : Set Int} {xs before after : List Implicant} {x : Implicant}

theorem OwnsRow.mono {ys zs : List Implicant} (h : x.OwnsRow on ys) (hsub : zs ⊆ ys) :
    x.OwnsRow on zs := by
  rcases h with ⟨row, hrow, hcube, hothers⟩
  exact ⟨row, hrow, hcube, fun y hy => hothers y (hsub hy)⟩

theorem IsPrimeCover.mem_others_iff (h : IsPrimeCover width on (before ++ x :: after))
    {y : Implicant} :
    y ∈ before ++ after ↔ y ∈ before ++ x :: after ∧ y.bits ≠ x.bits := by
  have hnodup := (List.perm_middle.map bits).nodup_iff.mp h.nodup
  rw [List.map_cons, List.nodup_cons] at hnodup
  rw [List.perm_middle.mem_iff, List.mem_cons]
  apply Iff.intro
  · intro hy
    exact ⟨.inr hy, fun heq => hnodup.1 (List.mem_map.mpr ⟨y, hy, heq⟩)⟩
  · rintro ⟨rfl | hy, hne⟩
    · exact absurd rfl hne
    · exact hy

theorem IsPrimeCover.ownsRow_of_isEssential (h : IsPrimeCover width on (before ++ x :: after))
    (hess : IsEssential width on x.bits) : x.OwnsRow on (before ++ after) := by
  rcases hess.sole with ⟨row, hrow, hcube, hsole⟩
  refine ⟨row, hrow, hcube, ?_⟩
  intro y hy hyrow
  rcases h.mem_others_iff.mp hy with ⟨hy, hne⟩
  exact hne (hsole y.bits (h.isPrime y hy) hyrow)

/-- Each implicant covers a row that no other of the list covers, as their minterms tell. -/
def IsIrredundant (xs : List Implicant) : Prop :=
  ∀ x ∈ xs, ∃ row ∈ x.minterms.toList, ∀ y ∈ xs, y.bits ≠ x.bits → row ∉ y.minterms

instance (xs : List Implicant) : Decidable (IsIrredundant xs) :=
  inferInstanceAs (Decidable (∀ x ∈ xs, _))

theorem IsPrimeCover.isIrredundant_iff (h : IsPrimeCover width on xs)
    (hexact : ∀ x ∈ xs, IsExact x) :
    IsIrredundant xs ↔
      ∀ before x after, xs = before ++ x :: after → x.OwnsRow on (before ++ after) := by
  apply Iff.intro
  · rintro hown before x after rfl
    have hx : x ∈ before ++ x :: after := List.mem_append_right _ List.mem_cons_self
    rcases hown x hx with ⟨row, hrow, hothers⟩
    have hcube := (hexact x hx row).mp hrow
    refine ⟨row, (h.isPrime x hx).inside hcube, hcube, ?_⟩
    intro y hy hyrow
    rcases h.mem_others_iff.mp hy with ⟨hy, hne⟩
    exact hothers y hy hne ((hexact y hy row).mpr hyrow)
  · intro hown x hx
    rcases List.append_of_mem hx with ⟨before, after, rfl⟩
    rcases hown before x after rfl with ⟨row, -, hcube, hothers⟩
    refine ⟨row, (hexact x hx row).mpr hcube, ?_⟩
    intro y hy hne hyrow
    exact hothers y (h.mem_others_iff.mpr ⟨hy, hne⟩) ((hexact y hy row).mp hyrow)

theorem exists_append_of_not_mem {α : Type} {l r before after : List α} {a : α}
    (h : l ++ r = before ++ a :: after) (ha : a ∉ l) :
    ∃ mid, before = l ++ mid ∧ r = mid ++ a :: after := by
  induction l generalizing before with
  | nil => exact ⟨before, rfl, h⟩
  | cons b l ih =>
    rw [List.mem_cons, not_or] at ha
    cases before with
    | nil =>
      rw [List.nil_append, List.cons_append, List.cons.injEq] at h
      exact absurd h.1.symm ha.1
    | cons c before =>
      rw [List.cons_append, List.cons_append, List.cons.injEq] at h
      rcases h with ⟨rfl, h⟩
      rcases ih h ha.2 with ⟨mid, rfl, hr⟩
      exact ⟨mid, rfl, hr⟩

/-- What is chosen covers rows that nothing chosen before covers, and the last two cover rows that
nothing else chosen covers. -/
theorem IsPrimeList.ownsRow_of_chooseCover (h : IsPrimeList width on xs) {rows : List Int}
    (hrows : ∀ row, row ∈ rows ↔ row ∈ on) (hon : ∀ row ∈ on, 0 ≤ row ∧ row < 2 ^ width)
    (hchosen : (chooseCover xs rows).selected = before ++ x :: after) :
    x.OwnsRow on before ∧ (after.length ≤ 1 → x.OwnsRow on (before ++ after)) := by
  have hcover := h.isPrimeCover_chooseCover hrows hon
  rw [hchosen] at hcover
  by_cases hess : x ∈ essentials xs rows
  · have hown := hcover.ownsRow_of_isEssential
      (h.isEssential_of_mem_essentials (fun row hrow => (hrows row).mp hrow) hess)
    exact ⟨hown.mono (List.subset_append_left before after), fun _ => hown⟩
  · rcases exists_append_of_not_mem hchosen hess with ⟨picks, rfl, hpicked⟩
    have hprime {y : Implicant} (hy : y ∈ picks ++ x :: after) : y ∈ xs := by
      rw [← hpicked] at hy
      exact (mem_greedy hy).1
    have hx : x ∈ xs := hprime (List.mem_append_right _ List.mem_cons_self)
    -- the rows that are left for picking are covered by no essential implicant
    have hown {others : List Implicant} (hothers : others ⊆ picks ++ x :: after)
        (hrow : ∃ row ∈ SortedSet.ofList rows \ coveredBy (essentials xs rows),
          row ∈ x.minterms ∧ ∀ y ∈ others, row ∉ y.minterms) :
        x.OwnsRow on (essentials xs rows ++ others) := by
      rcases hrow with ⟨row, hrow, hxrow, hfree⟩
      rcases SortedSet.mem_diff.mp hrow with ⟨hrow, hleft⟩
      rw [SortedSet.mem_ofList, hrows] at hrow
      refine ⟨row, hrow, (h.exact x hx row).mp hxrow, ?_⟩
      intro y hy hyrow
      rcases List.mem_append.mp hy with hy | hy
      · have hyrow := (h.exact y (mem_of_mem_essentials hy) row).mpr hyrow
        exact hleft (mem_coveredBy.mpr ⟨y, hy, hyrow⟩)
      · exact hfree y hy ((h.exact y (hprime (hothers hy)) row).mpr hyrow)
    apply And.intro
    · exact hown (List.subset_append_left _ _) (exists_own_row_of_greedy hpicked)
    · intro hlate
      rw [List.append_assoc]
      refine hown ?_ (exists_own_row_of_late_pick hpicked hlate)
      exact List.append_subset.mpr ⟨List.subset_append_left _ _,
        fun y hy => List.mem_append_right _ (List.mem_cons_of_mem x hy)⟩

end Implicant

namespace Minimisation

open Implicant (primesOf IsIrredundant)
open Pattern (IsEssential)
open TruthTable (onSet trueRows)

variable {names : List String} {table : List Bool}

theorem isExact_of_mem_selected (hlen : table.length = 2 ^ names.length) {x : Implicant}
    (hx : x ∈ (ofRows names (trueRows table)).selected) : x.IsExact := by
  have hprimes := TruthTable.isPrimeList_trueRows hlen
  rw [selected_ofRows] at hx
  split at hx
  · exact hprimes.exact x hx
  · exact hprimes.exact x (Implicant.mem_selected hx)

theorem mem_sections_replicate (table : List Bool) :
    table ∈ (List.replicate table.length [false, true]).sections := by
  rw [List.mem_sections]
  induction table with
  | nil => exact List.Forall₂.nil
  | cons b table ih =>
    refine List.Forall₂.cons ?_ ih
    cases b <;> decide

-- There are few enough tables over three variables to look at each.
theorem isIrredundant_selected_of_lt_four : ∀ n < 4,
    ∀ table ∈ (List.replicate (2 ^ n) [false, true]).sections,
      IsIrredundant (ofRows (List.replicate n "") (trueRows table)).selected := by
  decide +kernel

variable {before after : List Implicant} {x : Implicant}

theorem ownsRow_of_length_le_three (hlen : table.length = 2 ^ names.length)
    (hfew : names.length ≤ 3)
    (hselected : (ofRows names (trueRows table)).selected = before ++ x :: after) :
    x.OwnsRow (onSet table) (before ++ after) := by
  have hall := isIrredundant_selected_of_lt_four names.length (by omega) table
    (hlen ▸ mem_sections_replicate table)
  have hsame : (ofRows (List.replicate names.length "") (trueRows table)).selected =
      (ofRows names (trueRows table)).selected := by
    rw [selected_ofRows, selected_ofRows, List.length_replicate]
  rw [hsame, (isPrimeCover_ofRows hlen).isIrredundant_iff
    fun x hx => isExact_of_mem_selected hlen hx] at hall
  exact hall before x after hselected

theorem ownsRow_ofRows (hlen : table.length = 2 ^ names.length) (htrue : true ∈ table)
    (hselected : (ofRows names (trueRows table)).selected = before ++ x :: after) :
    x.OwnsRow (onSet table) before ∧
      (after.length ≤ 1 → x.OwnsRow (onSet table) (before ++ after)) := by
  have hprimes := TruthTable.isPrimeList_trueRows hlen
  have hbounds (row : Int) (hrow : row ∈ onSet table) := TruthTable.bounds_of_mem_onSet hlen hrow
  have hcover := isPrimeCover_ofRows hlen
  rw [hselected] at hcover
  rw [selected_ofRows] at hselected
  split at hselected
  · rename_i hone
    have hx : x ∈ primesOf names.length ((trueRows table).map Int.ofNat) := by
      rw [hselected]
      exact List.mem_append_right _ List.mem_cons_self
    have hown := hcover.ownsRow_of_isEssential (hprimes.isEssential_of_length_eq_one hbounds
      (TruthTable.onSet_nonempty htrue) hone hx)
    exact ⟨hown.mono (List.subset_append_left before after), fun _ => hown⟩
  · exact hprimes.ownsRow_of_chooseCover (fun _ => TruthTable.mem_map_trueRows_iff) hbounds
      hselected

/-- Every selected implicant covers a true row that none selected before it covers.  If it is
essential, one of the last two, or over at most three variables, it covers a true row that no other
selected implicant covers. -/
theorem ofTable_ownsRow (names : List String) (table : List Bool)
    (hlen : table.length = 2 ^ names.length) (htrue : true ∈ table) (hfalse : false ∈ table) :
    ∃ m, ofTable names table = .ok m ∧ ∀ before x after, m.selected = before ++ x :: after →
      x.OwnsRow (onSet table) before ∧
      (IsEssential names.length (onSet table) x.bits ∨ after.length ≤ 1 ∨ names.length ≤ 3 →
        x.OwnsRow (onSet table) (before ++ after)) := by
  refine ⟨_, ofTable_eq_ofRows hlen htrue hfalse, ?_⟩
  intro before x after hselected
  rcases ownsRow_ofRows hlen htrue hselected with ⟨hbefore, hlast⟩
  refine ⟨hbefore, ?_⟩
  rintro (hess | hlate | hfew)
  · have hcover := isPrimeCover_ofRows hlen
    rw [hselected] at hcover
    exact hcover.ownsRow_of_isEssential hess
  · exact hlast hlate
  · exact ownsRow_of_length_le_three hlen hfew hselected

theorem ofTable_ownsRow_cyclic :
    ∃ m, ofTable ["A", "B", "C"] [true, true, true, false, false, true, true, true] = .ok m ∧
      ∀ before x after, m.selected = before ++ x :: after →
        x.OwnsRow (onSet [true, true, true, false, false, true, true, true]) (before ++ after) := by
  rcases ofTable_ownsRow ["A", "B", "C"] [true, true, true, false, false, true, true, true]
    (by decide) (by decide) (by decide) with ⟨m, hm, hown⟩
  refine ⟨m, hm, ?_⟩
  intro before x after hselected
  exact (hown before x after hselected).2 (.inr (.inr (by decide)))

/-- Of the three picks for this table the first covers two rows that are left, and each of the later
ones covers one of them again. -/
theorem ofTable_redundant :
    ∃ m, ofTable ["A", "B", "C", "D"] [false, true, false, false, true, true, true, true,
        false, true, true, true, true, false, true, true] = .ok m ∧
      ∃ before x after, m.selected = before ++ x :: after ∧
        ¬x.OwnsRow (onSet [false, true, false, false, true, true, true, true,
          false, true, true, true, true, false, true, true]) (before ++ after) := by
  have hlen : [false, true, false, false, true, true, true, true, false, true, true, true, true,
      false, true, true].length = 2 ^ ["A", "B", "C", "D"].length := rfl
  have hredundant : ¬IsIrredundant (ofRows ["A", "B", "C", "D"] (trueRows [false, true, false,
      false, true, true, true, true, false, true, true, true, true, false, true,
      true])).selected := by
    decide +kernel
  rw [(isPrimeCover_ofRows hlen).isIrredundant_iff
    fun x hx => isExact_of_mem_selected hlen hx] at hredundant
  push Not at hredundant
  rcases hredundant with ⟨before, x, after, hselected, hnone⟩
  exact ⟨_, ofTable_eq_ofRows hlen (by decide) (by decide), before, x, after, hselected, hnone⟩

end Minimisation

end TwoLevel
