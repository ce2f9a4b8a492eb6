import TwoLevel.Proofs.Narrowing
import TwoLevel.Proofs.RoundTrip

/-!
# Idle variables

A table in which some variables are idle has in every row the value of the row that is left without
their digits.  It is minimised like the table over the other variables: what is selected is free at
the idle places, so that the text is the same.  Main statement: putting one more variable, on which
nothing depends, among the variables of a table changes nothing but the dash at its place
(`ofTable_insertIdx`).
-/

namespace TwoLevel

namespace ProductTerm

theorem literals_spread (keep : List Bool) (bits : Pattern) (names : List String) :
    literals (bits.spread keep) names = literals bits (kept keep names) := by
  induction keep generalizing bits names with
  | nil => rfl
  | cons b keep ih =>
    cases names with
    | nil => simp [literals, kept]
    | cons name names =>
      cases b with
      | false =>
        rw [Pattern.spread, kept, literals_cons, ← ih]
        rfl
      | true =>
        cases bits with
        | nil => rfl
        | cons c bits => rw [Pattern.spread, kept, literals_cons, literals_cons, ih]

theorem renderSum_map_widen (keep : List Bool) (selected : List Implicant) (names : List String) :
    renderSum (selected.map (Implicant.widen keep)) names =
      renderSum selected (kept keep names) := by
  unfold renderSum
  rw [List.map_map]
  congr 1
  apply List.map_congr_left
  intro x _
  rw [Function.comp_apply, render, render, Implicant.bits_widen, literals_spread]

end ProductTerm

namespace TruthTable

variable {keep narrow table : List Bool}

/-- Every value is that of the narrower table in the row of the kept variables. -/
structure IsWidened (keep narrow table : List Bool) : Prop where
  length_narrow : narrow.length = 2 ^ keep.count true
  length_eq : table.length = 2 ^ keep.length
  getElem?_eq : ∀ n < 2 ^ keep.length, table[n]? = narrow[Pattern.project keep n]?

namespace IsWidened

theorem isLift (h : IsWidened keep narrow table) :
    Implicant.IsLift keep ((trueRows table).map Int.ofNat) ((trueRows narrow).map Int.ofNat) :=
  isLift_trueRows h.length_eq h.length_narrow h.getElem?_eq

theorem mem_iff (h : IsWidened keep narrow table) {b : Bool} : b ∈ table ↔ b ∈ narrow := by
  constructor
  · intro hb
    rcases List.mem_iff_getElem?.mp hb with ⟨n, hn⟩
    have hlt : n < 2 ^ keep.length := by
      rw [← h.length_eq]
      exact (List.getElem?_eq_some_iff.mp hn).1
    rw [h.getElem?_eq n hlt] at hn
    exact List.mem_of_getElem? hn
  · intro hb
    rcases List.mem_iff_getElem?.mp hb with ⟨n, hn⟩
    have hlt : n < 2 ^ keep.count true := by
      rw [← h.length_narrow]
      exact (List.getElem?_eq_some_iff.mp hn).1
    rw [← Pattern.project_embed hlt, ← h.getElem?_eq _ (Pattern.embed_lt keep n)] at hn
    exact List.mem_of_getElem? hn

end IsWidened

end TruthTable

namespace Minimisation

open Implicant (IsLift widen)
open TruthTable (IsWidened trueRows)

variable {keep narrow table : List Bool} {names : List String}

theorem text_widen {rows narrow : List Nat} (hnames : names.length = keep.length)
    (h : IsLift keep (rows.map Int.ofNat) (narrow.map Int.ofNat)) :
    (ofRows names rows).text = (ofRows (kept keep names) narrow).text := by
  rw [text_ofRows, selected_widen hnames (length_kept hnames) h, ProductTerm.renderSum_map_widen,
    text_ofRows]

theorem ofTable_replicate (names : List String) (value : Bool) :
    ofTable names (List.replicate (2 ^ names.length) value) =
      .ok (ofConstant names (trueRows (List.replicate (2 ^ names.length) value)) value) := by
  have hlen : (List.replicate (2 ^ names.length) value).length = 2 ^ names.length :=
    List.length_replicate
  unfold ofTable
  rw [TruthTable.rowCount_eq, if_neg (by simp [hlen])]
  cases value with
  | false =>
    have hnil : trueRows (List.replicate (2 ^ names.length) false) = [] := by
      rw [TruthTable.trueRows_eq_nil_iff]
      simp
    rw [if_pos hnil]
  | true =>
    have hsome : trueRows (List.replicate (2 ^ names.length) true) ≠ [] := by
      rw [ne_eq, TruthTable.trueRows_eq_nil_iff, not_not]
      simp
    have hall := TruthTable.length_trueRows_eq_iff.mpr
      (by simp : false ∉ List.replicate (2 ^ names.length) true)
    rw [hlen] at hall
    rw [if_neg hsome, if_pos hall]

/-- A table with idle variables has the minimised text of the table over the others, and what is
selected for it is free at the places of the idle ones. -/
theorem ofTable_widen (hnames : names.length = keep.length) (h : IsWidened keep narrow table) :
    ∃ m wide, ofTable (kept keep names) narrow = .ok m ∧ ofTable names table = .ok wide ∧
      wide.text = m.text ∧ wide.constant? = m.constant? ∧
      wide.selected = m.selected.map (widen keep) := by
  have hlen : narrow.length = 2 ^ (kept keep names).length := by
    rw [h.length_narrow, length_kept hnames]
  have hwide : table.length = 2 ^ names.length := by rw [h.length_eq, hnames]
  have hconstant (value : Bool) (hnot : (!value) ∉ narrow) :
      ∃ m wide, ofTable (kept keep names) narrow = .ok m ∧ ofTable names table = .ok wide ∧
        wide.text = m.text ∧ wide.constant? = m.constant? ∧
        wide.selected = m.selected.map (widen keep) := by
    rw [TruthTable.eq_replicate_of_not_mem hlen hnot,
      TruthTable.eq_replicate_of_not_mem hwide (fun hmem => hnot (h.mem_iff.mp hmem))]
    exact ⟨_, _, ofTable_replicate _ value, ofTable_replicate names value, rfl, rfl, rfl⟩
  by_cases htrue : true ∈ narrow
  · by_cases hfalse : false ∈ narrow
    · exact ⟨_, _, ofTable_eq_ofRows hlen htrue hfalse,
        ofTable_eq_ofRows hwide (h.mem_iff.mpr htrue) (h.mem_iff.mpr hfalse),
        text_widen hnames h.isLift, rfl, selected_widen hnames (length_kept hnames) h.isLift⟩
    · exact hconstant true hfalse
  · exact hconstant false htrue

end Minimisation

/-! ## One idle variable -/

/-- All places are kept but the one behind some number of them. -/
def allBut : Nat → Nat → List Bool
  | 0, later => false :: List.replicate later true
  | earlier + 1, later => true :: allBut earlier later

section AllBut

variable {α : Type} {earlier later : Nat}

theorem length_allBut (earlier later : Nat) :
    (allBut earlier later).length = earlier + later + 1 := by
  induction earlier with
  | zero => rw [allBut, List.length_cons, List.length_replicate, Nat.zero_add]
  | succ earlier ih =>
    rw [allBut, List.length_cons, ih]
    omega

theorem count_allBut (earlier later : Nat) :
    (allBut earlier later).count true = earlier + later := by
  induction earlier with
  | zero => rw [allBut, List.count_cons_of_ne (by decide), List.count_replicate_self, Nat.zero_add]
  | succ earlier ih =>
    rw [allBut, List.count_cons_self, ih]
    omega

theorem kept_replicate_true (l : List α) : kept (List.replicate l.length true) l = l := by
  induction l with
  | nil => rfl
  | cons a l ih => rw [List.length_cons, List.replicate_succ, kept, ih]

theorem kept_allBut_insertIdx {l : List α} (h : l.length = earlier + later) (a : α) :
    kept (allBut earlier later) (l.insertIdx earlier a) = l := by
  induction earlier generalizing l with
  | zero =>
    rw [Nat.zero_add] at h
    rw [List.insertIdx_zero, allBut, kept, ← h, kept_replicate_true]
  | succ earlier ih =>
    cases l with
    | nil =>
      rw [List.length_nil] at h
      omega
    | cons b l =>
      rw [List.length_cons] at h
      rw [List.insertIdx_succ_cons, allBut, kept, ih (by omega)]

end AllBut

namespace Pattern

variable {earlier later : Nat}

theorem spread_replicate_true (p : Pattern) : spread (List.replicate p.length true) p = p := by
  induction p with
  | nil => rfl
  | cons c p ih => rw [List.length_cons, List.replicate_succ, spread, ih]

theorem spread_allBut {p : Pattern} (h : p.length = earlier + later) :
    spread (allBut earlier later) p = p.insertIdx earlier '-' := by
  induction earlier generalizing p with
  | zero =>
    rw [Nat.zero_add] at h
    rw [List.insertIdx_zero, allBut, spread, ← h, spread_replicate_true]
  | succ earlier ih =>
    cases p with
    | nil =>
      rw [List.length_nil] at h
      omega
    | cons c p =>
      rw [List.length_cons] at h
      rw [List.insertIdx_succ_cons, allBut, spread, ih (by omega)]

/-- The number without its bit at a place, counted from the least significant: the bits above come
down by one. -/
def dropBit (place n : Nat) : Nat := n / 2 ^ (place + 1) * 2 ^ place + n % 2 ^ place

theorem project_replicate_true {n : Nat} (h : n < 2 ^ later) :
    project (List.replicate later true) n = n := by
  have hbits := kept_replicate_true (lowBits later n)
  rw [length_lowBits] at hbits
  rw [project, List.length_replicate, hbits, least_lowBits h]

theorem dropBit_of_lt {place n : Nat} (h : n < 2 ^ place) : dropBit place n = n := by
  have hhigh : n / 2 ^ (place + 1) = 0 :=
    Nat.div_eq_of_lt (Nat.lt_trans h (Nat.pow_lt_pow_succ (by decide)))
  rw [dropBit, hhigh, Nat.mod_eq_of_lt h, Nat.zero_mul, Nat.zero_add]

theorem dropBit_two_pow_add {place n : Nat} (h : n < 2 ^ place) :
    dropBit place (2 ^ place + n) = n := by
  have hhigh : (2 ^ place + n) / 2 ^ (place + 1) = 0 := by
    apply Nat.div_eq_of_lt
    rw [Nat.pow_succ]
    omega
  rw [dropBit, hhigh, Nat.add_mod_left, Nat.mod_eq_of_lt h, Nat.zero_mul, Nat.zero_add]

-- The bits above the place come down by one.
theorem dropBit_mul_add (place k n : Nat) :
    dropBit place (2 ^ (place + 1) * k + n) = 2 ^ place * k + dropBit place n := by
  have hhigh : (2 ^ (place + 1) * k + n) / 2 ^ (place + 1) = k + n / 2 ^ (place + 1) :=
    Nat.mul_add_div (Nat.two_pow_pos _) k n
  have hlow : (2 ^ (place + 1) * k + n) % 2 ^ place = n % 2 ^ place := by
    rw [Nat.pow_succ, Nat.mul_assoc, Nat.mul_add_mod]
  rw [dropBit, dropBit, hhigh, hlow, Nat.add_mul, Nat.mul_comm k, Nat.add_assoc]

/-- A row over all places is projected to the row without the bit of the dropped place. -/
theorem project_allBut {n : Nat} (h : n < 2 ^ (earlier + later + 1)) :
    project (allBut earlier later) n = dropBit later n := by
  -- the digits before the dropped place go one by one
  induction earlier generalizing n with
  | zero =>
    rw [Nat.zero_add] at h
    have hlen := List.length_replicate (n := later) (a := true)
    rw [allBut]
    by_cases hlt : n < 2 ^ later
    · rw [project_cons_of_lt (by rwa [hlen]), project_replicate_true hlt, dropBit_of_lt hlt]
    · rw [Nat.pow_succ] at h
      rcases Nat.exists_eq_add_of_le (Nat.le_of_not_lt hlt) with ⟨r, rfl⟩
      have hr : r < 2 ^ later := by omega
      have hrow : r < 2 ^ (List.replicate later true).length := by rwa [hlen]
      have hproject := project_add_two_pow hrow false
      rw [hlen, if_neg (by decide), Nat.zero_add] at hproject
      rw [hproject, project_replicate_true hr, dropBit_two_pow_add hr]
  | succ earlier ih =>
    have hlen := length_allBut earlier later
    rw [allBut]
    by_cases hlt : n < 2 ^ (earlier + later + 1)
    · rw [project_cons_of_lt (by rwa [hlen]), ih hlt]
    · have hsplit : 2 ^ (earlier + later + 1) = 2 ^ (later + 1) * 2 ^ earlier := by
        rw [← Nat.pow_add]
        congr 1
        omega
      rw [Nat.succ_add, Nat.pow_succ] at h
      rcases Nat.exists_eq_add_of_le (Nat.le_of_not_lt hlt) with ⟨r, rfl⟩
      have hr : r < 2 ^ (earlier + later + 1) := by omega
      have hrow : r < 2 ^ (allBut earlier later).length := by rwa [hlen]
      have hproject := project_add_two_pow hrow true
      rw [hlen, if_pos rfl, count_allBut] at hproject
      rw [hproject, ih hr, hsplit, dropBit_mul_add, ← Nat.pow_add, Nat.add_comm later]

end Pattern

namespace Minimisation

open Pattern (dropBit)
open TruthTable (IsWidened)

theorem length_bits_selected {names : List String} {table : List Bool} {m : Minimisation}
    (hlen : table.length = 2 ^ names.length) (hm : ofTable names table = .ok m) {y : Implicant}
    (hy : y ∈ m.selected) : y.bits.length = names.length := by
  rcases ofTable_cases hm with ⟨value, houtcome, -⟩ | ⟨rfl, -⟩
  · rw [selected, houtcome] at hy
    cases hy
  · exact ((isPrimeCover_ofRows hlen).isPrime y hy).isTerm.length_eq

/-- A further variable that the table does not depend on leaves the minimised text and the constant
as they are, and what is selected has a dash at its place. -/
theorem ofTable_insertIdx (names : List String) (table wide : List Bool) (p : Nat) (x : String)
    (hp : p ≤ names.length) (hlen : table.length = 2 ^ names.length)
    (hwide : wide.length = 2 ^ (names.length + 1))
    (hrows : ∀ n < 2 ^ (names.length + 1), wide[n]? = table[dropBit (names.length - p) n]?) :
    ∃ m w, ofTable names table = .ok m ∧ ofTable (names.insertIdx p x) wide = .ok w ∧
      w.text = m.text ∧ w.constant? = m.constant? ∧
      w.selected.map Implicant.bits = m.selected.map fun y => y.bits.insertIdx p '-' := by
  have hplaces : names.length = p + (names.length - p) := by omega
  have hlenKeep : (allBut p (names.length - p)).length = names.length + 1 := by
    rw [length_allBut, ← hplaces]
  have hcount : (allBut p (names.length - p)).count true = names.length := by
    rw [count_allBut, ← hplaces]
  have hkept : kept (allBut p (names.length - p)) (names.insertIdx p x) = names :=
    kept_allBut_insertIdx hplaces x
  have hwidened : IsWidened (allBut p (names.length - p)) table wide := by
    refine ⟨by rw [hcount, hlen], by rw [hlenKeep, hwide], ?_⟩
    intro n hn
    rw [hlenKeep] at hn
    rw [hrows n hn, Pattern.project_allBut (by rwa [← hplaces])]
  have hnames : (names.insertIdx p x).length = (allBut p (names.length - p)).length := by
    rw [hlenKeep, List.length_insertIdx_of_le_length hp]
  rcases ofTable_widen hnames hwidened with ⟨m, w, hm, hw, htext, hconstant, hselected⟩
  rw [hkept] at hm
  refine ⟨m, w, hm, hw, htext, hconstant, ?_⟩
  rw [hselected, List.map_map]
  apply List.map_congr_left
  intro y hy
  have hbits : y.bits.length = p + (names.length - p) := by
    rw [length_bits_selected hlen hm hy, ← hplaces]
  rw [Function.comp_apply, Implicant.bits_widen, Pattern.spread_allBut hbits]

-- Each row has two prime implicants here, so that the order of ties decides.
theorem ofTable_insertIdx_cyclic :
    ∃ m w, ofTable ["A", "B", "C"] [true, true, true, false, false, true, true, true] = .ok m ∧
      ofTable ["A", "X", "B", "C"] [true, true, true, false, true, true, true, false,
        false, true, true, true, false, true, true, true] = .ok w ∧
      m.text = "(NOT A AND NOT B) OR (B AND NOT C) OR (A AND C)" ∧
      w.text = "(NOT A AND NOT B) OR (B AND NOT C) OR (A AND C)" ∧
      m.constant? = none ∧ w.constant? = none ∧
      m.selected.map Implicant.bits = ["00-".toList, "-10".toList, "1-1".toList] ∧
      w.selected.map Implicant.bits = ["0-0-".toList, "--10".toList, "1--1".toList] := by
  rcases ofTable_insertIdx ["A", "B", "C"] [true, true, true, false, false, true, true, true]
    [true, true, true, false, true, true, true, false, false, true, true, true, false, true, true,
      true] 1 "X" (by decide) (by decide) (by decide) (by decide) with
    ⟨m, w, hm, hw, htext, hconstant, hbits⟩
  -- the narrow run is computed, and the theorem tells the wide one from it
  have hvalues : (ofTable ["A", "B", "C"] [true, true, true, false, false, true, true, true]).map
      (fun m => (m.text, m.constant?, m.selected.map Implicant.bits)) =
        .ok ("(NOT A AND NOT B) OR (B AND NOT C) OR (A AND C)", none,
          ["00-".toList, "-10".toList, "1-1".toList]) := by
    decide +kernel
  rw [hm] at hvalues
  simp only [Except.map, Except.ok.injEq, Prod.mk.injEq] at hvalues
  rcases hvalues with ⟨hmtext, hmconstant, hmbits⟩
  have hwbits : w.selected.map Implicant.bits =
      (m.selected.map Implicant.bits).map fun bits => bits.insertIdx 1 '-' := by
    rw [hbits, List.map_map]
    rfl
  rw [hmbits] at hwbits
  exact ⟨m, w, hm, hw, hmtext, htext.trans hmtext, hmconstant, hconstant.trans hmconstant, hmbits,
    hwbits⟩

end Minimisation

end TwoLevel
