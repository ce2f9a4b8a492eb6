import TwoLevel.Implicant.Cover
import TwoLevel.Proofs.DroppedPlaces
import TwoLevel.Proofs.PrimeImplicants

/-!
# Widening

A set of rows over the kept places makes a set over all places, of the rows that are projected into
it.  Its implicants reach over all of each dropped place, and so its prime implicants are those of
the smaller set, spread (`isPrime_lift_iff`).  Main statement: a widened implicant gains as many
times more rows for every dropped place as any other (`gain_widen`).
-/

namespace TwoLevel

namespace Pattern

variable {keep : List Bool} {width : Nat} {on : Set Int} {p q : Pattern}

/-! ## Prime implicants as the largest ones -/

theorem Admits.eq_or_free (h : q.Admits p) :
    q = p ∨ ∃ l c r, p = l ++ c :: r ∧ c ≠ '-' ∧ q.Admits (l ++ '-' :: r) := by
  induction h with
  | nil => exact .inl rfl
  | cons hcd htail ih =>
    rename_i c d q p
    by_cases heq : c = d
    · subst heq
      rcases ih with rfl | ⟨l, e, r, rfl, he, hadmits⟩
      · exact .inl rfl
      · exact .inr ⟨c :: l, e, r, rfl, he, List.Forall₂.cons (.inr rfl) hadmits⟩
    · rcases hcd with rfl | hcd
      · exact .inr ⟨[], d, p, rfl, Ne.symm heq, List.Forall₂.cons (.inl rfl) htail⟩
      · exact absurd hcd heq

/-- An implicant is prime if no other admits it. -/
theorem isPrime_iff_largest :
    IsPrime width on p ↔
      IsImplicant width on p ∧ ∀ q, IsImplicant width on q → q.Admits p → q = p := by
  apply Iff.intro
  · intro h
    refine ⟨h.toIsImplicant, ?_⟩
    intro q hq hadmits
    rcases hadmits.eq_or_free with rfl | ⟨l, c, r, rfl, hc, hfree⟩
    · rfl
    · have hinside := subset_trans (cube_subset_of_admits hfree) hq.inside
      have himp : IsImplicant width on (l ++ '-' :: r) :=
        ⟨h.isTerm.replace (.inr (.inr rfl)), hinside⟩
      exact absurd himp ((isPrime_iff.mp h).2 l c r rfl hc)
  · intro hboth
    rcases hboth with ⟨himp, hlargest⟩
    refine isPrime_iff.mpr ⟨himp, ?_⟩
    intro l c r hsplit hc hfree
    subst hsplit
    have heq := hlargest _ hfree (admits_free l r c)
    rw [List.append_cancel_left_eq, List.cons.injEq] at heq
    exact hc heq.1.symm

/-! ## Lifted sets -/

/-- The rows whose kept digits are those of a row in the set. -/
def lift (keep : List Bool) (on : Set Int) : Set Int :=
  {row | 0 ≤ row ∧ row < 2 ^ keep.length ∧ (project keep row.toNat : Int) ∈ on}

theorem mem_lift {row : Int} : row ∈ lift keep on ↔
    0 ≤ row ∧ row < 2 ^ keep.length ∧ (project keep row.toNat : Int) ∈ on := Iff.rfl

theorem natCast_mem_lift {n : Nat} (h : n < 2 ^ keep.length) :
    (n : Int) ∈ lift keep on ↔ (project keep n : Int) ∈ on := by
  have hbounds := natCast_bounds h
  rw [mem_lift, Int.toNat_natCast, and_iff_right hbounds.1, and_iff_right hbounds.2]

theorem embed_mem_lift {n : Nat} (h : n < 2 ^ keep.count true) :
    (embed keep n : Int) ∈ lift keep on ↔ (n : Int) ∈ on := by
  rw [natCast_mem_lift (embed_lt keep n), project_embed h]

theorem lift_mono {on' : Set Int} (h : on ⊆ on') : lift keep on ⊆ lift keep on' :=
  fun _ hrow => ⟨hrow.1, hrow.2.1, h hrow.2.2⟩

theorem cube_spread (hp : p.length = keep.count true) :
    (spread keep p).cube = lift keep p.cube := by
  ext row
  have hlt := (natCast_bounds (project_lt keep row.toNat)).2
  rw [← hp] at hlt
  rw [mem_cube, mem_lift, mem_cube, length_spread hp, admits_spread_iff (length_lowBits _ _),
    kept_lowBits, Int.toNat_natCast, and_iff_right (Int.natCast_nonneg _), and_iff_right hlt, hp]

/-! ## Implicants of a lifted set -/

theorem IsImplicant.spread (h : IsImplicant (keep.count true) on p) :
    IsImplicant keep.length (lift keep on) (spread keep p) := by
  refine ⟨h.isTerm.spread, ?_⟩
  rw [cube_spread h.isTerm.length_eq]
  exact lift_mono h.inside

theorem IsImplicant.kept (h : IsImplicant keep.length (lift keep on) p) :
    IsImplicant (keep.count true) on (kept keep p) := by
  have hterm := h.isTerm.kept
  refine ⟨hterm, ?_⟩
  intro row hrow
  rcases mem_cube.mp hrow with ⟨h0, hlt, hadmits⟩
  rw [hterm.length_eq] at hlt hadmits
  -- a row of the cube that has the kept digits of this row
  rcases exists_admits_of_kept h.isTerm (isDigits_lowBits _ _) hadmits with
    ⟨es, hdigits, hes, hkept⟩
  have hlen : es.length = keep.length := by
    rw [← h.isTerm.length_eq]
    exact hes.length_eq.symm
  rcases exists_lowBits_eq hdigits with ⟨n, hn, hbits⟩
  rw [hlen] at hn hbits
  have hproject : project keep n = row.toNat := by
    rw [project, hbits, hkept, least_lowBits (toNat_lt_two_pow h0 hlt)]
  have hcube : (n : Int) ∈ p.cube := by
    rwa [natCast_mem_cube h.isTerm.length_eq hn, hbits]
  have hrow := (natCast_mem_lift hn).mp (h.inside hcube)
  rwa [hproject, Int.toNat_of_nonneg h0] at hrow

/-- The prime implicants of a lifted set are those of the set, spread. -/
theorem isPrime_lift_iff : IsPrime keep.length (lift keep on) p ↔
    ∃ q, IsPrime (keep.count true) on q ∧ p = spread keep q := by
  rw [isPrime_iff_largest]
  apply Iff.intro
  · intro hboth
    rcases hboth with ⟨himp, hlargest⟩
    -- what is kept of an implicant, spread again, is an implicant that admits it
    have hspread : spread keep (kept keep p) = p := by
      refine hlargest _ himp.kept.spread ?_
      rw [admits_spread_iff himp.isTerm.length_eq]
      exact Admits.refl _
    refine ⟨kept keep p, isPrime_iff_largest.mpr ⟨himp.kept, ?_⟩, hspread.symm⟩
    intro q hq hadmits
    have heq := hlargest _ hq.spread ((admits_spread_iff himp.isTerm.length_eq).mpr hadmits)
    rw [← heq, kept_spread]
  · intro hex
    rcases hex with ⟨q, hprime, rfl⟩
    rcases isPrime_iff_largest.mp hprime with ⟨himp, hlargest⟩
    refine ⟨himp.spread, ?_⟩
    intro r hr hadmits
    have hkept := admits_kept keep hadmits
    rw [kept_spread] at hkept
    rw [← spread_kept_of_admits hadmits, hlargest _ hr.kept hkept]

end Pattern

namespace Implicant

open Pattern (lift project spread)

variable {keep : List Bool} {x y : Implicant}

/-! ## Widened implicants -/

/-- The set of the rows that are projected into a set. -/
def liftRows (keep : List Bool) (s : SortedSet Int) : SortedSet Int :=
  SortedSet.ofList <| ((List.range (2 ^ keep.length)).filter fun n =>
    (project keep n : Int) ∈ s).map Int.ofNat

theorem mem_liftRows {s : SortedSet Int} {row : Int} :
    row ∈ liftRows keep s ↔ row ∈ lift keep {row | row ∈ s} := by
  rw [liftRows, SortedSet.mem_ofList, List.mem_map]
  apply Iff.intro
  · intro hex
    rcases hex with ⟨n, hn, rfl⟩
    rw [List.mem_filter, List.mem_range, decide_eq_true_eq] at hn
    exact (Pattern.natCast_mem_lift hn.1).mpr hn.2
  · intro hrow
    rcases Pattern.mem_lift.mp hrow with ⟨h0, hlt, hproject⟩
    refine ⟨row.toNat, ?_, Int.toNat_of_nonneg h0⟩
    rw [List.mem_filter, List.mem_range, decide_eq_true_eq]
    exact ⟨Pattern.toNat_lt_two_pow h0 hlt, hproject⟩

theorem natCast_mem_liftRows {s : SortedSet Int} {n : Nat} (h : n < 2 ^ keep.length) :
    (n : Int) ∈ liftRows keep s ↔ (project keep n : Int) ∈ s := by
  rw [mem_liftRows, Pattern.natCast_mem_lift h]
  exact Iff.rfl

theorem liftRows_diff (s t : SortedSet Int) :
    liftRows keep (s \ t) = liftRows keep s \ liftRows keep t := by
  apply SortedSet.ext
  intro row
  rw [SortedSet.mem_diff, mem_liftRows, mem_liftRows, mem_liftRows]
  simp only [Pattern.mem_lift, Set.mem_ofPred, SortedSet.mem_diff]
  tauto

/-- The implicant over all places that is free at the dropped ones. -/
def widen (keep : List Bool) (x : Implicant) : Implicant :=
  ⟨spread keep x.bits, liftRows keep x.minterms⟩

@[simp]
theorem bits_widen (keep : List Bool) (x : Implicant) : (widen keep x).bits = spread keep x.bits :=
  rfl

@[simp]
theorem minterms_widen (keep : List Bool) (x : Implicant) :
    (widen keep x).minterms = liftRows keep x.minterms := rfl

theorem IsExact.widen (h : x.IsExact) (hlen : x.bits.length = keep.count true) :
    (widen keep x).IsExact := by
  have hset : {row | row ∈ x.minterms} = x.bits.cube := by
    ext row
    exact h row
  intro row
  rw [minterms_widen, mem_liftRows, hset, bits_widen, Pattern.cube_spread hlen]

theorem IsExact.eq_of_bits (hx : x.IsExact) (hy : y.IsExact) (h : x.bits = y.bits) : x = y := by
  have hminterms : x.minterms = y.minterms := by
    apply SortedSet.ext
    intro row
    rw [hx row, hy row, h]
  cases x
  cases y
  cases h
  cases hminterms
  rfl

/-! ## Gains -/

theorem common_eq_countP {s t : SortedSet Int} {n : Nat} (hs : ∀ row ∈ s, 0 ≤ row ∧ row < n) :
    s.common t = (List.range n).countP fun k : Nat => (k : Int) ∈ s ∧ (k : Int) ∈ t := by
  have hnodup := s.ascending.nodup
  have hcast : (List.range n).map Int.ofNat |>.Nodup :=
    List.nodup_range.map fun _ _ h => Int.ofNat.inj h
  have hperm : (s.toList.filter fun row => row ∈ t).Perm
      (((List.range n).map Int.ofNat).filter fun row => row ∈ s ∧ row ∈ t) := by
    rw [List.perm_ext_iff_of_nodup (hnodup.filter _) (hcast.filter _)]
    intro row
    rw [List.mem_filter, List.mem_filter, List.mem_map, decide_eq_true_eq, decide_eq_true_eq]
    apply Iff.intro
    · intro hboth
      rcases hs row hboth.1 with ⟨h0, hlt⟩
      have hrange : ∃ k ∈ List.range n, Int.ofNat k = row :=
        ⟨row.toNat, List.mem_range.mpr (by omega), Int.toNat_of_nonneg h0⟩
      exact ⟨hrange, hboth⟩
    · exact fun hboth => hboth.2
  rw [SortedSet.common, List.countP_eq_length_filter, hperm.length_eq,
    ← List.countP_eq_length_filter, List.countP_map]
  rfl

/-- Every row that an implicant gains is one that the widened implicant gains for each way to fill
the dropped places. -/
theorem gain_widen (hx : ∀ row ∈ x.minterms, 0 ≤ row ∧ row < 2 ^ keep.count true)
    (remaining : SortedSet Int) :
    gain (liftRows keep remaining) (widen keep x) =
      2 ^ keep.count false * gain remaining x := by
  have hcast := Pattern.natCast_two_pow (keep.count true)
  have hwide (row : Int) (hrow : row ∈ liftRows keep x.minterms) :
      0 ≤ row ∧ row < (2 ^ keep.length : Nat) := by
    rw [Pattern.natCast_two_pow]
    rcases Pattern.mem_lift.mp (mem_liftRows.mp hrow) with ⟨h0, hlt, -⟩
    exact ⟨h0, hlt⟩
  rw [gain, gain, minterms_widen, common_eq_countP hwide, common_eq_countP (by rwa [hcast]),
    ← Pattern.countP_project]
  apply List.countP_congr
  intro n hn
  rw [List.mem_range] at hn
  simp only [decide_eq_true_eq, natCast_mem_liftRows hn]

end Implicant

end TwoLevel
