import TwoLevel.Proofs.Combination
import TwoLevel.Proofs.Cube

/-!
# Groups and all pairs

A pass tries only implicants whose ones differ by one, and only the one with fewer ones as the
first.  Terms of one width combine in either order into the same, and they do so only if a zero
stands against a one, which puts them into neighbouring groups.  Main statement: a pass combines and
leaves over what trying every implicant with every other would (`pass_iff_pairs`).
-/

namespace TwoLevel

namespace Pattern

variable {width : Nat} {a b z : Pattern}

theorem merge?_symm (hlen : a.length = b.length) (h : merge? a b = some z) :
    merge? b a = some z := by
  rcases exists_split_of_merge? hlen h with ⟨l, c, d, r, rfl, rfl, rfl, hne, hc, hd⟩
  exact merge?_split l r hne.symm hd hc

theorem merge?_comm (hlen : a.length = b.length) : merge? a b = merge? b a := by
  apply Option.ext
  intro z
  exact ⟨merge?_symm hlen, merge?_symm hlen.symm⟩

/-- Terms that merge have ones that differ by one. -/
theorem ones_of_merge? (ha : IsTerm width a) (hb : IsTerm width b) (h : merge? a b = some z) :
    ones b = ones a + 1 ∨ ones a = ones b + 1 := by
  rcases exists_zero_one_of_merge? ha hb h with ⟨l, r, -, ⟨rfl, rfl⟩ | ⟨rfl, rfl⟩⟩
  · rw [ones_split, ones_split]
    exact .inl rfl
  · rw [ones_split, ones_split]
    exact .inr rfl

end Pattern

namespace Implicant

open Pattern (IsTerm)

variable {width : Nat} {xs : List Implicant} {x y z : Implicant}

/-! ## Combining in either order -/

theorem combine?_comm (hlen : x.bits.length = y.bits.length) : x.combine? y = y.combine? x := by
  have hunion : x.minterms ∪ y.minterms = y.minterms ∪ x.minterms := by
    apply SortedSet.ext
    intro row
    rw [SortedSet.mem_union, SortedSet.mem_union, or_comm]
  rw [combine?, combine?, Pattern.merge?_comm hlen, hunion]

theorem combine?_eq_none_iff : x.combine? y = none ↔ x.bits.merge? y.bits = none :=
  Option.map_eq_none_iff

/-! ## Merges of all pairs -/

/-- Implicants that combine are tried by the pass, in one order or the other. -/
theorem exists_merge_of_combine? (hterms : ∀ x ∈ xs, IsTerm width x.bits) (hx : x ∈ xs)
    (hy : y ∈ xs) (h : x.combine? y = some z) :
    ∃ m ∈ merges xs, m.merged = z ∧
      (m.lower = x ∧ m.upper = y ∨ m.lower = y ∧ m.upper = x) := by
  have hxterm := hterms x hx
  have hyterm := hterms y hy
  rcases Option.map_eq_some_iff.mp h with ⟨bits, hbits, -⟩
  rcases Pattern.ones_of_merge? hxterm hyterm hbits with hones | hones
  · exact ⟨⟨x, y, z⟩, mem_merges.mpr ⟨hx, hy, hones, h⟩, rfl, .inl ⟨rfl, rfl⟩⟩
  · rw [combine?_comm (hxterm.length_eq.trans hyterm.length_eq.symm)] at h
    exact ⟨⟨y, x, z⟩, mem_merges.mpr ⟨hy, hx, hones, h⟩, rfl, .inr ⟨rfl, rfl⟩⟩

theorem mem_map_bits_combined_iff (hterms : ∀ x ∈ xs, IsTerm width x.bits) {p : Pattern} :
    p ∈ (pass xs).combined.map bits ↔
      ∃ x ∈ xs, ∃ y ∈ xs, ∃ z, x.combine? y = some z ∧ z.bits = p := by
  rw [List.mem_map, exists_combined_iff]
  apply Iff.intro
  · intro hex
    rcases hex with ⟨m, hm, hbits⟩
    rcases mem_merges.mp hm with ⟨hl, hu, -, hcombine⟩
    exact ⟨m.lower, hl, m.upper, hu, m.merged, hcombine, hbits⟩
  · intro hex
    rcases hex with ⟨x, hx, y, hy, z, hcombine, hbits⟩
    rcases exists_merge_of_combine? hterms hx hy hcombine with ⟨m, hm, rfl, -⟩
    exact ⟨m, hm, hbits⟩

theorem mem_minterms_combined_iff_pairs (hterms : ∀ x ∈ xs, IsTerm width x.bits)
    (hz : z ∈ (pass xs).combined) {row : Int} :
    row ∈ z.minterms ↔ ∃ x ∈ xs, ∃ y ∈ xs, ∃ w, x.combine? y = some w ∧ w.bits = z.bits ∧
      (row ∈ x.minterms ∨ row ∈ y.minterms) := by
  rw [mem_minterms_combined_iff hz]
  apply Iff.intro
  · intro hex
    rcases hex with ⟨m, hm, hbits, hrow⟩
    rcases mem_merges.mp hm with ⟨hl, hu, -, hcombine⟩
    exact ⟨m.lower, hl, m.upper, hu, m.merged, hcombine, hbits,
      (mem_minterms_of_combine? hcombine).mp hrow⟩
  · intro hex
    rcases hex with ⟨x, hx, y, hy, w, hcombine, hbits, hrow⟩
    rcases exists_merge_of_combine? hterms hx hy hcombine with ⟨m, hm, rfl, -⟩
    exact ⟨m, hm, hbits, (mem_minterms_of_combine? hcombine).mpr hrow⟩

/-! ## Leftovers of all pairs -/

theorem mem_leftovers_iff_pairs (hterms : ∀ x ∈ xs, IsTerm width x.bits) (hx : x ∈ xs) :
    x ∈ (pass xs).leftovers ↔ ∀ y ∈ xs, x.combine? y = none := by
  rw [mem_leftovers_iff, and_iff_right hx]
  apply Iff.intro
  · intro hunused y hy
    cases hcombine : x.combine? y with
    | none => rfl
    | some z =>
      rcases exists_merge_of_combine? hterms hx hy hcombine with ⟨m, hm, -, hparents⟩
      rcases hparents with ⟨hl, -⟩ | ⟨-, hu⟩
      · exact absurd (congrArg bits hl) (hunused m hm).1
      · exact absurd (congrArg bits hu) (hunused m hm).2
  · intro hnone m hm
    rcases mem_merges.mp hm with ⟨hl, hu, -, hcombine⟩
    rcases Option.map_eq_some_iff.mp hcombine with ⟨p, hmerge, -⟩
    -- being used is told by the pattern, and combining depends on nothing else
    apply And.intro
    · intro hbits
      have habsent := combine?_eq_none_iff.mp (hnone m.upper hu)
      rw [← hbits, hmerge] at habsent
      cases habsent
    · intro hbits
      have hlen := (hterms _ hl).length_eq.trans (hterms _ hu).length_eq.symm
      have habsent := combine?_eq_none_iff.mp (hnone m.lower hl)
      rw [← hbits, Pattern.merge?_symm hlen hmerge] at habsent
      cases habsent

theorem leftovers_eq_filter (hterms : ∀ x ∈ xs, IsTerm width x.bits) :
    (pass xs).leftovers = xs.filter fun x => xs.all fun y => (x.combine? y).isNone := by
  show xs.filter _ = xs.filter _
  apply List.filter_congr
  intro x hx
  have hleft := mem_leftovers_iff_pairs hterms hx
  rw [pass, List.mem_filter, and_iff_right hx] at hleft
  rw [Bool.eq_iff_iff, hleft, List.all_eq_true]
  simp only [Option.isNone_iff_eq_none]

/-- A pass over terms of one width combines each pattern that two of them combine into, with the
minterms of all such pairs, and leaves over those that combine with none, in their order. -/
theorem pass_iff_pairs (width : Nat) (xs : List Implicant)
    (hterms : ∀ x ∈ xs, IsTerm width x.bits) :
    ((pass xs).combined.map bits).Nodup ∧
      (∀ p : Pattern, p ∈ (pass xs).combined.map bits ↔
        ∃ x ∈ xs, ∃ y ∈ xs, ∃ z, x.combine? y = some z ∧ z.bits = p) ∧
      (∀ z ∈ (pass xs).combined, ∀ row, row ∈ z.minterms ↔
        ∃ x ∈ xs, ∃ y ∈ xs, ∃ w, x.combine? y = some w ∧ w.bits = z.bits ∧
          (row ∈ x.minterms ∨ row ∈ y.minterms)) ∧
      (pass xs).leftovers = xs.filter fun x => xs.all fun y => (x.combine? y).isNone :=
  ⟨nodup_bits_combined xs, fun _ => mem_map_bits_combined_iff hterms,
    fun _ hz _ => mem_minterms_combined_iff_pairs hterms hz, leftovers_eq_filter hterms⟩

-- One pattern comes twice with different minterms; the pair is in the list with more ones first.
theorem pass_iff_pairs_repeated :
    (pass [⟨"11-".toList, .ofList [6]⟩, ⟨"01-".toList, .ofList [2]⟩, ⟨"000".toList, .ofList [0]⟩,
        ⟨"01-".toList, .ofList [3, 9]⟩]).leftovers = [⟨"000".toList, .ofList [0]⟩] ∧
      ∀ z ∈ (pass [⟨"11-".toList, .ofList [6]⟩, ⟨"01-".toList, .ofList [2]⟩,
        ⟨"000".toList, .ofList [0]⟩, ⟨"01-".toList, .ofList [3, 9]⟩]).combined,
        z.bits = "-1-".toList → 9 ∈ z.minterms := by
  rcases pass_iff_pairs 3 [⟨"11-".toList, .ofList [6]⟩, ⟨"01-".toList, .ofList [2]⟩,
    ⟨"000".toList, .ofList [0]⟩, ⟨"01-".toList, .ofList [3, 9]⟩] (by decide) with
    ⟨-, -, hminterms, hleftovers⟩
  apply And.intro
  · rw [hleftovers]
    decide
  · intro z hz hbits
    rw [hminterms z hz, hbits]
    exact ⟨⟨"11-".toList, .ofList [6]⟩, by simp, ⟨"01-".toList, .ofList [3, 9]⟩, by simp,
      ⟨"-1-".toList, .ofList [3, 6, 9]⟩, by decide, rfl, by decide⟩

end Implicant

end TwoLevel
