import TwoLevel.Implicant.Cover
import TwoLevel.Proofs.Combination

/-!
# What a pass keeps

A pass tells by the pattern alone whether an implicant took part in a merge, while the minterms are
its own.  No minterm is lost by that, because partners are found by the pattern too: each copy of a
parent makes a merge of its own with the same partner, and these merges end in one combined
implicant.  Main statement: a pass keeps the minterms of any list, and the copies of a pattern are
either all left over or all merged (`pass_conserved`).  Nothing is assumed about the characters, the
lengths or the minterms.
-/

namespace TwoLevel

namespace Implicant

variable {xs : List Implicant} {x : Implicant} {m : Merge} {p : Pattern} {row : Int}

/-! ## Copies of a parent -/

/-- An implicant with the pattern of a parent meets the same partner and makes the same pattern. -/
theorem exists_merge_of_parent (hm : m ∈ merges xs) (hx : x ∈ xs)
    (hparent : m.lower.bits = x.bits ∨ m.upper.bits = x.bits) :
    ∃ m' ∈ merges xs, (m'.lower = x ∨ m'.upper = x) ∧ m'.merged.bits = m.merged.bits := by
  obtain ⟨hl, hu, hones, hcombine⟩ := mem_merges.mp hm
  obtain ⟨q, hq, hmerged⟩ := Option.map_eq_some_iff.mp hcombine
  rw [← hmerged]
  rcases hparent with hlower | hupper
  · have hxones : m.upper.ones = x.ones + 1 := by
      rw [hones, ones, ones, hlower]
    have hxcombine : x.combine? m.upper = some ⟨q, x.minterms ∪ m.upper.minterms⟩ := by
      rw [combine?, ← hlower, hq, Option.map_some]
    exact ⟨⟨x, m.upper, _⟩, mem_merges.mpr ⟨hx, hu, hxones, hxcombine⟩, .inl rfl, rfl⟩
  · have hxones : x.ones = m.lower.ones + 1 := by
      rw [← hones, ones, ones, hupper]
    have hxcombine : m.lower.combine? x = some ⟨q, m.lower.minterms ∪ x.minterms⟩ := by
      rw [combine?, ← hupper, hq, Option.map_some]
    exact ⟨⟨m.lower, x, _⟩, mem_merges.mpr ⟨hl, hx, hxones, hxcombine⟩, .inr rfl, rfl⟩

theorem mem_minterms_of_parent {z : Implicant} (hz : z ∈ (pass xs).combined) (hm : m ∈ merges xs)
    (hparent : m.lower = x ∨ m.upper = x) (hbits : m.merged.bits = z.bits)
    (hrow : row ∈ x.minterms) : row ∈ z.minterms := by
  refine (mem_minterms_combined_iff hz).mpr ⟨m, hm, hbits, ?_⟩
  rw [mem_minterms_of_combine? (mem_merges.mp hm).2.2.2]
  rcases hparent with rfl | rfl
  · exact .inl hrow
  · exact .inr hrow

/-! ## Left over or merged -/

/-- Every implicant of the pattern is left over, and none takes part in a merge. -/
structure IsKept (xs : List Implicant) (p : Pattern) : Prop where
  leftovers : (pass xs).leftovers.filter (·.bits = p) = xs.filter (·.bits = p)
  unused : ∀ m ∈ merges xs, m.lower.bits ≠ p ∧ m.upper.bits ≠ p

/-- No implicant of the pattern is left over.  Each is a parent of a merge that ends in the combined
implicant, which has all their minterms. -/
structure IsMergedInto (xs : List Implicant) (p : Pattern) (z : Implicant) : Prop where
  leftovers : (pass xs).leftovers.filter (·.bits = p) = []
  combined : z ∈ (pass xs).combined
  parent : ∀ x ∈ xs, x.bits = p →
    ∃ m ∈ merges xs, (m.lower = x ∨ m.upper = x) ∧ m.merged.bits = z.bits
  minterms : ∀ x ∈ xs, x.bits = p → ∀ row ∈ x.minterms, row ∈ z.minterms

theorem isKept_of_unused (h : ∀ m ∈ merges xs, m.lower.bits ≠ p ∧ m.upper.bits ≠ p) :
    IsKept xs p := by
  refine ⟨?_, h⟩
  show (xs.filter _).filter _ = _
  rw [List.filter_filter]
  apply List.filter_congr
  intro x hx
  by_cases hxp : x.bits = p
  · have hleft : x ∈ (pass xs).leftovers := mem_leftovers_iff.mpr ⟨hx, hxp ▸ h⟩
    rw [pass, List.mem_filter] at hleft
    rw [hleft.2, Bool.and_true]
  · rw [decide_eq_false hxp, Bool.false_and]

theorem exists_isMergedInto (hm : m ∈ merges xs) (hparent : m.lower.bits = p ∨ m.upper.bits = p) :
    ∃ z, IsMergedInto xs p z := by
  obtain ⟨z, hz, hbits⟩ := exists_combined_iff.mpr ⟨m, hm, rfl⟩
  have hparents (x : Implicant) (hx : x ∈ xs) (hxp : x.bits = p) :
      ∃ m' ∈ merges xs, (m'.lower = x ∨ m'.upper = x) ∧ m'.merged.bits = z.bits := by
    rw [hbits]
    subst hxp
    exact exists_merge_of_parent hm hx hparent
  refine ⟨z, ?_, hz, hparents, ?_⟩
  · rw [List.filter_eq_nil_iff]
    intro x hx hxp
    have hunused := (mem_leftovers_iff.mp hx).2 m hm
    rw [decide_eq_true_eq.mp hxp] at hunused
    exact hparent.elim hunused.1 hunused.2
  · intro x hx hxp row hrow
    obtain ⟨m', hm', hx', hbits'⟩ := hparents x hx hxp
    exact mem_minterms_of_parent hz hm' hx' hbits' hrow

/-- The implicants of one pattern share their fate. -/
theorem isKept_or_exists_isMergedInto (xs : List Implicant) (p : Pattern) :
    IsKept xs p ∨ ∃ z, IsMergedInto xs p z := by
  by_cases hused : ∃ m ∈ merges xs, m.lower.bits = p ∨ m.upper.bits = p
  · obtain ⟨m, hm, hparent⟩ := hused
    exact .inr (exists_isMergedInto hm hparent)
  · push Not at hused
    exact .inl (isKept_of_unused hused)

/-- The minterms of an implicant that is not left over are all in one combined implicant. -/
theorem exists_combined_of_not_mem_leftovers (hx : x ∈ xs) (hused : x ∉ (pass xs).leftovers) :
    ∃ z ∈ (pass xs).combined, ∀ row ∈ x.minterms, row ∈ z.minterms := by
  rcases isKept_or_exists_isMergedInto xs x.bits with hkept | ⟨z, hz⟩
  · exact absurd (mem_leftovers_iff.mpr ⟨hx, hkept.unused⟩) hused
  · exact ⟨z, hz.combined, hz.minterms x hx rfl⟩

/-! ## Minterms -/

theorem mem_coveredBy_append {ys : List Implicant} :
    row ∈ coveredBy (xs ++ ys) ↔ row ∈ coveredBy xs ∨ row ∈ coveredBy ys := by
  simp only [mem_coveredBy, List.mem_append, or_and_right, exists_or]

/-- A pass keeps the minterms of any list. -/
theorem mem_coveredBy_pass_iff :
    row ∈ coveredBy ((pass xs).leftovers ++ (pass xs).combined) ↔ row ∈ coveredBy xs := by
  rw [mem_coveredBy_append, mem_coveredBy, mem_coveredBy, mem_coveredBy]
  apply Iff.intro
  · rintro (⟨x, hx, hrow⟩ | ⟨z, hz, hrow⟩)
    · exact ⟨x, (mem_leftovers_iff.mp hx).1, hrow⟩
    · rcases (mem_minterms_combined_iff hz).mp hrow with ⟨m, hm, -, hmerged⟩
      rcases mem_merges.mp hm with ⟨hl, hu, -, hcombine⟩
      rcases (mem_minterms_of_combine? hcombine).mp hmerged with hlower | hupper
      · exact ⟨m.lower, hl, hlower⟩
      · exact ⟨m.upper, hu, hupper⟩
  · intro hex
    rcases hex with ⟨x, hx, hrow⟩
    by_cases hleft : x ∈ (pass xs).leftovers
    · exact .inl ⟨x, hleft, hrow⟩
    · rcases exists_combined_of_not_mem_leftovers hx hleft with ⟨z, hz, hall⟩
      exact .inr ⟨z, hz, hall row hrow⟩

/-- A pass over any list keeps its minterms.  The combined implicants have distinct patterns, what
is left over keeps its order, and what is not left over is in one combined implicant with all other
copies of its pattern. -/
theorem pass_conserved (xs : List Implicant) :
    coveredBy ((pass xs).leftovers ++ (pass xs).combined) = coveredBy xs ∧
      ((pass xs).combined.map bits).Nodup ∧
      (pass xs).leftovers.Sublist xs ∧
      (∀ x ∈ xs, x ∉ (pass xs).leftovers →
        ∃ z ∈ (pass xs).combined, ∀ row ∈ x.minterms, row ∈ z.minterms) ∧
      ∀ p : Pattern, IsKept xs p ∨ ∃ z, IsMergedInto xs p z := by
  refine ⟨?_, nodup_bits_combined xs, List.filter_sublist, ?_, isKept_or_exists_isMergedInto xs⟩
  · apply SortedSet.ext
    intro row
    exact mem_coveredBy_pass_iff
  · intro x hx hused
    exact exists_combined_of_not_mem_leftovers hx hused

-- Patterns of three lengths meet, one of them with a letter, and the copies of `0` merge with `1x`.
theorem pass_conserved_copies :
    ∃ z ∈ (pass [⟨"0".toList, .ofList [1]⟩, ⟨"--0".toList, .ofList [5]⟩,
        ⟨"1x".toList, .ofList [2]⟩, ⟨"0".toList, .ofList [7, 8]⟩]).combined,
      ∀ row ∈ SortedSet.ofList [7, 8], row ∈ z.minterms := by
  obtain ⟨-, -, -, hmerged, -⟩ := pass_conserved [⟨"0".toList, .ofList [1]⟩,
    ⟨"--0".toList, .ofList [5]⟩, ⟨"1x".toList, .ofList [2]⟩, ⟨"0".toList, .ofList [7, 8]⟩]
  exact hmerged ⟨"0".toList, .ofList [7, 8]⟩ (by simp) (by decide)

end Implicant

end TwoLevel
