import Mathlib.Data.List.Induction
import Mathlib.Data.List.Nodup
import Mathlib.Tactic.Tauto
import TwoLevel.Implicant.Combination

/-!
# What a combination pass makes

Merges of one pattern are kept as one implicant, in the place of the first, with the minterms of
all.  Main statements: the combined implicants have distinct patterns, these are the patterns of the
merges (`exists_combined_iff`), with their minterms (`holds_combined_iff`), and the leftovers are
the implicants whose pattern is in no merge (`mem_leftovers_iff`).  Nothing is assumed about the
characters or the lengths of the patterns.
-/

namespace TwoLevel

namespace Implicant

/-! ## One implicant for each pattern -/

theorem mem_of_mem_go {x : Implicant} {xs : List Implicant} {seen : List Pattern}
    (h : x ∈ distinct.go seen xs) : x ∈ xs ∧ x.bits ∉ seen := by
  induction xs generalizing seen with
  | nil => cases h
  | cons y ys ih =>
    unfold distinct.go at h
    split at h
    · rcases ih h with ⟨hmem, hseen⟩
      exact ⟨List.mem_cons_of_mem y hmem, hseen⟩
    · rename_i hy
      rcases List.mem_cons.mp h with rfl | h
      · exact ⟨List.mem_cons_self, hy⟩
      · rcases ih h with ⟨hmem, hseen⟩
        exact ⟨List.mem_cons_of_mem y hmem, fun hx => hseen (List.mem_cons_of_mem _ hx)⟩

theorem go_sublist (xs : List Implicant) (seen : List Pattern) :
    (distinct.go seen xs).Sublist xs := by
  induction xs generalizing seen with
  | nil => exact List.Sublist.slnil
  | cons y ys ih =>
    unfold distinct.go
    split
    · exact (ih seen).cons y
    · exact (ih _).cons_cons y

theorem nodup_bits_go (xs : List Implicant) (seen : List Pattern) :
    ((distinct.go seen xs).map bits).Nodup := by
  induction xs generalizing seen with
  | nil => exact List.nodup_nil
  | cons y ys ih =>
    unfold distinct.go
    split
    · exact ih seen
    · have hlater : y.bits ∉ (distinct.go (y.bits :: seen) ys).map bits := by
        intro hy
        rcases List.mem_map.mp hy with ⟨x, hx, hbits⟩
        have hseen := (mem_of_mem_go hx).2
        rw [hbits] at hseen
        exact hseen List.mem_cons_self
      rw [List.map_cons, List.nodup_cons]
      exact ⟨hlater, ih _⟩

theorem exists_mem_go {p : Pattern} {xs : List Implicant} {seen : List Pattern}
    (h : ∃ x ∈ xs, x.bits = p) (hp : p ∉ seen) : ∃ x ∈ distinct.go seen xs, x.bits = p := by
  induction xs generalizing seen with
  | nil =>
    rcases h with ⟨x, hx, -⟩
    cases hx
  | cons y ys ih =>
    rcases h with ⟨x, hx, hbits⟩
    unfold distinct.go
    split
    · rename_i hy
      rcases List.mem_cons.mp hx with rfl | hx
      · exact absurd (hbits ▸ hy) hp
      · exact ih ⟨x, hx, hbits⟩ hp
    · -- `y` is kept: it is the one that is looked for, or the search goes on behind it
      by_cases hyp : y.bits = p
      · exact ⟨y, List.mem_cons_self, hyp⟩
      · rcases List.mem_cons.mp hx with rfl | hx
        · exact absurd hbits hyp
        · have hseen : p ∉ y.bits :: seen := by
            intro hmem
            rcases List.mem_cons.mp hmem with h | h
            · exact hyp h.symm
            · exact hp h
          rcases ih ⟨x, hx, hbits⟩ hseen with ⟨z, hz, hzp⟩
          exact ⟨z, List.mem_cons_of_mem y hz, hzp⟩

theorem mem_of_mem_distinct {x : Implicant} {xs : List Implicant} (h : x ∈ distinct xs) :
    x ∈ xs := (mem_of_mem_go h).1

theorem distinct_sublist (xs : List Implicant) : (distinct xs).Sublist xs := go_sublist xs []

theorem nodup_bits_distinct (xs : List Implicant) : ((distinct xs).map bits).Nodup :=
  nodup_bits_go xs []

theorem exists_mem_distinct_iff {p : Pattern} {xs : List Implicant} :
    (∃ x ∈ distinct xs, x.bits = p) ↔ ∃ x ∈ xs, x.bits = p := by
  apply Iff.intro
  · intro hex
    rcases hex with ⟨x, hx, hbits⟩
    exact ⟨x, mem_of_mem_distinct hx, hbits⟩
  · intro h
    exact exists_mem_go h List.not_mem_nil

/-! ## Absorbing -/

/-- An implicant of the list has the pattern and, among its minterms, the row. -/
def Holds (xs : List Implicant) (p : Pattern) (row : Int) : Prop :=
  ∃ x ∈ xs, x.bits = p ∧ row ∈ x.minterms

theorem holds_cons_iff {x : Implicant} {xs : List Implicant} {p : Pattern} {row : Int} :
    Holds (x :: xs) p row ↔ (x.bits = p ∧ row ∈ x.minterms) ∨ Holds xs p row := by
  simp [Holds]

theorem eraseDups_concat {β : Type} [BEq β] [LawfulBEq β] (l : List β) (b : β) :
    (l ++ [b]).eraseDups = if b ∈ l then l.eraseDups else l.eraseDups ++ [b] := by
  rw [List.eraseDups_append, List.removeAll]
  by_cases h : b ∈ l
  · rw [List.filter_cons_of_neg (by simpa using h), if_pos h]
    exact List.append_nil _
  · rw [List.filter_cons_of_pos (by simpa using h), if_neg h]
    rfl

theorem map_bits_absorb (x : Implicant) (ys : List Implicant) :
    (absorb x ys).map bits =
      if x.bits ∈ ys.map bits then ys.map bits else ys.map bits ++ [x.bits] := by
  induction ys with
  | nil => rfl
  | cons y ys ih =>
    unfold absorb
    split
    · rename_i h
      rw [if_pos (by simp [h])]
      rfl
    · rename_i h
      have hmem : x.bits ∈ (y :: ys).map bits ↔ x.bits ∈ ys.map bits := by
        rw [List.map_cons, List.mem_cons]
        exact or_iff_right fun e => h e.symm
      rw [List.map_cons, ih]
      simp only [hmem]
      split <;> rfl

theorem nodup_bits_absorb {ys : List Implicant} (h : (ys.map bits).Nodup) (x : Implicant) :
    ((absorb x ys).map bits).Nodup := by
  rw [map_bits_absorb]
  split
  · exact h
  · rename_i hx
    have hfirst : (x.bits :: ys.map bits).Nodup := List.nodup_cons.mpr ⟨hx, h⟩
    exact (List.perm_append_singleton x.bits (ys.map bits)).nodup_iff.mpr hfirst

theorem holds_absorb_iff {x : Implicant} {ys : List Implicant} {p : Pattern} {row : Int} :
    Holds (absorb x ys) p row ↔ (x.bits = p ∧ row ∈ x.minterms) ∨ Holds ys p row := by
  induction ys with
  | nil => exact holds_cons_iff
  | cons y ys ih =>
    unfold absorb
    split
    · rename_i h
      rw [holds_cons_iff, holds_cons_iff, SortedSet.mem_union, h]
      tauto
    · rw [holds_cons_iff, holds_cons_iff, ih]
      tauto

/-! ## The combined implicants and the leftovers -/

theorem mem_minterms_of_combine? {x y z : Implicant} (h : x.combine? y = some z) {row : Int} :
    row ∈ z.minterms ↔ row ∈ x.minterms ∨ row ∈ y.minterms := by
  rcases Option.map_eq_some_iff.mp h with ⟨bits, -, rfl⟩
  exact SortedSet.mem_union

-- The combined implicants are absorbed one by one, so each fact about them is proved for any list
-- that absorbs the merges and is read off at the empty one.
theorem map_bits_combined (xs : List Implicant) :
    (pass xs).combined.map bits = ((merges xs).map (·.merged.bits)).eraseDups := by
  have key (ms : List Merge) : (ms.foldl (fun acc m => absorb m.merged acc) []).map bits =
      (ms.map (·.merged.bits)).eraseDups := by
    induction ms using List.reverseRecOn with
    | nil => rfl
    | append_singleton ms m ih =>
      rw [List.foldl_append, List.foldl_cons, List.foldl_nil, map_bits_absorb, ih, List.map_append,
        List.map_singleton, eraseDups_concat]
      simp only [List.mem_eraseDups]
  exact key (merges xs)

theorem nodup_bits_combined (xs : List Implicant) : ((pass xs).combined.map bits).Nodup := by
  have key : ∀ (ms : List Merge) (acc : List Implicant), (acc.map bits).Nodup →
      ((ms.foldl (fun acc m => absorb m.merged acc) acc).map bits).Nodup := by
    intro ms
    induction ms with
    | nil => exact fun acc h => h
    | cons m ms ih => exact fun acc h => ih _ (nodup_bits_absorb h m.merged)
  exact key (merges xs) [] List.nodup_nil

theorem holds_combined_iff {xs : List Implicant} {p : Pattern} {row : Int} :
    Holds (pass xs).combined p row ↔
      ∃ m ∈ merges xs, m.merged.bits = p ∧ row ∈ m.merged.minterms := by
  have key : ∀ (ms : List Merge) (acc : List Implicant),
      Holds (ms.foldl (fun acc m => absorb m.merged acc) acc) p row ↔
        (∃ m ∈ ms, m.merged.bits = p ∧ row ∈ m.merged.minterms) ∨ Holds acc p row := by
    intro ms
    induction ms with
    | nil => intro acc; simp
    | cons m ms ih =>
      intro acc
      rw [List.foldl_cons, ih, holds_absorb_iff, ← or_assoc]
      simp only [List.mem_cons, exists_eq_or_imp]
      exact or_congr_left or_comm
  have hnil : ¬Holds [] p row := by simp [Holds]
  show Holds ((merges xs).foldl (fun acc m => absorb m.merged acc) []) p row ↔ _
  rw [key]
  exact or_iff_left hnil

-- Only one combined implicant has the pattern, so its minterms are all that is held for it.
theorem mem_minterms_combined_iff {xs : List Implicant} {z : Implicant}
    (hz : z ∈ (pass xs).combined) {row : Int} :
    row ∈ z.minterms ↔
      ∃ m ∈ merges xs, m.merged.bits = z.bits ∧ row ∈ m.merged.minterms := by
  rw [← holds_combined_iff]
  apply Iff.intro
  · exact fun hrow => ⟨z, hz, rfl, hrow⟩
  · intro hex
    rcases hex with ⟨y, hy, hbits, hrow⟩
    rwa [List.inj_on_of_nodup_map (nodup_bits_combined xs) hy hz hbits] at hrow

theorem exists_combined_iff {xs : List Implicant} {p : Pattern} :
    (∃ z ∈ (pass xs).combined, z.bits = p) ↔ ∃ m ∈ merges xs, m.merged.bits = p := by
  rw [← List.mem_map, map_bits_combined, List.mem_eraseDups, List.mem_map]

theorem mem_leftovers_iff {xs : List Implicant} {x : Implicant} :
    x ∈ (pass xs).leftovers ↔
      x ∈ xs ∧ ∀ m ∈ merges xs, m.lower.bits ≠ x.bits ∧ m.upper.bits ≠ x.bits := by
  show x ∈ xs.filter _ ↔ _
  rw [List.mem_filter]
  apply and_congr_right
  intro _
  simp only [decide_eq_true_eq, List.mem_append, List.mem_map, not_or, not_exists, not_and]
  apply Iff.intro
  · intro h m hm
    exact ⟨h.1 m hm, h.2 m hm⟩
  · intro h
    exact ⟨fun m hm => (h m hm).1, fun m hm => (h m hm).2⟩

end Implicant

end TwoLevel
