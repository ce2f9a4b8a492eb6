import TwoLevel.Implicant

/-!
# Combination passes

One pass groups implicants by their number of ones, tries every implicant of a group with every one
of the next group, and keeps the merges, those of one pattern as one. Main statement: every merge
fixes one place fewer than some implicant it came from (`exists_fixed_of_mem_combined`), so passes
come to an end.
-/

namespace TwoLevel.Implicant

/-- The implicants by their number of ones, fewest first; a group keeps the order of the list. -/
def groups (xs : List Implicant) : List (Nat × List Implicant) :=
  (SortedSet.ofList (xs.map ones)).toList.map fun k => (k, xs.filter (·.ones = k))

/-- Two implicants and what they merge into. -/
structure Merge where
  lower : Implicant
  upper : Implicant
  merged : Implicant

def mergesWith (x : Implicant) (ys : List Implicant) : List Merge :=
  ys.filterMap fun y => (x.combine? y).map fun z => ⟨x, y, z⟩

def merges (xs : List Implicant) : List Merge :=
  (groups xs).flatMap fun (k, group) =>
    -- parents of zeros and ones differ by a single one, so they are in neighbouring groups
    let next := xs.filter (·.ones = k + 1)
    group.flatMap fun x => mergesWith x next

/-- Adds an implicant, or its minterms if its pattern is there already. -/
def absorb (x : Implicant) : List Implicant → List Implicant
  | [] => [x]
  | y :: ys => if y.bits = x.bits then ⟨y.bits, y.minterms ∪ x.minterms⟩ :: ys else y :: absorb x ys

/-- What a pass makes: the merged implicants, and those that took part in no merge. -/
structure Pass where
  combined : List Implicant
  leftovers : List Implicant
deriving DecidableEq

/-- One combination pass. Whether an implicant took part is told by its pattern. -/
def pass (xs : List Implicant) : Pass :=
  let found := merges xs
  let used := found.map (·.lower.bits) ++ found.map (·.upper.bits)
  { combined := found.foldl (fun acc m => absorb m.merged acc) []
    leftovers := xs.filter fun x => x.bits ∉ used }

theorem mem_mergesWith {x : Implicant} {ys : List Implicant} {m : Merge} :
    m ∈ mergesWith x ys ↔ m.lower = x ∧ m.upper ∈ ys ∧ x.combine? m.upper = some m.merged := by
  rcases m with ⟨l, u, z⟩
  simp only [mergesWith, List.mem_filterMap, Option.map_eq_some_iff]
  apply Iff.intro
  · intro hex
    rcases hex with ⟨y, hy, w, hw, e⟩
    cases e
    exact ⟨rfl, hy, hw⟩
  · intro hboth
    rcases hboth with ⟨rfl, hu, hz⟩
    exact ⟨u, hu, z, hz, rfl⟩

theorem mem_merges {xs : List Implicant} {m : Merge} :
    m ∈ merges xs ↔ m.lower ∈ xs ∧ m.upper ∈ xs ∧ m.upper.ones = m.lower.ones + 1 ∧
      m.lower.combine? m.upper = some m.merged := by
  simp only [merges, groups, List.mem_flatMap, List.mem_map, Prod.exists, mem_mergesWith,
    List.mem_filter, decide_eq_true_eq]
  apply Iff.intro
  · intro hex
    rcases hex with ⟨k, g, ⟨_, -, e⟩, x, hx, rfl, ⟨hu, hk⟩, hz⟩
    cases e
    have hgroup : m.lower ∈ xs ∧ m.lower.ones = k := by simpa using hx
    rcases hgroup with ⟨hl, rfl⟩
    exact ⟨hl, hu, hk, hz⟩
  · intro hboth
    rcases hboth with ⟨hl, hu, hk, hz⟩
    refine ⟨m.lower.ones, _, ⟨m.lower.ones, ?_, rfl⟩, m.lower, by simp [hl], rfl, ⟨hu, hk⟩, hz⟩
    exact SortedSet.mem_iff.1 (SortedSet.mem_ofList.2 (List.mem_map_of_mem hl))

theorem exists_bits_of_mem_absorb {x z : Implicant} {ys : List Implicant} (h : z ∈ absorb x ys) :
    z.bits = x.bits ∨ ∃ y ∈ ys, z.bits = y.bits := by
  induction ys with
  | nil => exact .inl (by simp_all [absorb])
  | cons y ys ih =>
    unfold absorb at h
    split at h
    · next e =>
      rcases List.mem_cons.1 h with rfl | h
      · exact .inl e
      · exact .inr ⟨z, List.mem_cons_of_mem y h, rfl⟩
    · rcases List.mem_cons.1 h with rfl | h
      · exact .inr ⟨z, List.mem_cons_self, rfl⟩
      · rcases ih h with e | ⟨w, hw, e⟩
        · exact .inl e
        · exact .inr ⟨w, List.mem_cons_of_mem y hw, e⟩

-- A combined implicant has the pattern of a merge.
theorem exists_merge_of_mem_combined {xs : List Implicant} {z : Implicant}
    (h : z ∈ (pass xs).combined) : ∃ m ∈ merges xs, z.bits = m.merged.bits := by
  suffices key : ∀ (ms : List Merge) (acc : List Implicant),
      z ∈ ms.foldl (fun acc m => absorb m.merged acc) acc →
        (∃ m ∈ ms, z.bits = m.merged.bits) ∨ ∃ y ∈ acc, z.bits = y.bits by
    rcases key _ _ h with h | ⟨_, hy, -⟩
    · exact h
    · exact absurd hy List.not_mem_nil
  intro ms
  induction ms with
  | nil => exact fun acc h => .inr ⟨z, h, rfl⟩
  | cons m ms ih =>
    intro acc h
    rcases ih _ h with ⟨m', hm', e⟩ | ⟨y, hy, e⟩
    · exact .inl ⟨m', List.mem_cons_of_mem m hm', e⟩
    · rcases exists_bits_of_mem_absorb hy with e' | ⟨w, hw, e'⟩
      · exact .inl ⟨m, List.mem_cons_self, e.trans e'⟩
      · exact .inr ⟨w, hw, e.trans e'⟩

theorem exists_fixed_of_mem_combined {xs : List Implicant} {z : Implicant}
    (h : z ∈ (pass xs).combined) : ∃ x ∈ xs, z.bits.fixed + 1 = x.bits.fixed := by
  rcases exists_merge_of_mem_combined h with ⟨m, hm, e⟩
  rcases mem_merges.1 hm with ⟨hl, -, -, hz⟩
  rcases Option.map_eq_some_iff.1 hz with ⟨bits, hb, e'⟩
  refine ⟨m.lower, hl, ?_⟩
  rw [e, ← e']
  exact Pattern.fixed_merge? hb

end TwoLevel.Implicant
