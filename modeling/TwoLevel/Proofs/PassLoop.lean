import TwoLevel.Proofs.CanonicalRounds
import TwoLevel.Proofs.PassCoverage

/-!
# The loop of passes

Passes follow one another while there are implicants.  Every pass fixes one place fewer, which ends
the loop, and frees one place more, so that no pattern is left over by two passes.  Each pass keeps
the minterms it is given, whatever the lengths of the patterns.  Main statement: the loop ends for
any rows, with no more rounds than the longest pattern has places, and loses no row if the patterns
tell the rows apart (`primesOfRows?_conserved`).
-/

namespace TwoLevel

namespace Pattern

/-! ## Numbers of any size -/

theorem least_ofNat (width n : Nat) : least (ofNat width n) = n := by
  apply least_lowBits
  calc n < 2 ^ (n.log2 + 1) := Nat.lt_log2_self
    _ ≤ 2 ^ max width (n.log2 + 1) := Nat.pow_le_pow_right (by decide) (Nat.le_max_right _ _)

theorem free_ofNat (width n : Nat) : free (ofNat width n) = 0 := by
  have hfixed : fixed (ofNat width n) = (ofNat width n).length := by
    rw [ofNat, fixed_lowBits, length_lowBits]
  have hsum := free_add_fixed (ofNat width n)
  omega

theorem ofRow_of_nonneg {width : Nat} {row : Int} (hwidth : 0 < width) (h0 : 0 ≤ row) :
    ofRow width row = ofNat width row.toNat := by
  rw [ofRow, if_neg (by omega), if_neg (by omega)]

/-- With some width the patterns tell rows apart, also those that do not fit it. -/
theorem ofRow_inj {width : Nat} {row row' : Int} (hwidth : 0 < width) (h0 : 0 ≤ row)
    (h0' : 0 ≤ row') (h : ofRow width row = ofRow width row') : row = row' := by
  rw [ofRow_of_nonneg hwidth h0, ofRow_of_nonneg hwidth h0'] at h
  have hleast := congrArg least h
  rw [least_ofNat, least_ofNat] at hleast
  omega

end Pattern

namespace Implicant

variable {xs : List Implicant} {row : Int}

/-! ## The end of the loop -/

/-- The passes made from a list on, while there are implicants. -/
inductive Loop : List Implicant → List Pass → Prop
  | stop : Loop [] []
  | turn {xs : List Implicant} {rest : List Pass} :
      xs ≠ [] → Loop (pass xs).combined rest → Loop xs (pass xs :: rest)

theorem loop_passes (hne : xs ≠ []) : Loop xs (passes xs) := by
  fun_induction passes xs with
  | case1 xs made =>
    rename_i hnil
    refine Loop.turn hne ?_
    rw [hnil]
    exact Loop.stop
  | case2 xs made hcombined =>
    rename_i ih
    exact Loop.turn hne (ih hcombined)

/-- The loop ends, and its passes make the prime implicants and the rounds. -/
theorem exists_loop (xs : List Implicant) :
    ∃ run, Loop xs run ∧ (primes xs).primes = distinct (run.flatMap (·.leftovers)) ∧
      (primes xs).rounds = (run.map (·.combined)).filter (· ≠ []) := by
  by_cases hne : xs = []
  · subst hne
    have hpass : pass [] = ⟨[], []⟩ := rfl
    have hprimes : primes [] = ⟨[], []⟩ := by
      rw [primes, passes, hpass]
      rfl
    rw [hprimes]
    exact ⟨[], Loop.stop, rfl, rfl⟩
  · exact ⟨passes xs, loop_passes hne, rfl, rfl⟩

theorem length_rounds_le_maxFixed (xs : List Implicant) :
    (primes xs).rounds.length ≤ maxFixed xs := by
  induction xs using passes.induct with
  | case1 xs made hnil =>
    rw [rounds_eq, if_pos hnil]
    exact Nat.zero_le _
  | case2 xs made hne ih =>
    have hlt := maxFixed_combined_lt hne
    rw [rounds_eq, if_neg hne, List.length_cons]
    exact Nat.lt_of_le_of_lt ih hlt

/-- How many places the longest pattern has. -/
def longest (xs : List Implicant) : Nat := xs.foldr (fun x n => max x.bits.length n) 0

theorem maxFixed_le_longest (xs : List Implicant) : maxFixed xs ≤ longest xs := by
  induction xs with
  | nil => exact Nat.le_refl _
  | cons x xs ih =>
    have hx := Pattern.fixed_le_length x.bits
    show max x.bits.fixed (maxFixed xs) ≤ max x.bits.length (longest xs)
    omega

/-! ## Passes keep patterns apart -/

/-- The patterns have one number of free places and tell the implicants apart. -/
structure IsLayer (free : Nat) (xs : List Implicant) : Prop where
  free_eq : ∀ x ∈ xs, x.bits.free = free
  eq_of_bits : ∀ x ∈ xs, ∀ y ∈ xs, x.bits = y.bits → x = y

variable {free : Nat}

theorem IsLayer.combined (h : IsLayer free xs) : IsLayer (free + 1) (pass xs).combined := by
  apply IsLayer.mk
  · intro z hz
    rcases exists_merge_of_mem_combined hz with ⟨m, hm, hbits⟩
    rcases mem_merges.mp hm with ⟨hl, -, -, hcombine⟩
    rcases Option.map_eq_some_iff.mp hcombine with ⟨p, hp, hmerged⟩
    rw [hbits, ← hmerged, Pattern.free_merge? hp, h.free_eq _ hl]
  · intro x hx y hy hbits
    exact List.inj_on_of_nodup_map (nodup_bits_combined xs) hx hy hbits

theorem IsLayer.leftovers (h : IsLayer free xs) : IsLayer free (pass xs).leftovers := by
  have hmem {x : Implicant} (hx : x ∈ (pass xs).leftovers) : x ∈ xs := (mem_leftovers_iff.mp hx).1
  exact ⟨fun x hx => h.free_eq x (hmem hx),
    fun x hx y hy => h.eq_of_bits x (hmem hx) y (hmem hy)⟩

theorem IsLayer.le_free_of_passes (h : IsLayer free xs) {x : Implicant}
    (hx : x ∈ (passes xs).flatMap (·.leftovers)) : free ≤ x.bits.free := by
  fun_induction passes xs generalizing free with
  | case1 xs made =>
    rw [List.flatMap_singleton] at hx
    rw [h.leftovers.free_eq x hx]
  | case2 xs made hne =>
    rename_i ih
    rw [List.flatMap_cons] at hx
    rcases List.mem_append.mp hx with hx | hx
    · rw [h.leftovers.free_eq x hx]
    · exact Nat.le_of_succ_le (ih h.combined hx)

/-- Of what all passes leave over, no two have one pattern. -/
theorem IsLayer.eq_of_bits_passes (h : IsLayer free xs) :
    ∀ x ∈ (passes xs).flatMap (·.leftovers), ∀ y ∈ (passes xs).flatMap (·.leftovers),
      x.bits = y.bits → x = y := by
  fun_induction passes xs generalizing free with
  | case1 xs made =>
    rw [List.flatMap_singleton]
    exact h.leftovers.eq_of_bits
  | case2 xs made hne =>
    rename_i ih
    -- what this pass leaves over has fewer free places than what later passes do
    have hapart {x y : Implicant} (hx : x ∈ (pass xs).leftovers)
        (hy : y ∈ (passes (pass xs).combined).flatMap (·.leftovers)) : x.bits ≠ y.bits := by
      intro hbits
      have hle := h.combined.le_free_of_passes hy
      rw [← hbits, h.leftovers.free_eq x hx] at hle
      omega
    rw [List.flatMap_cons]
    intro x hx y hy hbits
    rcases List.mem_append.mp hx with hx | hx
    · rcases List.mem_append.mp hy with hy | hy
      · exact h.leftovers.eq_of_bits x hx y hy hbits
      · exact absurd hbits (hapart hx hy)
    · rcases List.mem_append.mp hy with hy | hy
      · exact absurd hbits.symm (hapart hy hx)
      · exact ih h.combined x hx y hy hbits

/-! ## Passes keep minterms -/

theorem mem_coveredBy_passes_iff :
    row ∈ coveredBy ((passes xs).flatMap (·.leftovers)) ↔ row ∈ coveredBy xs := by
  fun_induction passes xs with
  | case1 xs made =>
    rename_i hnil
    have hpass : row ∈ coveredBy ((pass xs).leftovers ++ (pass xs).combined) ↔ row ∈ coveredBy xs :=
      mem_coveredBy_pass_iff
    rw [List.flatMap_singleton]
    rwa [hnil, List.append_nil] at hpass
  | case2 xs made hne =>
    rename_i ih
    rw [List.flatMap_cons, mem_coveredBy_append, ih, ← mem_coveredBy_append]
    exact mem_coveredBy_pass_iff

theorem mem_coveredBy_distinct_iff (h : ∀ x ∈ xs, ∀ y ∈ xs, x.bits = y.bits → x = y) :
    row ∈ coveredBy (distinct xs) ↔ row ∈ coveredBy xs := by
  rw [mem_coveredBy, mem_coveredBy]
  apply Iff.intro
  · intro hex
    rcases hex with ⟨x, hx, hrow⟩
    exact ⟨x, mem_of_mem_distinct hx, hrow⟩
  · intro hex
    rcases hex with ⟨x, hx, hrow⟩
    rcases exists_mem_distinct_iff.mpr ⟨x, hx, rfl⟩ with ⟨y, hy, hbits⟩
    rw [← h y (mem_of_mem_distinct hy) x hx hbits] at hrow
    exact ⟨y, hy, hrow⟩

theorem IsLayer.mem_coveredBy_primes_iff (h : IsLayer free xs) :
    row ∈ coveredBy (primes xs).primes ↔ row ∈ coveredBy xs := by
  show row ∈ coveredBy (distinct ((passes xs).flatMap (·.leftovers))) ↔ _
  rw [mem_coveredBy_distinct_iff h.eq_of_bits_passes, mem_coveredBy_passes_iff]

/-! ## Rows of any size -/

theorem isLayer_ofRow {width : Nat} {rows : List Int} (hwidth : 0 < width)
    (hrows : ∀ row ∈ rows, 0 ≤ row) : IsLayer 0 (rows.map (ofRow width)) := by
  apply IsLayer.mk
  · intro x hx
    rcases List.mem_map.mp hx with ⟨row, hrow, rfl⟩
    show (Pattern.ofRow width row).free = 0
    rw [Pattern.ofRow_of_nonneg hwidth (hrows row hrow), Pattern.free_ofNat]
  · intro x hx y hy hbits
    rcases List.mem_map.mp hx with ⟨row, hrow, rfl⟩
    rcases List.mem_map.mp hy with ⟨row', hrow', rfl⟩
    rw [Pattern.ofRow_inj hwidth (hrows row hrow) (hrows row' hrow') hbits]

theorem mem_coveredBy_ofRow {width : Nat} {rows : List Int} :
    row ∈ coveredBy (rows.map (ofRow width)) ↔ row ∈ rows := by
  simp only [mem_coveredBy, List.mem_map, exists_exists_and_eq_and, mem_minterms_ofRow,
    exists_eq_right']

/-- The loop of passes ends for any rows, after no more rounds than the longest pattern has places.
Rows that are not negative are all in some prime implicant, and nothing else is. -/
theorem primesOfRows?_conserved (width : Nat) (rows : List Int) :
    ∃ found, primesOfRows? width rows = .ok found ∧
      (∃ run, Loop (rows.map (ofRow width)) run ∧
        found.primes = distinct (run.flatMap (·.leftovers)) ∧
        found.rounds = (run.map (·.combined)).filter (· ≠ [])) ∧
      found.rounds.length ≤ longest (rows.map (ofRow width)) ∧
      (found.primes.map bits).Nodup ∧
      (0 < width → (∀ row ∈ rows, 0 ≤ row) →
        coveredBy found.primes = SortedSet.ofList rows) := by
  refine ⟨_, primesOfRows?_natCast width rows, exists_loop _, ?_, nodup_bits_distinct _, ?_⟩
  · exact Nat.le_trans (length_rounds_le_maxFixed _) (maxFixed_le_longest _)
  · intro hwidth hrows
    apply SortedSet.ext
    intro row
    rw [(isLayer_ofRow hwidth hrows).mem_coveredBy_primes_iff, mem_coveredBy_ofRow,
      SortedSet.mem_ofList]

-- Patterns of three lengths meet, and rows are repeated.
theorem primesOfRows?_conserved_wide :
    ∃ found, primesOfRows? 2 [9, 1, 5, 3, 9, 4] = .ok found ∧
      found.rounds.length ≤ longest ([9, 1, 5, 3, 9, 4].map (ofRow 2)) ∧
      coveredBy found.primes = .ofList [9, 1, 5, 3, 9, 4] := by
  rcases primesOfRows?_conserved 2 [9, 1, 5, 3, 9, 4] with ⟨found, hok, -, hrounds, -, hcovered⟩
  exact ⟨found, hok, hrounds, hcovered (by decide) (by decide)⟩

end Implicant

end TwoLevel
