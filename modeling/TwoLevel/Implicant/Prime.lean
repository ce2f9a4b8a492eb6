import TwoLevel.Implicant.Combination

/-!
# Prime implicants

Passes follow one another, each on what the last one combined, until nothing combines. The
implicants left over on the way are the prime implicants. Main statement: what a pass combines fixes
fewer places than what it was given (`maxFixed_combined_lt`).
-/

namespace TwoLevel.Implicant

def maxFixed (xs : List Implicant) : Nat := xs.foldr (fun x n => max x.bits.fixed n) 0

theorem fixed_le_maxFixed {x : Implicant} {xs : List Implicant} (h : x ∈ xs) :
    x.bits.fixed ≤ maxFixed xs := by
  induction xs with
  | nil => cases h
  | cons y ys ih =>
    simp only [maxFixed, List.foldr_cons]
    rcases List.mem_cons.1 h with rfl | h
    · exact Nat.le_max_left _ _
    · exact Nat.le_trans (ih h) (Nat.le_max_right _ _)

theorem maxFixed_lt {n : Nat} {xs : List Implicant} (hn : 0 < n)
    (h : ∀ x ∈ xs, x.bits.fixed < n) : maxFixed xs < n := by
  induction xs with
  | nil => exact hn
  | cons y ys ih =>
    simp only [maxFixed, List.foldr_cons]
    exact Nat.max_lt.2 ⟨h y List.mem_cons_self, ih fun x hx => h x (List.mem_cons_of_mem y hx)⟩

/-- What a pass combines fixes fewer places than what it was given. -/
theorem maxFixed_combined_lt {xs : List Implicant} (h : (pass xs).combined ≠ []) :
    maxFixed (pass xs).combined < maxFixed xs := by
  have key : ∀ z ∈ (pass xs).combined, z.bits.fixed < maxFixed xs := by
    intro z hz
    rcases exists_fixed_of_mem_combined hz with ⟨x, hx, e⟩
    have := fixed_le_maxFixed hx
    omega
  rcases List.exists_mem_of_ne_nil _ h with ⟨z, hz⟩
  exact maxFixed_lt (by have := key z hz; omega) key

/-- All passes over a list of implicants; the last one combines nothing. -/
def passes (xs : List Implicant) : List Pass :=
  let made := pass xs
  if _last : made.combined = [] then [made] else made :: passes made.combined
termination_by maxFixed xs
decreasing_by exact maxFixed_combined_lt _last

/-- The prime implicants, and what each pass combined on the way to them. -/
structure Primes where
  primes : List Implicant
  rounds : List (List Implicant)
deriving DecidableEq

/-- The prime implicants that come of a list of implicants, those of early passes first. -/
def primes (xs : List Implicant) : Primes :=
  let all := passes xs
  { primes := distinct (all.flatMap (·.leftovers))
    rounds := (all.map (·.combined)).filter (· ≠ []) }

/-- The prime implicants of a list of rows, for a width that may be negative. -/
def primesOfRows? (width : Int) (rows : List Int) : Except WidthError Primes :=
  (rows.mapM (ofRow? width)).map primes

end TwoLevel.Implicant
