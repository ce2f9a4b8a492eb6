import TwoLevel.Proofs.AllPairs
import TwoLevel.Proofs.CanonicalRounds

/-!
# Unions of cubes

The join of two patterns is free wherever they differ.  Its cube is the least one that has both of
theirs, so if the union of two cubes is a cube at all, it is that of the join, and the join has no
row that neither of the two has.  A row with one digit against the first pattern and, at another
place, one against the second would be such a row.  So if neither cube is inside the other, the
patterns differ in a single place, which both fix, and they merge there.  Main statement: two terms
combine exactly if the union of their cubes is a cube and neither is inside the other
(`combine?_iff_cube_union`).
-/

namespace TwoLevel

namespace Pattern

variable {width : Nat} {a b p q z : Pattern} {c d : Char}

/-! ## Containment of cubes -/

theorem exists_digit (hc : c = '0' ∨ c = '1' ∨ c = '-') :
    ∃ e, (e = '0' ∨ e = '1') ∧ (c = '-' ∨ c = e) := by
  rcases hc with rfl | rfl | rfl
  · exact ⟨'0', .inl rfl, .inr rfl⟩
  · exact ⟨'1', .inr rfl, .inr rfl⟩
  · exact ⟨'0', .inl rfl, .inl rfl⟩

-- A place that differs from a fixed one admits a digit that is against that one.
theorem exists_digit_ne (hc : c = '0' ∨ c = '1' ∨ c = '-') (hne : c ≠ d) (hd : d ≠ '-') :
    ∃ e, (e = '0' ∨ e = '1') ∧ (c = '-' ∨ c = e) ∧ ¬(d = '-' ∨ d = e) := by
  rcases hc with rfl | rfl | rfl
  · exact ⟨'0', .inl rfl, .inr rfl, fun h => h.elim hd (Ne.symm hne)⟩
  · exact ⟨'1', .inr rfl, .inr rfl, fun h => h.elim hd (Ne.symm hne)⟩
  · by_cases hzero : d = '0'
    · subst hzero
      exact ⟨'1', .inr rfl, .inl rfl, by decide⟩
    · exact ⟨'0', .inl rfl, .inl rfl, fun h => h.elim hd hzero⟩

theorem isDigits_cons {e : Char} {ds : Pattern} (he : e = '0' ∨ e = '1') (hds : IsDigits ds) :
    IsDigits (e :: ds) := List.forall_mem_cons.mpr ⟨he, hds⟩

theorem IsTerm.exists_digits (hp : IsTerm width p) : ∃ ds, IsDigits ds ∧ p.Admits ds :=
  ⟨_, isDigits_lowBits _ _, (natCast_mem_cube rfl (least_lt p)).mp hp.isLeast_cube.1⟩

/-- A pattern that admits all digits of a term admits the term. -/
theorem IsTerm.admits_of_digits (hp : IsTerm width p) (hlen : q.length = p.length)
    (h : ∀ ds, IsDigits ds → p.Admits ds → q.Admits ds) : q.Admits p := by
  induction p generalizing q width with
  | nil =>
    rw [List.length_nil, List.length_eq_zero_iff] at hlen
    subst hlen
    exact Admits.refl []
  | cons c p ih =>
    cases q with
    | nil => cases hlen
    | cons d q =>
      obtain rfl := hp.length_eq
      have hc := hp.places c List.mem_cons_self
      rw [admits_cons_iff]
      constructor
      · -- a fixed place that differs would refuse some digit of the term
        by_contra hfixed
        rw [not_or] at hfixed
        obtain ⟨e, he, hce, hde⟩ := exists_digit_ne hc (Ne.symm hfixed.2) hfixed.1
        obtain ⟨ds, hds, hadmits⟩ := hp.of_cons.exists_digits
        have hboth := h (e :: ds) (isDigits_cons he hds) (admits_cons_iff.mpr ⟨hce, hadmits⟩)
        exact hde (admits_cons_iff.mp hboth).1
      · obtain ⟨e, he, hce⟩ := exists_digit hc
        refine ih hp.of_cons (Nat.succ_inj.mp hlen) ?_
        intro ds hds hadmits
        have hboth := h (e :: ds) (isDigits_cons he hds) (admits_cons_iff.mpr ⟨hce, hadmits⟩)
        exact (admits_cons_iff.mp hboth).2

theorem IsTerm.exists_row (hp : IsTerm width p) {ds : Pattern} (hds : IsDigits ds)
    (h : p.Admits ds) : ∃ n < 2 ^ width, lowBits width n = ds := by
  rw [← hp.length_eq, h.length_eq]
  exact exists_lowBits_eq hds

/-- Between terms of one width a cube is inside another exactly if its pattern is admitted. -/
theorem IsTerm.cube_subset_iff (hp : IsTerm width p) (hlen : q.length = width) :
    p.cube ⊆ q.cube ↔ q.Admits p := by
  refine ⟨?_, cube_subset_of_admits⟩
  intro hsub
  refine hp.admits_of_digits (hlen.trans hp.length_eq.symm) ?_
  intro ds hds hadmits
  obtain ⟨n, hn, rfl⟩ := hp.exists_row hds hadmits
  exact (natCast_mem_cube hlen hn).mp (hsub ((natCast_mem_cube hp.length_eq hn).mpr hadmits))

/-! ## Leading zeros -/

-- Rows that begin with a zero are the rows of the rest.
theorem cube_zero_cons (p : Pattern) : cube ('0' :: p) = cube p := by
  ext row
  have hdouble : (2 : Int) ^ (p.length + 1) = 2 * 2 ^ p.length := by rw [pow_succ, mul_comm]
  rw [mem_cube, mem_cube, List.length_cons, lowBits, admits_cons_iff]
  constructor
  · rintro ⟨h0, hlt, hzero, hadmits⟩
    have htop : row.toNat.testBit p.length = false := by
      by_contra hone
      rw [Bool.not_eq_false] at hone
      simp [hone] at hzero
    have hnat : row.toNat < 2 ^ p.length := by
      refine Nat.lt_pow_two_of_testBit _ ?_
      intro i hi
      rcases hi.eq_or_lt with rfl | hi
      · exact htop
      · have hle : 2 ^ (p.length + 1) ≤ 2 ^ i := Nat.pow_le_pow_right (by decide) hi
        exact Nat.testBit_lt_two_pow (lt_of_lt_of_le (toNat_lt_two_pow h0 hlt) hle)
    have hcast := natCast_two_pow p.length
    exact ⟨h0, by omega, hadmits⟩
  · rintro ⟨h0, hlt, hadmits⟩
    have htop : row.toNat.testBit p.length = false :=
      Nat.testBit_lt_two_pow (toNat_lt_two_pow h0 hlt)
    refine ⟨h0, by omega, ?_, hadmits⟩
    rw [htop]
    exact .inr rfl

theorem cube_zeros_append (k : Nat) (p : Pattern) : cube (List.replicate k '0' ++ p) = cube p := by
  induction k with
  | zero => rfl
  | succ k ih => rw [List.replicate_succ, List.cons_append, cube_zero_cons, ih]

theorem IsTerm.zeros_append (k : Nat) (h : IsTerm width p) :
    IsTerm (k + width) (List.replicate k '0' ++ p) := by
  constructor
  · rw [List.length_append, List.length_replicate, h.length_eq]
  · intro c hc
    rcases List.mem_append.mp hc with hzero | hmem
    · exact .inl (List.eq_of_mem_replicate hzero)
    · exact h.places c hmem

/-! ## The join of two patterns -/

/-- The pattern that fixes only the places at which the two agree. -/
def join (a b : Pattern) : Pattern := List.zipWith (fun c d => if c = d then c else '-') a b

theorem join_cons (c d : Char) (a b : Pattern) :
    join (c :: a) (d :: b) = (if c = d then c else '-') :: join a b := rfl

theorem join_comm (a b : Pattern) : join a b = join b a := by
  refine List.zipWith_comm_of_comm fun c d => ?_
  by_cases h : c = d
  · rw [h]
  · rw [if_neg h, if_neg (Ne.symm h)]

theorem join_self (a : Pattern) : join a a = a := by
  induction a with
  | nil => rfl
  | cons c a ih => rw [join_cons, if_pos rfl, ih]

theorem join_append (l : Pattern) (a b : Pattern) : join (l ++ a) (l ++ b) = l ++ join a b := by
  induction l with
  | nil => rfl
  | cons c l ih => rw [List.cons_append, List.cons_append, join_cons, if_pos rfl, ih]; rfl

theorem join_admits_left (hlen : a.length = b.length) : (join a b).Admits a := by
  induction a generalizing b with
  | nil =>
    cases b with
    | nil => exact Admits.refl []
    | cons d b => cases hlen
  | cons c a ih =>
    cases b with
    | nil => cases hlen
    | cons d b =>
      rw [join_cons, admits_cons_iff]
      refine ⟨?_, ih (Nat.succ_inj.mp hlen)⟩
      by_cases h : c = d
      · exact .inr (if_pos h)
      · exact .inl (if_neg h)

theorem join_admits_right (hlen : a.length = b.length) : (join a b).Admits b := by
  rw [join_comm]
  exact join_admits_left hlen.symm

/-- What admits both patterns admits their join. -/
theorem Admits.join (ha : q.Admits a) (hb : q.Admits b) : q.Admits (join a b) := by
  induction ha generalizing b with
  | nil =>
    cases hb
    exact Admits.refl []
  | @cons e c q a hec _ ih =>
    cases hb with
    | @cons _ d _ b hed htail =>
      rw [join_cons, admits_cons_iff]
      refine ⟨?_, ih htail⟩
      by_cases h : c = d
      · rwa [if_pos h]
      · -- one that admits two different places is free
        rw [if_neg h]
        rcases hec with rfl | rfl
        · exact .inl rfl
        · exact .inl (hed.resolve_right h)

theorem IsTerm.join (ha : IsTerm width a) (hb : IsTerm width b) : IsTerm width (join a b) :=
  ha.of_admits (join_admits_left (ha.length_eq.trans hb.length_eq.symm))

/-- The cube of the join is the least one that has both cubes, also among those of longer and of
shorter patterns. -/
theorem cube_join_subset (ha : IsTerm width a) (hb : IsTerm width b)
    (h : a.cube ∪ b.cube ⊆ q.cube) : (join a b).cube ⊆ q.cube := by
  -- zeros in front bring the patterns to one length, and change no cube
  rw [Set.union_subset_iff] at h
  have hadmits {p : Pattern} (hp : IsTerm width p) (hsub : p.cube ⊆ q.cube) :
      Admits (List.replicate (width - q.length) '0' ++ q)
        (List.replicate (q.length - width) '0' ++ p) := by
    refine ((hp.zeros_append _).cube_subset_iff ?_).mp ?_
    · rw [List.length_append, List.length_replicate]
      omega
    · rwa [cube_zeros_append, cube_zeros_append]
  have hjoin := (hadmits ha h.1).join (hadmits hb h.2)
  rw [join_append] at hjoin
  have hsub := cube_subset_of_admits hjoin
  rwa [cube_zeros_append, cube_zeros_append] at hsub

/-! ## Joins without a further row -/

/-- All digits that the join admits are admitted by one of the two patterns. -/
def IsTight (a b : Pattern) : Prop :=
  ∀ ds, IsDigits ds → (join a b).Admits ds → a.Admits ds ∨ b.Admits ds

theorem IsTight.symm (h : IsTight a b) : IsTight b a := by
  intro ds hds hadmits
  rw [join_comm] at hadmits
  exact (h ds hds hadmits).symm

/-- If the union of two cubes is a cube, the join has no further row. -/
theorem isTight_of_cube (ha : IsTerm width a) (hb : IsTerm width b)
    (h : q.cube = a.cube ∪ b.cube) : IsTight a b := by
  intro ds hds hadmits
  have hjoin := ha.join hb
  obtain ⟨n, hn, rfl⟩ := hjoin.exists_row hds hadmits
  have hrow := cube_join_subset ha hb h.ge ((natCast_mem_cube hjoin.length_eq hn).mpr hadmits)
  rw [h, Set.mem_union] at hrow
  exact hrow.imp (natCast_mem_cube ha.length_eq hn).mp (natCast_mem_cube hb.length_eq hn).mp

theorem IsTight.tail (h : IsTight (c :: a) (c :: b)) (hc : c = '0' ∨ c = '1' ∨ c = '-') :
    IsTight a b := by
  intro ds hds hadmits
  obtain ⟨e, he, hce⟩ := exists_digit hc
  have hjoin : (join (c :: a) (c :: b)).Admits (e :: ds) := by
    rw [join_cons, if_pos rfl, admits_cons_iff]
    exact ⟨hce, hadmits⟩
  have hboth := h (e :: ds) (isDigits_cons he hds) hjoin
  rw [admits_cons_iff, admits_cons_iff] at hboth
  exact hboth.imp And.right And.right

-- At the first place a digit can be against the second pattern, and the rest is left to the first.
theorem IsTight.admits_tail (h : IsTight (c :: a) (d :: b)) (ha : IsTerm (width + 1) (c :: a))
    (hb : IsTerm (width + 1) (d :: b)) (hne : c ≠ d) (hd : d ≠ '-') : a.Admits b := by
  obtain ⟨e, he, hce, hde⟩ := exists_digit_ne (ha.places c List.mem_cons_self) hne hd
  have hlen : a.length = b.length := ha.of_cons.length_eq.trans hb.of_cons.length_eq.symm
  have hjoin := ha.of_cons.join hb.of_cons
  suffices hall : a.Admits (join a b) from hall.trans (join_admits_right hlen)
  refine hjoin.admits_of_digits (ha.of_cons.length_eq.trans hjoin.length_eq.symm) ?_
  intro ds hds hadmits
  have hfree : (join (c :: a) (d :: b)).Admits (e :: ds) := by
    rw [join_cons, if_neg hne, admits_cons_iff]
    exact ⟨.inl rfl, hadmits⟩
  rcases h (e :: ds) (isDigits_cons he hds) hfree with hleft | hright
  · exact (admits_cons_iff.mp hleft).2
  · exact absurd (admits_cons_iff.mp hright).1 hde

/-- Terms of which neither admits the other merge if their join has no further row. -/
theorem IsTight.merge?_eq (h : IsTight a b) (ha : IsTerm width a) (hb : IsTerm width b)
    (hab : ¬a.Admits b) (hba : ¬b.Admits a) : merge? a b = some (join a b) := by
  have hlen := ha.length_eq.trans hb.length_eq.symm
  induction a generalizing b width with
  | nil =>
    obtain rfl := List.length_eq_zero_iff.mp hlen.symm
    exact absurd (Admits.refl []) hab
  | cons c a ih =>
    cases b with
    | nil => cases hlen
    | cons d b =>
      obtain rfl : width = a.length + 1 := ha.length_eq.symm
      rw [admits_cons_iff] at hab hba
      by_cases heq : c = d
      · subst heq
        have hc := ha.places c List.mem_cons_self
        have hrest := ih (h.tail hc) ha.of_cons hb.of_cons (fun hadmits => hab ⟨.inr rfl, hadmits⟩)
          (fun hadmits => hba ⟨.inr rfl, hadmits⟩) (Nat.succ_inj.mp hlen)
        rw [merge?, if_pos rfl, hrest, join_cons, if_pos rfl, Option.map_some]
      · -- a free place against a fixed one would put one cube inside the other
        have hleft (hd : d ≠ '-') : Admits a b := h.admits_tail ha hb heq hd
        have hright (hc : c ≠ '-') : Admits b a := h.symm.admits_tail hb ha (Ne.symm heq) hc
        have hc : c ≠ '-' := by
          rintro rfl
          exact hab ⟨.inl rfl, hleft (Ne.symm heq)⟩
        have hd : d ≠ '-' := by
          rintro rfl
          exact hba ⟨.inl rfl, hright hc⟩
        obtain rfl := (hleft hd).antisymm (hright hc)
        rw [join_cons, if_neg heq, join_self]
        exact merge?_split [] a heq hc hd

/-! ## Merges of terms -/

theorem isTerm_of_merge? (ha : IsTerm width a) (hb : IsTerm width b) (h : merge? a b = some z) :
    IsTerm width z := by
  obtain ⟨l, r, rfl, ⟨rfl, -⟩ | ⟨rfl, -⟩⟩ := exists_zero_one_of_merge? ha hb h
  · exact ha.replace (.inr (.inr rfl))
  · exact ha.replace (.inr (.inr rfl))

theorem cube_of_merge? (ha : IsTerm width a) (hb : IsTerm width b) (h : merge? a b = some z) :
    z.cube = a.cube ∪ b.cube := by
  obtain ⟨l, r, rfl, ⟨rfl, rfl⟩ | ⟨rfl, rfl⟩⟩ := exists_zero_one_of_merge? ha hb h
  · exact cube_free l r
  · rw [cube_free, Set.union_comm]

theorem not_admits_split (l r : Pattern) (hne : c ≠ d) (hd : d ≠ '-') :
    ¬Admits (l ++ d :: r) (l ++ c :: r) := by
  induction l with
  | nil => exact fun h => (admits_cons_iff.mp h).1.elim hd (Ne.symm hne)
  | cons e l ih => exact fun h => ih (admits_cons_iff.mp h).2

theorem not_admits_of_merge? (ha : IsTerm width a) (hb : IsTerm width b)
    (h : merge? a b = some z) : ¬b.Admits a := by
  obtain ⟨l, r, -, ⟨rfl, rfl⟩ | ⟨rfl, rfl⟩⟩ := exists_zero_one_of_merge? ha hb h
  · exact not_admits_split l r (by decide) (by decide)
  · exact not_admits_split l r (by decide) (by decide)

/-- Two terms merge exactly if the union of their cubes is a cube and neither is inside the other. -/
theorem exists_merge?_iff (ha : IsTerm width a) (hb : IsTerm width b) :
    (∃ z, merge? a b = some z) ↔
      (∃ q : Pattern, q.cube = a.cube ∪ b.cube) ∧ ¬a.cube ⊆ b.cube ∧ ¬b.cube ⊆ a.cube := by
  rw [ha.cube_subset_iff hb.length_eq, hb.cube_subset_iff ha.length_eq]
  constructor
  · rintro ⟨z, h⟩
    have hsymm := merge?_symm (ha.length_eq.trans hb.length_eq.symm) h
    exact ⟨⟨z, cube_of_merge? ha hb h⟩, not_admits_of_merge? ha hb h,
      not_admits_of_merge? hb ha hsymm⟩
  · rintro ⟨⟨q, hq⟩, hab, hba⟩
    exact ⟨_, (isTight_of_cube ha hb hq).merge?_eq ha hb hba hab⟩

end Pattern

namespace Implicant

open Pattern (IsTerm)

/-! ## Combining -/

/-- Implicants of one width combine exactly if the union of their cubes is a cube, of a pattern of any
length, and neither is inside the other.  What comes of them, in either order, has that union for
its cube. -/
theorem combine?_iff_cube_union (width : Nat) (x y : Implicant) (hx : IsTerm width x.bits)
    (hy : IsTerm width y.bits) :
    ((∃ z, x.combine? y = some z) ↔
      (∃ q : Pattern, q.cube = x.bits.cube ∪ y.bits.cube) ∧
        ¬x.bits.cube ⊆ y.bits.cube ∧ ¬y.bits.cube ⊆ x.bits.cube) ∧
    ∀ z, x.combine? y = some z →
      IsTerm width z.bits ∧ z.bits.cube = x.bits.cube ∪ y.bits.cube ∧
        z.bits.free = x.bits.free + 1 ∧ z.bits.free = y.bits.free + 1 ∧
        (y.ones = x.ones + 1 ∨ x.ones = y.ones + 1) ∧ y.combine? x = some z := by
  have hlen := hx.length_eq.trans hy.length_eq.symm
  constructor
  · rw [← Pattern.exists_merge?_iff hx hy]
    simp [combine?]
  · intro z hz
    obtain ⟨p, hp, rfl⟩ := Option.map_eq_some_iff.mp hz
    have hsymm := Pattern.merge?_symm hlen hp
    refine ⟨Pattern.isTerm_of_merge? hx hy hp, Pattern.cube_of_merge? hx hy hp,
      Pattern.free_merge? hp, Pattern.free_merge? hsymm, Pattern.ones_of_merge? hx hy hp, ?_⟩
    rw [← combine?_comm hlen, hz]

-- Squares side by side make a cube; a square and an edge that meets it at a corner do not.
theorem combine?_iff_cube_union_squares :
    Pattern.cube "-1-".toList = Pattern.cube "01-".toList ∪ Pattern.cube "11-".toList ∧
      ¬∃ q : Pattern, q.cube = Pattern.cube "01-".toList ∪ Pattern.cube "1-1".toList := by
  have hsquare : IsTerm 3 "01-".toList := by decide
  have hedge : IsTerm 3 "1-1".toList := by decide
  constructor
  · have hmade := (combine?_iff_cube_union 3 ⟨"01-".toList, .ofList [2, 3]⟩
      ⟨"11-".toList, .ofList [6, 7]⟩ hsquare (by decide)).2
      ⟨"-1-".toList, .ofList [2, 3, 6, 7]⟩ (by decide)
    exact hmade.2.1
  · intro hunion
    have hiff := (combine?_iff_cube_union 3 ⟨"01-".toList, .ofList [2, 3]⟩
      ⟨"1-1".toList, .ofList [5, 7]⟩ hsquare hedge).1
    obtain ⟨z, hz⟩ := hiff.mpr ⟨hunion, (hsquare.cube_subset_iff rfl).not.mpr (by decide),
      (hedge.cube_subset_iff rfl).not.mpr (by decide)⟩
    have hnone : combine? ⟨"01-".toList, .ofList [2, 3]⟩ ⟨"1-1".toList, .ofList [5, 7]⟩ = none := by
      decide
    cases hnone.symm.trans hz

end Implicant

end TwoLevel
