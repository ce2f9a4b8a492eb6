import Mathlib.Algebra.Group.Int.Defs
import Mathlib.Algebra.Group.Nat.Defs
import Mathlib.Data.List.Forall2
import Mathlib.Data.Set.Insert
import TwoLevel.Pattern

/-!
# Cubes

A pattern over zeros, ones and dashes stands for a cube: the rows whose binary digits agree with it
at every fixed place.  Main statements: a cube is the union of the two that fix one of its free
places (`cube_free`), two patterns of neighbouring ones merge exactly when they are such a pair
(`merge?_eq_some_iff`), and each pattern without a dash is the cube of one row (`cube_lowBits`).
-/

namespace TwoLevel

namespace Pattern

/-! ## Binary digits -/

def IsDigits (ds : Pattern) : Prop := ∀ d ∈ ds, d = '0' ∨ d = '1'

theorem isDigits_lowBits (width n : Nat) : IsDigits (lowBits width n) := by
  induction width with
  | zero =>
    intro d hd
    cases hd
  | succ width ih =>
    intro d hd
    rw [lowBits] at hd
    rcases List.mem_cons.mp hd with rfl | hd
    · cases n.testBit width
      · exact .inl rfl
      · exact .inr rfl
    · exact ih d hd

theorem lowBits_congr {width n m : Nat} (h : ∀ i < width, n.testBit i = m.testBit i) :
    lowBits width n = lowBits width m := by
  induction width with
  | zero => rfl
  | succ width ih =>
    rw [lowBits, lowBits, h width (Nat.lt_succ_self width),
      ih fun i hi => h i (Nat.lt_succ_of_lt hi)]

theorem testBit_eq_of_lowBits_eq {width n m : Nat} (h : lowBits width n = lowBits width m)
    {i : Nat} (hi : i < width) : n.testBit i = m.testBit i := by
  induction width with
  | zero => omega
  | succ width ih =>
    simp only [lowBits, List.cons.injEq] at h
    rcases h with ⟨hhead, htail⟩
    by_cases he : i = width
    · subst he
      cases hn : n.testBit i <;> cases hm : m.testBit i <;> simp [hn, hm] at hhead ⊢
    · exact ih htail (by omega)

-- The digits tell the rows of a table apart.
theorem lowBits_inj {width n m : Nat} (hn : n < 2 ^ width) (hm : m < 2 ^ width)
    (h : lowBits width n = lowBits width m) : n = m := by
  apply Nat.eq_of_testBit_eq
  intro i
  by_cases hi : i < width
  · exact testBit_eq_of_lowBits_eq h hi
  · -- beyond the width both numbers have zeros only
    have hle : 2 ^ width ≤ 2 ^ i := Nat.pow_le_pow_right (by decide) (Nat.le_of_not_lt hi)
    rw [Nat.testBit_lt_two_pow (by omega), Nat.testBit_lt_two_pow (by omega)]

-- Any zeros and ones are the digits of a row.
theorem exists_lowBits_eq {ds : Pattern} (h : IsDigits ds) :
    ∃ n < 2 ^ ds.length, lowBits ds.length n = ds := by
  induction ds with
  | nil => exact ⟨0, by decide, rfl⟩
  | cons d ds ih =>
    rcases ih fun c hc => h c (List.mem_cons_of_mem d hc) with ⟨n, hn, hbits⟩
    -- the later digits make a number that leaves the place of the first one empty
    have htop : n.testBit ds.length = false := Nat.testBit_lt_two_pow hn
    rw [List.length_cons, Nat.pow_succ]
    rcases h d List.mem_cons_self with rfl | rfl
    · have hzero : lowBits (ds.length + 1) n = '0' :: ds := by
        rw [lowBits, htop, hbits]
        rfl
      exact ⟨n, by omega, hzero⟩
    · have hlow : lowBits ds.length (2 ^ ds.length + n) = lowBits ds.length n :=
        lowBits_congr fun i hi => Nat.testBit_two_pow_add_gt hi n
      have hone : lowBits (ds.length + 1) (2 ^ ds.length + n) = '1' :: ds := by
        rw [lowBits, hlow, hbits, Nat.testBit_two_pow_add_eq, htop]
        rfl
      exact ⟨2 ^ ds.length + n, by omega, hone⟩

-- A number that fits has one digit for every place.
theorem length_ofNat {width n : Nat} (hw : 0 < width) (h : n < 2 ^ width) :
    (ofNat width n).length = width := by
  rw [ofNat, length_lowBits]
  by_cases hn : n = 0
  · subst hn
    have hlog : Nat.log2 0 = 0 := rfl
    omega
  · have hlog := (Nat.log2_lt hn).mpr h
    omega

-- Rows are integers and digits those of a natural number: this is where the two bounds meet.
theorem natCast_two_pow (width : Nat) : ((2 ^ width : Nat) : Int) = 2 ^ width := by norm_cast

theorem toNat_lt_two_pow {width : Nat} {row : Int} (h0 : 0 ≤ row) (h : row < 2 ^ width) :
    row.toNat < 2 ^ width := by
  have hcast := natCast_two_pow width
  omega

theorem ofRow_eq_lowBits {width : Nat} {row : Int} (h0 : 0 ≤ row) (h : row < 2 ^ width) :
    ofRow width row = lowBits width row.toNat := by
  have hlt := toNat_lt_two_pow h0 h
  unfold ofRow
  split
  · rename_i hw
    rw [hw, lowBits]
  · rename_i hw
    have hlen := length_ofNat (Nat.pos_of_ne_zero hw) hlt
    rw [if_neg (by omega), ofNat]
    rw [ofNat, length_lowBits] at hlen
    rw [hlen]

/-! ## The cube of a pattern -/

/-- A place for each variable, with a zero, a one or a dash in it. -/
structure IsTerm (width : Nat) (p : Pattern) : Prop where
  length_eq : p.length = width
  places : ∀ c ∈ p, c = '0' ∨ c = '1' ∨ c = '-'

-- The test runs over the places, not over all characters.
instance (width : Nat) (p : Pattern) : Decidable (IsTerm width p) :=
  decidable_of_iff (p.length = width ∧ p.all (fun c => c = '0' ∨ c = '1' ∨ c = '-') = true)
    (by
      simp only [List.all_eq_true, decide_eq_true_eq]
      exact ⟨fun h => ⟨h.1, h.2⟩, fun h => ⟨h.length_eq, h.places⟩⟩)

/-- Every place is free or has the digit of the same place. -/
def Admits (p ds : Pattern) : Prop := List.Forall₂ (fun c d => c = '-' ∨ c = d) p ds

instance (p ds : Pattern) : Decidable (p.Admits ds) :=
  inferInstanceAs (Decidable (List.Forall₂ _ p ds))

/-- The rows whose binary digits the pattern admits. -/
def cube (p : Pattern) : Set Int :=
  {row | 0 ≤ row ∧ row < 2 ^ p.length ∧ p.Admits (lowBits p.length row.toNat)}

theorem mem_cube {p : Pattern} {row : Int} :
    row ∈ p.cube ↔ 0 ≤ row ∧ row < 2 ^ p.length ∧ p.Admits (lowBits p.length row.toNat) := Iff.rfl

theorem natCast_bounds {width n : Nat} (h : n < 2 ^ width) :
    0 ≤ (n : Int) ∧ (n : Int) < 2 ^ width := by
  have hcast := natCast_two_pow width
  omega

theorem natCast_mem_cube {width n : Nat} {p : Pattern} (hp : p.length = width)
    (hn : n < 2 ^ width) : (n : Int) ∈ p.cube ↔ p.Admits (lowBits width n) := by
  have hbounds := natCast_bounds hn
  rw [mem_cube, hp, Int.toNat_natCast, and_iff_right hbounds.1, and_iff_right hbounds.2]

theorem admits_cons_iff {c d : Char} {p ds : Pattern} :
    Admits (c :: p) (d :: ds) ↔ (c = '-' ∨ c = d) ∧ Admits p ds := List.forall₂_cons

theorem admits_free_iff {l r ds : Pattern} (hds : IsDigits ds) :
    Admits (l ++ '-' :: r) ds ↔ Admits (l ++ '0' :: r) ds ∨ Admits (l ++ '1' :: r) ds := by
  -- before the free place the three patterns ask the same of the digits
  induction l generalizing ds with
  | nil =>
    cases ds with
    | nil => simp [Admits]
    | cons d ds =>
      simp only [List.nil_append, admits_cons_iff]
      rcases hds d List.mem_cons_self with rfl | rfl <;> simp
  | cons c l ih =>
    cases ds with
    | nil => simp [Admits]
    | cons d ds =>
      simp only [List.cons_append, admits_cons_iff]
      rw [ih fun e he => hds e (List.mem_cons_of_mem d he), and_or_left]

/-- Freeing a place joins the two cubes that fix it. -/
theorem cube_free (l r : Pattern) :
    cube (l ++ '-' :: r) = cube (l ++ '0' :: r) ∪ cube (l ++ '1' :: r) := by
  ext row
  rw [Set.mem_union, mem_cube, mem_cube, mem_cube]
  have hlen (c : Char) : (l ++ c :: r).length = l.length + (r.length + 1) := by
    rw [List.length_append, List.length_cons]
  rw [hlen, hlen, hlen, admits_free_iff (isDigits_lowBits _ _)]
  tauto

theorem admits_iff_eq {p ds : Pattern} (hp : ∀ c ∈ p, c ≠ '-') : Admits p ds ↔ p = ds := by
  induction p generalizing ds with
  | nil => simp [Admits, eq_comm]
  | cons c p ih =>
    cases ds with
    | nil => simp [Admits]
    | cons d ds =>
      rw [admits_cons_iff, ih fun e he => hp e (List.mem_cons_of_mem c he), List.cons.injEq]
      simp [hp c List.mem_cons_self]

theorem Admits.refl (p : Pattern) : p.Admits p := List.forall₂_same.mpr fun _ _ => .inr rfl

theorem Admits.trans {p q ds : Pattern} (hpq : p.Admits q) (hqd : q.Admits ds) : p.Admits ds := by
  induction hpq generalizing ds with
  | nil => exact hqd
  | cons hcd _ ih =>
    cases hqd with
    | cons hde htail =>
      refine List.Forall₂.cons ?_ (ih htail)
      rcases hcd with rfl | rfl
      · exact .inl rfl
      · exact hde

theorem Admits.antisymm {p q : Pattern} (hpq : p.Admits q) (hqp : q.Admits p) : p = q := by
  induction hpq with
  | nil => rfl
  | cons hcd _ ih =>
    rw [admits_cons_iff] at hqp
    rw [ih hqp.2]
    rcases hcd with rfl | rfl
    · rcases hqp.1 with rfl | rfl <;> rfl
    · rfl

theorem admits_free (l r : Pattern) (c : Char) : Admits (l ++ '-' :: r) (l ++ c :: r) := by
  induction l with
  | nil => exact List.Forall₂.cons (.inl rfl) (Admits.refl r)
  | cons d l ih => exact List.Forall₂.cons (.inr rfl) ih

-- A pattern that admits another one has all rows of its cube.
theorem cube_subset_of_admits {p q : Pattern} (h : q.Admits p) : p.cube ⊆ q.cube := by
  intro row hrow
  rcases mem_cube.mp hrow with ⟨h0, hlt, hadmits⟩
  have hlen : q.length = p.length := h.length_eq
  rw [mem_cube, hlen]
  exact ⟨h0, hlt, h.trans hadmits⟩

theorem fixed_le_of_admits {p q : Pattern} (h : q.Admits p) : q.fixed ≤ p.fixed := by
  induction h with
  | nil => exact Nat.le_refl _
  | cons hcd _ ih =>
    rw [fixed_cons, fixed_cons]
    rcases hcd with rfl | rfl
    · rw [if_pos rfl]
      omega
    · omega

theorem ne_dash_of_isDigits {ds : Pattern} (h : IsDigits ds) : ∀ c ∈ ds, c ≠ '-' := by
  intro c hc
  rcases h c hc with rfl | rfl <;> decide

/-- The digits of a row are the cube of that row alone. -/
theorem cube_lowBits {width n : Nat} (hn : n < 2 ^ width) :
    cube (lowBits width n) = {(n : Int)} := by
  ext row
  have hfree := ne_dash_of_isDigits (isDigits_lowBits width n)
  have hcast := natCast_two_pow width
  rw [mem_cube, length_lowBits, admits_iff_eq hfree, Set.mem_singleton_iff]
  apply Iff.intro
  · intro hboth
    rcases hboth with ⟨h0, hlt, heq⟩
    have hrow := lowBits_inj hn (by omega) heq
    omega
  · intro he
    subst he
    exact ⟨by omega, by omega, by rw [Int.toNat_natCast]⟩

theorem cube_lowBits_toNat {width : Nat} {row : Int} (h0 : 0 ≤ row) (h : row < 2 ^ width) :
    cube (lowBits width row.toNat) = {row} := by
  rw [cube_lowBits (toNat_lt_two_pow h0 h), Int.toNat_of_nonneg h0]

/-! ## Merging -/

theorem agree_iff_eq {a b : Pattern} (hlen : a.length = b.length) : agree a b = true ↔ a = b := by
  induction a generalizing b with
  | nil =>
    cases b with
    | nil => simp [agree]
    | cons d b => simp at hlen
  | cons c a ih =>
    cases b with
    | nil => simp at hlen
    | cons d b =>
      rw [List.length_cons, List.length_cons, Nat.succ_inj] at hlen
      simp [agree, ih hlen]

theorem exists_split_of_merge? {a b z : Pattern} (hlen : a.length = b.length)
    (h : merge? a b = some z) :
    ∃ l c d r, a = l ++ c :: r ∧ b = l ++ d :: r ∧ z = l ++ '-' :: r ∧
      c ≠ d ∧ c ≠ '-' ∧ d ≠ '-' := by
  -- the places before the first difference are equal, and `agree` looks at those after it
  fun_induction merge? a b generalizing z with
  | case1 as c bs ih =>
    rcases Option.map_eq_some_iff.mp h with ⟨z', hz', rfl⟩
    rw [List.length_cons, List.length_cons, Nat.succ_inj] at hlen
    rcases ih hlen hz' with ⟨l, c', d', r, rfl, rfl, rfl, hne⟩
    exact ⟨c :: l, c', d', r, rfl, rfl, rfl, hne⟩
  | case2 => cases h
  | case3 c as d bs hne hfixed hagree =>
    cases h
    rw [List.length_cons, List.length_cons, Nat.succ_inj] at hlen
    have heq := (agree_iff_eq hlen).mp hagree
    exact ⟨[], c, d, as, rfl, by rw [heq]; rfl, rfl, hne, fun hc => hfixed (.inl hc),
      fun hd => hfixed (.inr hd)⟩
  | case4 => cases h
  | case5 => cases h

/-- Terms that merge have a zero against a one in a single place, in one order or the other. -/
theorem exists_zero_one_of_merge? {width : Nat} {a b z : Pattern} (ha : IsTerm width a)
    (hb : IsTerm width b) (h : merge? a b = some z) :
    ∃ l r, z = l ++ '-' :: r ∧
      (a = l ++ '0' :: r ∧ b = l ++ '1' :: r ∨ a = l ++ '1' :: r ∧ b = l ++ '0' :: r) := by
  rcases exists_split_of_merge? (ha.length_eq.trans hb.length_eq.symm) h with
    ⟨l, c, d, r, rfl, rfl, rfl, hne, hc, hd⟩
  refine ⟨l, r, rfl, ?_⟩
  have hcplace := ha.places c (by simp)
  have hdplace := hb.places d (by simp)
  rcases hcplace with rfl | rfl | rfl
  · rcases hdplace with rfl | rfl | rfl
    · exact absurd rfl hne
    · exact .inl ⟨rfl, rfl⟩
    · exact absurd rfl hd
  · rcases hdplace with rfl | rfl | rfl
    · exact .inr ⟨rfl, rfl⟩
    · exact absurd rfl hne
    · exact absurd rfl hd
  · exact absurd rfl hc

theorem merge?_split (l r : Pattern) {c d : Char} (hne : c ≠ d) (hc : c ≠ '-') (hd : d ≠ '-') :
    merge? (l ++ c :: r) (l ++ d :: r) = some (l ++ '-' :: r) := by
  induction l with
  | nil =>
    have hagree : agree r r = true := (agree_iff_eq rfl).mpr rfl
    simp [merge?, hne, hc, hd, hagree]
  | cons e l ih => simp [merge?, ih]

theorem ones_split (l r : Pattern) (c : Char) :
    ones (l ++ c :: r) = ones l + ones r + if c = '1' then 1 else 0 := by
  unfold ones
  rw [List.count_append, List.count_cons]
  simp only [beq_iff_eq]
  omega

-- Freeing a fixed place leaves one fixed place fewer.
theorem fixed_free_add_one (l r : Pattern) {c : Char} (hc : c ≠ '-') :
    fixed (l ++ '-' :: r) + 1 = fixed (l ++ c :: r) := by
  have happend (d : Char) : fixed (l ++ d :: r) = fixed l + fixed (d :: r) := List.countP_append
  rw [happend, happend, fixed_cons, fixed_cons, if_pos rfl, if_neg hc]
  omega

/-- Terms of which the second has one more one merge exactly if they differ by a zero and a one in
the same place. -/
theorem merge?_eq_some_iff {width : Nat} {a b z : Pattern} (ha : IsTerm width a)
    (hb : IsTerm width b) (hones : ones b = ones a + 1) :
    merge? a b = some z ↔
      ∃ l r, a = l ++ '0' :: r ∧ b = l ++ '1' :: r ∧ z = l ++ '-' :: r := by
  apply Iff.intro
  · intro h
    rcases exists_zero_one_of_merge? ha hb h with ⟨l, r, rfl, ⟨rfl, rfl⟩ | ⟨rfl, rfl⟩⟩
    · exact ⟨l, r, rfl, rfl, rfl⟩
    · -- the one stands in the pattern that would have fewer ones
      rw [ones_split, ones_split, if_pos rfl, if_neg (by decide)] at hones
      omega
  · intro hex
    rcases hex with ⟨l, r, rfl, rfl, rfl⟩
    exact merge?_split l r (by decide) (by decide) (by decide)

/-! ## Terms -/

theorem IsTerm.of_cons {width : Nat} {c : Char} {p : Pattern} (h : IsTerm (width + 1) (c :: p)) :
    IsTerm width p :=
  ⟨Nat.succ_inj.mp h.length_eq, fun d hd => h.places d (List.mem_cons_of_mem c hd)⟩

theorem IsTerm.replace {width : Nat} {l r : Pattern} {c d : Char}
    (hc : c = '0' ∨ c = '1' ∨ c = '-') (h : IsTerm width (l ++ d :: r)) :
    IsTerm width (l ++ c :: r) := by
  apply IsTerm.mk
  · have hlen := h.length_eq
    rw [List.length_append, List.length_cons] at hlen ⊢
    exact hlen
  · intro e he
    rcases List.mem_append.mp he with hl | hr
    · exact h.places e (List.mem_append_left _ hl)
    · rcases List.mem_cons.mp hr with rfl | hr
      · exact hc
      · exact h.places e (List.mem_append_right _ (List.mem_cons_of_mem d hr))

theorem IsTerm.of_admits {width : Nat} {p q : Pattern} (hq : IsTerm width q)
    (h : p.Admits q) : IsTerm width p := by
  refine ⟨h.length_eq.trans hq.length_eq, ?_⟩
  have hplaces := hq.places
  clear hq
  induction h with
  | nil => exact hplaces
  | cons hcd _ ih =>
    rw [List.forall_mem_cons] at hplaces ⊢
    refine ⟨?_, ih hplaces.2⟩
    rcases hcd with rfl | rfl
    · exact .inr (.inr rfl)
    · exact hplaces.1

theorem isTerm_lowBits (width n : Nat) : IsTerm width (lowBits width n) := by
  have hplaces : ∀ c ∈ lowBits width n, c = '0' ∨ c = '1' ∨ c = '-' := by
    intro c hc
    rcases isDigits_lowBits width n c hc with h | h
    · exact .inl h
    · exact .inr (.inl h)
  exact ⟨length_lowBits width n, hplaces⟩

theorem fixed_le_length (p : Pattern) : fixed p ≤ p.length := List.countP_le_length

theorem fixed_lowBits (width n : Nat) : fixed (lowBits width n) = width := by
  have hfree := ne_dash_of_isDigits (isDigits_lowBits width n)
  have hall : fixed (lowBits width n) = (lowBits width n).length :=
    List.countP_eq_length.mpr fun c hc => by simpa using hfree c hc
  rw [hall, length_lowBits]

-- A term that fixes every place has the digits of a row.
theorem exists_lowBits_of_fixed {width : Nat} {p : Pattern} (hp : IsTerm width p)
    (hfixed : fixed p = width) : ∃ n < 2 ^ width, p = lowBits width n := by
  have hall : ∀ c ∈ p, c ≠ '-' := by
    have hcount : fixed p = p.length := hfixed.trans hp.length_eq.symm
    intro c hc
    simpa using List.countP_eq_length.mp hcount c hc
  have hdigits : IsDigits p := by
    intro c hc
    rcases hp.places c hc with h | h | h
    · exact .inl h
    · exact .inr h
    · exact absurd h (hall c hc)
  rcases exists_lowBits_eq hdigits with ⟨n, hn, hbits⟩
  rw [hp.length_eq] at hn hbits
  exact ⟨n, hn, hbits.symm⟩

end Pattern

end TwoLevel
