import Mathlib.Data.Prod.Lex
import TwoLevel.Proofs.Cube

/-!
# The order of patterns

Implicants of one round come in the order of their ones, then of the least rows that they admit, and
then of their free places, of which the last ones weigh most.  Main statement: of two merges the one
whose parents come earlier in this order comes earlier itself (`order_lt_of_parents`).
-/

namespace TwoLevel

namespace Pattern

/-- The least row that a pattern admits, in which free places are zero. -/
def least : Pattern → Nat
  | [] => 0
  | c :: p => (if c = '1' then 2 ^ p.length else 0) + least p

/-- The fixed places as the ones of a number, the last place being the most significant. -/
def mask : Pattern → Nat
  | [] => 0
  | c :: p => (if c = '-' then 0 else 1) + 2 * mask p

/-- How many places are free. -/
def free (p : Pattern) : Nat := p.count '-'

/-- Where a pattern comes among those of equally many ones. -/
def place (p : Pattern) : ℕ ×ₗ ℕ := toLex (p.least, p.mask)

/-- Where a pattern comes among those of one round. -/
def order (p : Pattern) : ℕ ×ₗ ℕ ×ₗ ℕ := toLex (p.ones, p.place)

/-- Where a pattern comes among those of all rounds. -/
def rank (p : Pattern) : ℕ ×ₗ ℕ ×ₗ ℕ ×ₗ ℕ := toLex (p.free, p.order)

theorem place_lt_iff {p q : Pattern} :
    p.place < q.place ↔ p.least < q.least ∨ p.least = q.least ∧ p.mask < q.mask :=
  Prod.Lex.toLex_lt_toLex

theorem order_lt_iff {p q : Pattern} :
    p.order < q.order ↔ p.ones < q.ones ∨ p.ones = q.ones ∧ p.place < q.place :=
  Prod.Lex.toLex_lt_toLex

theorem rank_lt_iff {p q : Pattern} :
    p.rank < q.rank ↔ p.free < q.free ∨ p.free = q.free ∧ p.order < q.order :=
  Prod.Lex.toLex_lt_toLex

theorem free_cons (c : Char) (p : Pattern) : free (c :: p) = free p + if c = '-' then 1 else 0 := by
  unfold free
  rw [List.count_cons]
  simp only [beq_iff_eq]

theorem free_add_fixed (p : Pattern) : free p + fixed p = p.length := by
  induction p with
  | nil => rfl
  | cons c p ih =>
    rw [free_cons, fixed_cons, List.length_cons]
    split <;> omega

theorem free_pos_iff {p : Pattern} : 0 < free p ↔ '-' ∈ p := List.count_pos_iff

/-- A merge frees one place more than its first parent. -/
theorem free_merge? {a b c : Pattern} (h : merge? a b = some c) : free c = free a + 1 := by
  fun_induction merge? a b generalizing c with
  | case1 as d bs ih =>
    rcases Option.map_eq_some_iff.mp h with ⟨p, hp, rfl⟩
    rw [free_cons, free_cons, ih hp]
    omega
  | case2 => cases h
  | case3 d as e bs hne hfixed =>
    cases h
    have hd : d ≠ '-' := fun hd => hfixed (.inl hd)
    rw [free_cons, free_cons, if_pos rfl, if_neg hd]
  | case4 => cases h
  | case5 => cases h

/-! ## Least rows -/

theorem least_lt (p : Pattern) : least p < 2 ^ p.length := by
  induction p with
  | nil => decide
  | cons c p ih =>
    rw [least, List.length_cons, Nat.pow_succ]
    split <;> omega

-- A place is one or not, whatever stands around it.
theorem least_split (l r : Pattern) (c : Char) :
    least (l ++ c :: r) = least (l ++ '-' :: r) + if c = '1' then 2 ^ r.length else 0 := by
  induction l with
  | nil =>
    rw [List.nil_append, List.nil_append, least, least, if_neg (by decide : '-' ≠ '1')]
    omega
  | cons d l ih =>
    have hlen : (l ++ c :: r).length = (l ++ '-' :: r).length := by simp
    rw [List.cons_append, List.cons_append, least, least, hlen, ih]
    omega

theorem lowBits_least {p : Pattern} : lowBits p.length (least p) =
    p.map fun c => if c = '1' then '1' else '0' := by
  induction p with
  | nil => rfl
  | cons c p ih =>
    have hlt := least_lt p
    rw [List.length_cons, lowBits, List.map_cons]
    by_cases hc : c = '1'
    · have htop : (2 ^ p.length + least p).testBit p.length = true := by
        rw [Nat.testBit_two_pow_add_eq, Nat.testBit_lt_two_pow hlt]
        rfl
      have hlow : lowBits p.length (2 ^ p.length + least p) = lowBits p.length (least p) :=
        lowBits_congr fun i hi => Nat.testBit_two_pow_add_gt hi _
      rw [least, if_pos hc, htop, hlow, ih, if_pos hc]
      rfl
    · have htop : (least p).testBit p.length = false := Nat.testBit_lt_two_pow hlt
      rw [least, if_neg hc, Nat.zero_add, htop, ih, if_neg hc]
      rfl

theorem lowBits_least_of_isDigits {ds : Pattern} (h : IsDigits ds) :
    lowBits ds.length (least ds) = ds := by
  rw [lowBits_least]
  conv_rhs => rw [← List.map_id ds]
  apply List.map_congr_left
  intro d hd
  rcases h d hd with rfl | rfl <;> rfl

theorem least_lowBits {width n : Nat} (hn : n < 2 ^ width) : least (lowBits width n) = n := by
  have hlen := length_lowBits width n
  have hlt := least_lt (lowBits width n)
  have hbits := lowBits_least_of_isDigits (isDigits_lowBits width n)
  rw [hlen] at hlt hbits
  exact lowBits_inj hlt hn hbits

/-! ## Free places -/

theorem mask_split (l r : Pattern) (c : Char) :
    mask (l ++ c :: r) = mask (l ++ '-' :: r) + if c = '-' then 0 else 2 ^ l.length := by
  induction l with
  | nil =>
    rw [List.nil_append, List.nil_append, mask, mask, if_pos rfl, List.length_nil]
    split <;> omega
  | cons d l ih =>
    rw [List.cons_append, List.cons_append, mask, mask, ih, List.length_cons, Nat.pow_succ]
    split_ifs <;> omega

theorem fixed_eq_of_mask_eq {p q : Pattern} (hlen : p.length = q.length) (h : mask p = mask q) :
    fixed p = fixed q := by
  induction p generalizing q with
  | nil =>
    rw [List.length_nil, eq_comm, List.length_eq_zero_iff] at hlen
    rw [hlen]
  | cons c p ih =>
    cases q with
    | nil => cases hlen
    | cons d q =>
      rw [List.length_cons, List.length_cons, Nat.succ_inj] at hlen
      rw [mask, mask] at h
      have htail : mask p = mask q := by split at h <;> split at h <;> omega
      rw [fixed_cons, fixed_cons, ih hlen htail]
      split at h <;> split at h <;> simp_all

-- The mask of a pattern with at least as many fixed places falls short by the whole of a place
-- behind which it does not differ.
theorem mask_le_of_lt {l r p : Pattern} (hl : '-' ∉ l) (hlen : p.length = (l ++ '0' :: r).length)
    (hfixed : fixed (l ++ '0' :: r) ≤ fixed p) (h : mask p < mask (l ++ '0' :: r)) :
    mask p ≤ mask (l ++ '-' :: r) := by
  induction l generalizing p with
  | nil =>
    rw [List.nil_append, mask, if_neg (by decide)] at h
    rw [List.nil_append, mask, if_pos rfl]
    cases p with
    | nil => cases hlen
    | cons c p =>
      rw [mask] at h ⊢
      omega
  | cons d l ih =>
    rw [List.mem_cons, not_or] at hl
    cases p with
    | nil => cases hlen
    | cons c p =>
      rw [List.cons_append, List.length_cons, List.length_cons, Nat.succ_inj] at hlen
      rw [List.cons_append, fixed_cons, fixed_cons, if_neg (Ne.symm hl.1)] at hfixed
      rw [List.cons_append, mask, mask, if_neg (Ne.symm hl.1)] at h
      rw [List.cons_append, mask, mask, if_neg (Ne.symm hl.1)]
      by_cases hc : c = '-'
      · rw [if_pos hc] at hfixed h ⊢
        -- equal masks behind this place would make `p` fix one place fewer
        have hne : mask p ≠ mask (l ++ '0' :: r) := by
          intro heq
          have := fixed_eq_of_mask_eq hlen heq
          omega
        have := ih hl.2 hlen (by omega) (by omega)
        omega
      · rw [if_neg hc] at hfixed h ⊢
        have := ih hl.2 hlen (by omega) (by omega)
        omega

/-! ## Merges -/

/-- Where a merge comes among those of its round, told by its parents. -/
def parents (lower upper : Pattern) : ℕ ×ₗ (ℕ ×ₗ ℕ) ×ₗ (ℕ ×ₗ ℕ) :=
  toLex (lower.ones, toLex (lower.place, upper.place))

theorem parents_lt_iff {a b c d : Pattern} : parents a b < parents c d ↔
    a.ones < c.ones ∨ a.ones = c.ones ∧
      (a.place < c.place ∨ a.place = c.place ∧ b.place < d.place) := by
  rw [parents, parents, Prod.Lex.toLex_lt_toLex, Prod.Lex.toLex_lt_toLex]

theorem place_eq_iff {p q : Pattern} :
    p.place = q.place ↔ p.least = q.least ∧ p.mask = q.mask := by
  rw [place, place, toLex_inj, Prod.mk.injEq]

-- What a merge has of its parents.
theorem ones_zero (l r : Pattern) : ones (l ++ '0' :: r) = ones (l ++ '-' :: r) := by
  rw [ones_split, ones_split, if_neg (by decide), if_neg (by decide)]

theorem least_zero (l r : Pattern) : least (l ++ '0' :: r) = least (l ++ '-' :: r) := by
  rw [least_split, if_neg (by decide), Nat.add_zero]

theorem least_one (l r : Pattern) :
    least (l ++ '1' :: r) = least (l ++ '-' :: r) + 2 ^ r.length := by
  rw [least_split, if_pos rfl]

theorem mask_zero (l r : Pattern) :
    mask (l ++ '0' :: r) = mask (l ++ '-' :: r) + 2 ^ l.length := by
  rw [mask_split, if_neg (by decide)]

theorem mask_one (l r : Pattern) : mask (l ++ '1' :: r) = mask (l ++ '0' :: r) := by
  rw [mask_zero, mask_split, if_neg (by decide)]

/-- Merges with earlier parents come earlier themselves, if the later one of them frees the first of
the places that are free in it. -/
theorem order_lt_of_parents {l r l' r' : Pattern} (hl : '-' ∉ l')
    (hlen : (l ++ '-' :: r).length = (l' ++ '-' :: r').length)
    (hfixed : fixed (l ++ '-' :: r) = fixed (l' ++ '-' :: r'))
    (h : parents (l ++ '0' :: r) (l ++ '1' :: r) < parents (l' ++ '0' :: r') (l' ++ '1' :: r')) :
    order (l ++ '-' :: r) < order (l' ++ '-' :: r') := by
  simp only [parents_lt_iff, place_lt_iff, place_eq_iff, ones_zero, least_zero, mask_one] at h
  rw [order_lt_iff, place_lt_iff]
  rcases h with hones | ⟨hones, hplace⟩
  · exact .inl hones
  refine .inr ⟨hones, ?_⟩
  rcases hplace with (hleast | ⟨hleast, hmask⟩) | ⟨⟨hleast, hmask⟩, hupper | ⟨-, habsurd⟩⟩
  · exact .inl hleast
  · -- the first merge frees a place that the mask of its lower parent has more
    have hlen' : (l ++ '0' :: r).length = (l' ++ '0' :: r').length := by
      rw [List.length_append, List.length_cons] at hlen ⊢
      rw [hlen, List.length_append, List.length_append, List.length_cons, List.length_cons]
    have hfixed' : fixed (l' ++ '0' :: r') ≤ fixed (l ++ '0' :: r) := by
      rw [← fixed_free_add_one l r (by decide), ← fixed_free_add_one l' r' (by decide), hfixed]
    have hle := mask_le_of_lt hl hlen' hfixed' hmask
    have hpos := Nat.two_pow_pos l.length
    rw [mask_zero] at hle
    exact .inr ⟨hleast, by omega⟩
  · -- equal lower parents: the one that frees a later place has the smaller upper parent
    rw [least_one, least_one, hleast] at hupper
    have hr : r.length < r'.length := by
      have hpow : 2 ^ r.length < 2 ^ r'.length := by omega
      exact (Nat.pow_lt_pow_iff_right (by decide)).mp hpow
    rw [List.length_append, List.length_append, List.length_cons, List.length_cons] at hlen
    have hpow : 2 ^ l'.length < 2 ^ l.length :=
      Nat.pow_lt_pow_right (by decide) (by omega)
    rw [mask_zero, mask_zero] at hmask
    exact .inr ⟨hleast, by omega⟩
  · omega

end Pattern

end TwoLevel
