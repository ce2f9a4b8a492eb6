import TwoLevel.Proofs.PatternOrder

/-!
# Dropped places

A variable that a function does not depend on can be dropped.  Rows lose its digit, and a pattern
over the variables that are kept spreads to one over all of them, free at the dropped places.  Main
statements: a spread pattern admits a row exactly if the pattern admits what is kept of the row
(`admits_spread_iff`), spreading keeps the order of patterns (`rank_spread_lt`), and equally many
rows are projected to each row over the kept places (`countP_project`).
-/

namespace TwoLevel

/-! ## What is kept of a list -/

section Kept

variable {α β : Type}

/-- The members of a list at the places that are kept. -/
def kept : List Bool → List α → List α
  | [], l => l
  | _ :: _, [] => []
  | true :: keep, a :: l => a :: kept keep l
  | false :: keep, _ :: l => kept keep l

theorem length_kept {keep : List Bool} {l : List α} (h : l.length = keep.length) :
    (kept keep l).length = keep.count true := by
  induction keep generalizing l with
  | nil => exact h
  | cons b keep ih =>
    cases l with
    | nil => cases h
    | cons a l =>
      rw [List.length_cons, List.length_cons, Nat.succ_inj] at h
      cases b with
      | false => rw [kept, ih h, List.count_cons_of_ne (by decide)]
      | true => rw [kept, List.length_cons, ih h, List.count_cons_self]

theorem kept_map (keep : List Bool) (f : α → β) (l : List α) :
    kept keep (l.map f) = (kept keep l).map f := by
  induction keep generalizing l with
  | nil => rfl
  | cons b keep ih =>
    cases l with
    | nil => rfl
    | cons a l => cases b <;> simp [kept, ih]

-- Keeping the places of the members with a property keeps these members.
theorem kept_map_eq_filter (f : α → Bool) (l : List α) : kept (l.map f) l = l.filter f := by
  induction l with
  | nil => rfl
  | cons a l ih =>
    rw [List.map_cons, List.filter_cons]
    cases f a with
    | false => exact ih
    | true => exact congrArg (a :: ·) ih

theorem kept_sublist (keep : List Bool) (l : List α) : (kept keep l).Sublist l := by
  induction keep generalizing l with
  | nil => exact List.Sublist.refl l
  | cons b keep ih =>
    cases l with
    | nil => exact List.Sublist.refl []
    | cons a l =>
      cases b with
      | false => exact (ih l).cons a
      | true => exact (ih l).cons_cons a

theorem mem_of_mem_kept {keep : List Bool} {a : α} {l : List α} (h : a ∈ kept keep l) : a ∈ l :=
  (kept_sublist keep l).subset h

end Kept

namespace Pattern

variable {keep : List Bool} {p q ds : Pattern}

/-- The pattern that is free at the dropped places. -/
def spread : List Bool → Pattern → Pattern
  | [], p => p
  | false :: keep, p => '-' :: spread keep p
  | true :: _, [] => []
  | true :: keep, c :: p => c :: spread keep p

theorem kept_spread (keep : List Bool) (p : Pattern) : kept keep (spread keep p) = p := by
  fun_induction spread keep p with
  | case1 => rfl
  | case2 p keep ih => exact ih
  | case3 => rfl
  | case4 keep c p ih => rw [kept, ih]

theorem spread_inj : spread keep p = spread keep q ↔ p = q := by
  apply Iff.intro
  · intro h
    rw [← kept_spread keep p, h, kept_spread]
  · exact congrArg (spread keep)

theorem length_spread (h : p.length = keep.count true) : (spread keep p).length = keep.length := by
  fun_induction spread keep p with
  | case1 => exact h
  | case2 p keep ih =>
    rw [List.count_cons_of_ne (by decide)] at h
    rw [List.length_cons, List.length_cons, ih h]
  | case3 =>
    rw [List.count_cons_self] at h
    cases h
  | case4 keep c p ih =>
    rw [List.count_cons_self, List.length_cons, Nat.succ_inj] at h
    rw [List.length_cons, List.length_cons, ih h]

theorem mem_spread {c : Char} (h : c ∈ spread keep p) : c = '-' ∨ c ∈ p := by
  fun_induction spread keep p with
  | case1 => exact .inr h
  | case2 p keep ih =>
    rcases List.mem_cons.mp h with rfl | h
    · exact .inl rfl
    · exact ih h
  | case3 => exact .inr h
  | case4 keep d p ih =>
    rcases List.mem_cons.mp h with rfl | h
    · exact .inr List.mem_cons_self
    · exact (ih h).imp_right (List.mem_cons_of_mem d)

theorem IsTerm.spread (h : IsTerm (keep.count true) p) : IsTerm keep.length (spread keep p) := by
  refine ⟨length_spread h.length_eq, ?_⟩
  intro c hc
  rcases mem_spread hc with rfl | hc
  · exact .inr (.inr rfl)
  · exact h.places c hc

theorem IsTerm.kept (h : IsTerm keep.length p) : IsTerm (keep.count true) (kept keep p) :=
  ⟨length_kept h.length_eq, fun c hc => h.places c (mem_of_mem_kept hc)⟩

/-! ## Admitting -/

/-- A spread pattern looks at what is kept. -/
theorem admits_spread_iff (h : ds.length = keep.length) :
    (spread keep p).Admits ds ↔ p.Admits (kept keep ds) := by
  fun_induction spread keep p generalizing ds with
  | case1 => exact Iff.rfl
  | case2 p keep ih =>
    cases ds with
    | nil => cases h
    | cons d ds =>
      rw [List.length_cons, List.length_cons, Nat.succ_inj] at h
      rw [admits_cons_iff, and_iff_right (.inl rfl), ih h]
      rfl
  | case3 =>
    cases ds with
    | nil => cases h
    | cons d ds => simp [Admits, kept]
  | case4 keep c p ih =>
    cases ds with
    | nil => cases h
    | cons d ds =>
      rw [List.length_cons, List.length_cons, Nat.succ_inj] at h
      rw [admits_cons_iff, ih h]
      exact admits_cons_iff.symm

theorem admits_kept (keep : List Bool) (h : p.Admits q) :
    Admits (kept keep p) (kept keep q) := by
  induction h generalizing keep with
  | nil => cases keep <;> exact List.Forall₂.nil
  | cons hcd htail ih =>
    cases keep with
    | nil => exact List.Forall₂.cons hcd htail
    | cons b keep =>
      cases b with
      | false => exact ih keep
      | true => exact List.Forall₂.cons hcd (ih keep)

-- What is free at the dropped places is told by what is kept.
theorem spread_kept_of_admits (h : q.Admits (spread keep p)) : spread keep (kept keep q) = q := by
  fun_induction spread keep p generalizing q with
  | case1 => rfl
  | case2 p keep ih =>
    cases h with
    | cons hc htail =>
      rw [kept, spread, ih htail, or_self_iff.mp hc]
  | case3 =>
    cases h
    rfl
  | case4 keep c p ih =>
    cases h with
    | cons hc htail => rw [kept, spread, ih htail]

-- The digits that a pattern asks for at the dropped places can be added to those that are kept.
theorem exists_admits_of_kept (hp : IsTerm keep.length p) (hds : IsDigits ds)
    (h : Admits (kept keep p) ds) : ∃ es, IsDigits es ∧ p.Admits es ∧ kept keep es = ds := by
  induction keep generalizing p ds with
  | nil => exact ⟨ds, hds, h, rfl⟩
  | cons b keep ih =>
    rcases hp with ⟨hlen, hplaces⟩
    cases p with
    | nil => cases hlen
    | cons c p =>
      rw [List.length_cons, List.length_cons, Nat.succ_inj] at hlen
      have hp : IsTerm keep.length p := ⟨hlen, fun e he => hplaces e (List.mem_cons_of_mem c he)⟩
      cases b with
      | false =>
        rcases ih hp hds h with ⟨es, hes, hadmits, hkept⟩
        have hdigit : ∃ d, (d = '0' ∨ d = '1') ∧ (c = '-' ∨ c = d) := by
          rcases hplaces c List.mem_cons_self with rfl | rfl | rfl
          · exact ⟨'0', .inl rfl, .inr rfl⟩
          · exact ⟨'1', .inr rfl, .inr rfl⟩
          · exact ⟨'0', .inl rfl, .inl rfl⟩
        rcases hdigit with ⟨d, hd, hcd⟩
        exact ⟨d :: es, List.forall_mem_cons.mpr ⟨hd, hes⟩, admits_cons_iff.mpr ⟨hcd, hadmits⟩,
          hkept⟩
      | true =>
        cases h with
        | cons hcd htail =>
          rename_i d ds
          rcases List.forall_mem_cons.mp hds with ⟨hd, hds⟩
          rcases ih hp hds htail with ⟨es, hes, hadmits, hkept⟩
          exact ⟨d :: es, List.forall_mem_cons.mpr ⟨hd, hes⟩, admits_cons_iff.mpr ⟨hcd, hadmits⟩,
            congrArg (d :: ·) hkept⟩

/-! ## Order -/

theorem ones_spread (h : p.length = keep.count true) : ones (spread keep p) = ones p := by
  fun_induction spread keep p with
  | case1 => rfl
  | case2 p keep ih =>
    rw [List.count_cons_of_ne (by decide)] at h
    rw [← ih h]
    exact List.count_cons_of_ne (by decide)
  | case3 => rfl
  | case4 keep c p ih =>
    rw [List.count_cons_self, List.length_cons, Nat.succ_inj] at h
    unfold ones at ih ⊢
    rw [List.count_cons, List.count_cons, ih h]

theorem free_spread (h : p.length = keep.count true) :
    free (spread keep p) = free p + keep.count false := by
  fun_induction spread keep p with
  | case1 => rfl
  | case2 p keep ih =>
    rw [List.count_cons_of_ne (by decide)] at h
    rw [free_cons, if_pos rfl, ih h, List.count_cons_self, Nat.add_assoc]
  | case3 =>
    rw [List.count_cons_self] at h
    cases h
  | case4 keep c p ih =>
    rw [List.count_cons_self, List.length_cons, Nat.succ_inj] at h
    rw [free_cons, free_cons, ih h, List.count_cons_of_ne (by decide)]
    omega

-- Spreading leaves the order of the first rows and of the masks as it is: what is added is zero.
theorem least_spread (hp : p.length = keep.count true) (hq : q.length = keep.count true) :
    (least p < least q → least (spread keep p) < least (spread keep q)) ∧
      (least p = least q → least (spread keep p) = least (spread keep q)) := by
  induction keep generalizing p q with
  | nil => exact ⟨id, id⟩
  | cons b keep ih =>
    cases b with
    | false =>
      rw [List.count_cons_of_ne (by decide)] at hp hq
      rcases ih hp hq with ⟨hlt, heq⟩
      rw [spread, spread, least, least, if_neg (by decide), if_neg (by decide)]
      constructor <;> omega
    | true =>
      rw [List.count_cons_self] at hp hq
      rcases List.exists_cons_of_length_eq_add_one hp with ⟨c, p, rfl⟩
      rcases List.exists_cons_of_length_eq_add_one hq with ⟨d, q, rfl⟩
      rw [List.length_cons, Nat.succ_inj] at hp hq
      have hpl := least_lt p
      have hql := least_lt q
      have hps := least_lt (spread keep p)
      have hqs := least_lt (spread keep q)
      rw [length_spread hp] at hps
      rw [length_spread hq] at hqs
      rw [hp] at hpl
      rw [hq] at hql
      rcases ih hp hq with ⟨hlt, heq⟩
      rw [spread, spread, least, least, least, least, length_spread hp, length_spread hq, hp, hq]
      split_ifs <;> constructor <;> omega

theorem mask_spread (hp : p.length = keep.count true) (hq : q.length = keep.count true) :
    (mask p < mask q → mask (spread keep p) < mask (spread keep q)) ∧
      (mask p = mask q → mask (spread keep p) = mask (spread keep q)) := by
  induction keep generalizing p q with
  | nil => exact ⟨id, id⟩
  | cons b keep ih =>
    cases b with
    | false =>
      rw [List.count_cons_of_ne (by decide)] at hp hq
      rcases ih hp hq with ⟨hlt, heq⟩
      rw [spread, spread, mask, mask, if_pos rfl]
      constructor <;> omega
    | true =>
      rw [List.count_cons_self] at hp hq
      rcases List.exists_cons_of_length_eq_add_one hp with ⟨c, p, rfl⟩
      rcases List.exists_cons_of_length_eq_add_one hq with ⟨d, q, rfl⟩
      rw [List.length_cons, Nat.succ_inj] at hp hq
      rcases ih hp hq with ⟨hlt, heq⟩
      rw [spread, spread, mask, mask, mask, mask]
      split_ifs <;> constructor <;> omega

theorem place_spread_lt (hp : p.length = keep.count true) (hq : q.length = keep.count true)
    (h : p.place < q.place) : (spread keep p).place < (spread keep q).place := by
  rw [place_lt_iff] at h ⊢
  rcases h with hleast | ⟨hleast, hmask⟩
  · exact .inl ((least_spread hp hq).1 hleast)
  · exact .inr ⟨(least_spread hp hq).2 hleast, (mask_spread hp hq).1 hmask⟩

/-- Spreading keeps the order of patterns. -/
theorem rank_spread_lt (hp : p.length = keep.count true) (hq : q.length = keep.count true)
    (h : p.rank < q.rank) : (spread keep p).rank < (spread keep q).rank := by
  rw [rank_lt_iff, order_lt_iff] at h ⊢
  rw [free_spread hp, free_spread hq, ones_spread hp, ones_spread hq]
  rcases h with hfree | ⟨hfree, hones | ⟨hones, hplace⟩⟩
  · exact .inl (by omega)
  · exact .inr ⟨by omega, .inl hones⟩
  · exact .inr ⟨by omega, .inr ⟨hones, place_spread_lt hp hq hplace⟩⟩

/-! ## Rows -/

/-- A row over the kept places: the digits that are kept of a row over all places. -/
def project (keep : List Bool) (n : Nat) : Nat := least (kept keep (lowBits keep.length n))

/-- The first row that is projected to a row: the dropped places have zeros. -/
def embed (keep : List Bool) (n : Nat) : Nat :=
  least (spread keep (lowBits (keep.count true) n))

theorem length_kept_lowBits (keep : List Bool) (n : Nat) :
    (kept keep (lowBits keep.length n)).length = keep.count true :=
  length_kept (length_lowBits _ n)

theorem project_lt (keep : List Bool) (n : Nat) : project keep n < 2 ^ keep.count true := by
  have h := least_lt (kept keep (lowBits keep.length n))
  rwa [length_kept_lowBits] at h

theorem kept_lowBits (keep : List Bool) (n : Nat) :
    kept keep (lowBits keep.length n) = lowBits (keep.count true) (project keep n) := by
  have hdigits : IsDigits (kept keep (lowBits keep.length n)) :=
    fun d hd => isDigits_lowBits _ n d (mem_of_mem_kept hd)
  have hbits := lowBits_least_of_isDigits hdigits
  rw [length_kept_lowBits] at hbits
  exact hbits.symm

theorem length_spread_lowBits (keep : List Bool) (n : Nat) :
    (spread keep (lowBits (keep.count true) n)).length = keep.length :=
  length_spread (length_lowBits _ n)

theorem embed_lt (keep : List Bool) (n : Nat) : embed keep n < 2 ^ keep.length := by
  have h := least_lt (spread keep (lowBits (keep.count true) n))
  rwa [length_spread_lowBits] at h

theorem project_embed {n : Nat} (h : n < 2 ^ keep.count true) :
    project keep (embed keep n) = n := by
  have hzeros := lowBits_least (p := spread keep (lowBits (keep.count true) n))
  have hsame := lowBits_least (p := lowBits (keep.count true) n)
  rw [length_spread_lowBits] at hzeros
  rw [length_lowBits, least_lowBits h] at hsame
  rw [project, embed, hzeros, kept_map, kept_spread, ← hsame, least_lowBits h]

theorem least_spread_kept_le (keep : List Bool) (hp : p.length = keep.length) :
    least (spread keep (kept keep p)) ≤ least p := by
  induction keep generalizing p with
  | nil => exact Nat.le_refl _
  | cons b keep ih =>
    cases p with
    | nil => cases hp
    | cons c p =>
      rw [List.length_cons, List.length_cons, Nat.succ_inj] at hp
      have hle := ih hp
      cases b with
      | false =>
        rw [kept, spread, least, least, if_neg (by decide)]
        omega
      | true =>
        have hlen : (spread keep (kept keep p)).length = p.length := by
          rw [length_spread (length_kept hp), hp]
        rw [kept, spread, least, least, hlen]
        omega

theorem embed_project_le (keep : List Bool) {n : Nat} (h : n < 2 ^ keep.length) :
    embed keep (project keep n) ≤ n := by
  have hle := least_spread_kept_le keep (length_lowBits keep.length n)
  rwa [kept_lowBits, least_lowBits h] at hle

theorem embed_lt_embed {n m : Nat} (hm : m < 2 ^ keep.count true) (h : n < m) :
    embed keep n < embed keep m := by
  have hlen (k : Nat) := length_lowBits (keep.count true) k
  refine (least_spread (hlen n) (hlen m)).1 ?_
  rwa [least_lowBits (by omega), least_lowBits hm]

-- A row before the first one that is projected to `m` is projected before `m`.
theorem project_lt_of_lt_embed {n m : Nat} (hn : n < 2 ^ keep.length) (h : n < embed keep m) :
    project keep n < m := by
  by_contra hle
  rw [Nat.not_lt] at hle
  have hembed : embed keep m ≤ embed keep (project keep n) := by
    rcases Nat.eq_or_lt_of_le hle with heq | hlt
    · rw [heq]
    · exact Nat.le_of_lt (embed_lt_embed (project_lt keep n) hlt)
  have hself := embed_project_le keep hn
  omega

theorem project_add_two_pow {n : Nat} (h : n < 2 ^ keep.length) (b : Bool) :
    project (b :: keep) (2 ^ keep.length + n) =
      (if b then 2 ^ keep.count true else 0) + project keep n := by
  have htop : (2 ^ keep.length + n).testBit keep.length = true := by
    rw [Nat.testBit_two_pow_add_eq, Nat.testBit_lt_two_pow h]
    rfl
  have hlow : lowBits keep.length (2 ^ keep.length + n) = lowBits keep.length n :=
    lowBits_congr fun i hi => Nat.testBit_two_pow_add_gt hi _
  unfold project
  rw [List.length_cons, lowBits, htop, hlow, if_pos rfl]
  cases b with
  | false => rw [kept, if_neg (by decide), Nat.zero_add]
  | true => rw [kept, least, if_pos rfl, if_pos rfl, length_kept_lowBits]

theorem project_cons_of_lt {n : Nat} (h : n < 2 ^ keep.length) (b : Bool) :
    project (b :: keep) n = project keep n := by
  have htop : n.testBit keep.length = false := Nat.testBit_lt_two_pow h
  unfold project
  rw [List.length_cons, lowBits, htop, if_neg (by decide)]
  cases b with
  | false => rw [kept]
  | true => rw [kept, least, if_neg (by decide), Nat.zero_add]

-- The rows whose first digit is zero, and those whose first digit is one.
theorem countP_project_cons (b : Bool) (keep : List Bool) (f : Nat → Bool) :
    (List.range (2 ^ (b :: keep).length)).countP (fun n => f (project (b :: keep) n)) =
      (List.range (2 ^ keep.length)).countP (fun n => f (project keep n)) +
        (List.range (2 ^ keep.length)).countP
          (fun n => f ((if b then 2 ^ keep.count true else 0) + project keep n)) := by
  rw [List.length_cons, Nat.pow_succ, Nat.mul_two, List.range_add, List.countP_append,
    List.countP_map]
  congr 1
  · apply List.countP_congr
    intro n hn
    rw [project_cons_of_lt (List.mem_range.mp hn)]
  · apply List.countP_congr
    intro n hn
    rw [Function.comp_apply, project_add_two_pow (List.mem_range.mp hn)]

/-- Equally many rows are projected to each row over the kept places. -/
theorem countP_project (keep : List Bool) (f : Nat → Bool) :
    (List.range (2 ^ keep.length)).countP (fun n => f (project keep n)) =
      2 ^ keep.count false * (List.range (2 ^ keep.count true)).countP f := by
  induction keep generalizing f with
  | nil => simp [project, lowBits, kept, least]
  | cons b keep ih =>
    rw [countP_project_cons, ih f,
      ih fun n => f ((if b then 2 ^ keep.count true else 0) + n)]
    cases b with
    | false =>
      -- both halves are projected to the same rows
      simp only [Bool.false_eq_true, if_false, Nat.zero_add]
      rw [List.count_cons_self, List.count_cons_of_ne (by decide), Nat.pow_succ, Nat.mul_assoc,
        Nat.two_mul, Nat.mul_add]
    | true =>
      -- the halves are projected to the two halves over the kept places
      rw [List.count_cons_self, List.count_cons_of_ne (by decide), Nat.pow_succ, Nat.mul_two,
        List.range_add, List.countP_append, List.countP_map, Nat.mul_add]
      rfl

end Pattern

end TwoLevel
