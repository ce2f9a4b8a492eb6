/-!
# Finite sets of ordered values

A set is kept as its members in strictly ascending order, so it prints in one way and two sets with
the same members are equal. Main statements: what each operation does to membership, and
`SortedSet.ext`.
-/

namespace TwoLevel

/-- A finite set, listed in strictly ascending order. -/
structure SortedSet (α : Type) [LT α] where
  /-- The members, smallest first. -/
  toList : List α
  /-- Every member is smaller than those after it. -/
  ascending : toList.Pairwise (· < ·)
deriving DecidableEq

namespace SortedSet

variable {α : Type} [LT α]

instance : Membership α (SortedSet α) where
  mem s a := a ∈ s.toList

theorem mem_iff {a : α} {s : SortedSet α} : a ∈ s ↔ a ∈ s.toList := Iff.rfl

instance [DecidableEq α] (a : α) (s : SortedSet α) : Decidable (a ∈ s) :=
  inferInstanceAs (Decidable (a ∈ s.toList))

def empty : SortedSet α := ⟨[], List.Pairwise.nil⟩

instance : EmptyCollection (SortedSet α) := ⟨empty⟩

theorem not_mem_empty {a : α} : ¬a ∈ (∅ : SortedSet α) := List.not_mem_nil

def size (s : SortedSet α) : Nat := s.toList.length

/-- The members of the first set that the second has not. -/
def diff [DecidableEq α] (s t : SortedSet α) : SortedSet α :=
  ⟨s.toList.filter (fun a => a ∉ t), s.ascending.filter _⟩

instance [DecidableEq α] : SDiff (SortedSet α) := ⟨diff⟩

theorem mem_diff [DecidableEq α] {x : α} {s t : SortedSet α} : x ∈ s \ t ↔ x ∈ s ∧ x ∉ t := by
  show x ∈ s.toList.filter _ ↔ _
  simp [mem_iff]

/-- How many members of the first set the second has too. -/
def common [DecidableEq α] (s t : SortedSet α) : Nat := s.toList.countP (fun a => a ∈ t)

theorem common_pos [DecidableEq α] {s t : SortedSet α} : 0 < s.common t ↔ ∃ x, x ∈ s ∧ x ∈ t := by
  simp [common, List.countP_pos_iff, mem_iff]

-- Taking away a set that shares a member leaves fewer.
theorem size_diff_lt [DecidableEq α] {s t : SortedSet α} (h : 0 < t.common s) :
    (s \ t).size < s.size := by
  rcases common_pos.1 h with ⟨x, hx, hs⟩
  show (s.toList.filter _).length < s.toList.length
  exact List.length_filter_lt_length_iff_exists.2 ⟨x, hs, by simpa using hx⟩

variable [LE α] [Std.IsLinearOrder α] [Std.LawfulOrderLT α]

theorem eq_of_not_lt {a b : α} (h : ¬a < b) (k : ¬b < a) : a = b :=
  Std.le_antisymm (Std.not_lt.1 k) (Std.not_lt.1 h)

/-- Two sets with the same members are equal. -/
theorem ext {s t : SortedSet α} (h : ∀ x, x ∈ s ↔ x ∈ t) : s = t := by
  rcases s with ⟨l, hl⟩
  rcases t with ⟨m, hm⟩
  suffices l = m by subst this; rfl
  replace h : ∀ x, x ∈ l ↔ x ∈ m := h
  induction l generalizing m with
  | nil => exact (List.eq_nil_iff_forall_not_mem.2 fun x hx => by simpa using (h x).2 hx).symm
  | cons a l ih =>
    cases m with
    | nil => simpa using (h a).1 List.mem_cons_self
    | cons b m =>
      rcases List.pairwise_cons.1 hl with ⟨ha, hl'⟩
      rcases List.pairwise_cons.1 hm with ⟨hb, hm'⟩
      -- each head is the least member of its list
      have hab : a = b := by
        rcases List.mem_cons.1 ((h a).1 List.mem_cons_self) with e | am
        · exact e
        · rcases List.mem_cons.1 ((h b).2 List.mem_cons_self) with e | bl
          · exact e.symm
          · exact absurd (Std.lt_trans (ha b bl) (hb a am)) Std.lt_irrefl
      subst hab
      refine congrArg (a :: ·) (ih hl' m hm' fun x => ?_)
      apply Iff.intro
      · intro hx
        rcases List.mem_cons.1 ((h x).1 (List.mem_cons_of_mem a hx)) with e | hx'
        · exact absurd (e ▸ ha x hx) Std.lt_irrefl
        · exact hx'
      · intro hx
        rcases List.mem_cons.1 ((h x).2 (List.mem_cons_of_mem a hx)) with e | hx'
        · exact absurd (e ▸ hb x hx) Std.lt_irrefl
        · exact hx'

variable [DecidableLT α]

/-- Puts a value in its place among ascending values; one that is there already is not repeated. -/
def insertSorted (a : α) : List α → List α
  | [] => [a]
  | b :: bs => if a < b then a :: b :: bs else if b < a then b :: insertSorted a bs else b :: bs

theorem mem_insertSorted {x a : α} {l : List α} : x ∈ insertSorted a l ↔ x = a ∨ x ∈ l := by
  induction l with
  | nil => simp [insertSorted]
  | cons b bs ih =>
    unfold insertSorted
    split
    · simp
    · split
      · simp only [List.mem_cons, ih]
        exact or_left_comm
      · next h k => simp [eq_of_not_lt h k]

theorem insertSorted_pairwise {a : α} {l : List α} (h : l.Pairwise (· < ·)) :
    (insertSorted a l).Pairwise (· < ·) := by
  induction l with
  | nil => simp [insertSorted]
  | cons b bs ih =>
    rcases List.pairwise_cons.1 h with ⟨hb, hbs⟩
    unfold insertSorted
    split
    · next hab =>
      refine List.pairwise_cons.2 ⟨?_, h⟩
      intro x hx
      rcases List.mem_cons.1 hx with rfl | hx
      · exact hab
      · exact Std.lt_trans hab (hb x hx)
    · split
      · next hba =>
        refine List.pairwise_cons.2 ⟨?_, ih hbs⟩
        intro x hx
        rcases mem_insertSorted.1 hx with rfl | hx
        · exact hba
        · exact hb x hx
      · exact h

def insert (a : α) (s : SortedSet α) : SortedSet α :=
  ⟨insertSorted a s.toList, insertSorted_pairwise s.ascending⟩

theorem mem_insert {x a : α} {s : SortedSet α} : x ∈ insert a s ↔ x = a ∨ x ∈ s :=
  mem_insertSorted

/-- The set of the values of a list, in any order and with any repeats. -/
def ofList (l : List α) : SortedSet α := l.foldr insert ∅

theorem mem_ofList {x : α} {l : List α} : x ∈ ofList l ↔ x ∈ l := by
  induction l with
  | nil => simpa [ofList] using not_mem_empty
  | cons a l ih => simp [ofList, mem_insert] at ih ⊢; simp [ih]

/-- The members of either set. -/
def union (s t : SortedSet α) : SortedSet α := s.toList.foldr insert t

instance : Union (SortedSet α) := ⟨union⟩

theorem mem_union {x : α} {s t : SortedSet α} : x ∈ s ∪ t ↔ x ∈ s ∨ x ∈ t := by
  suffices h : ∀ l : List α, x ∈ l.foldr insert t ↔ x ∈ l ∨ x ∈ t from h s.toList
  intro l
  induction l with
  | nil => simp
  | cons a l ih => simp [mem_insert, ih, or_assoc]

end SortedSet

end TwoLevel
