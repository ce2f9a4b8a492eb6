import TwoLevel.RingExpr

/-!
# Satisfiability

A search for values of the names that make a ring expression one: give a name both values in turn
and rebuild the form, which shrinks it. A name that decides a factor of its own comes first, since
one of its values makes the whole product zero; else the name with most leaves does. Main statement:
`RingExpr.satisfiable_iff`.
-/

namespace TwoLevel

namespace RingExpr

def update (value : String → Bool) (name : String) (b : Bool) : String → Bool :=
  fun n => if n = name then b else value n

def assign (name : String) (b : Bool) : RingExpr → RingExpr
  | .zero => .zero
  | .one => .one
  | .var n => if n = name then (if b then .one else .zero) else .var n
  | .times x r => x.assign name b * r.assign name b
  | .plus x r => x.assign name b + r.assign name b

theorem eval_assign (v : String → Bool) (name : String) (b : Bool) (e : RingExpr) :
    (e.assign name b).eval v = e.eval (update v name b) := by
  induction e with
  | zero | one => rfl
  | var n =>
    unfold assign
    split
    · next h => cases b <;> simp [eval, update, h]
    · next h => simp [eval, update, h]
  | times x r ihx ihr => simp [assign, eval, eval_mul, ihx, ihr]
  | plus x r ihx ihr => simp [assign, eval, eval_add, ihx, ihr]

theorem length_names_assign_le (name : String) (b : Bool) (e : RingExpr) :
    (e.assign name b).names.length ≤ e.names.countP (· != name) := by
  induction e with
  | zero | one => simp [assign, names]
  | var n =>
    unfold assign
    split
    · cases b <;> simp [names]
    · next h => simp [names, h]
  | times x r ihx ihr =>
    have := length_names_mul_le (x.assign name b) (r.assign name b)
    simp only [assign, names, List.countP_append]
    omega
  | plus x r ihx ihr =>
    have := length_names_add_le (x.assign name b) (r.assign name b)
    simp only [assign, names, List.countP_append]
    omega

-- Fixing a name that occurs takes its leaves away.
theorem length_names_assign_lt {name : String} {e : RingExpr} (h : name ∈ e.names) (b : Bool) :
    (e.assign name b).names.length < e.names.length := by
  refine Nat.lt_of_le_of_lt (length_names_assign_le name b e) ?_
  rw [List.countP_eq_length_filter]
  exact List.length_filter_lt_length_iff_exists.2 ⟨name, h, by simp⟩

/-- The name of a factor that is a name or the negation of one. -/
def unit? : RingExpr → Option String
  | .var n => some n
  | .plus .one (.var n) => some n
  | .times (.var n) _ => some n
  | .times (.plus .one (.var n)) _ => some n
  | .times _ r => r.unit?
  | _ => none

theorem mem_of_unit? {e : RingExpr} {n : String} (h : e.unit? = some n) : n ∈ e.names := by
  fun_induction unit? e <;> simp_all [names]

/-- The longer of two runs of equal names, each given by its name and length. -/
def longer (a b : String × Nat) : String × Nat := if a.2 < b.2 then b else a

/-- The name with the longest run among ascending names, the longest so far and the last given. -/
def longestRun (best last : String × Nat) : List String → String
  | [] => (longer best last).1
  | n :: ns =>
    if n = last.1 then longestRun best (n, last.2 + 1) ns
    else longestRun (longer best last) (n, 1) ns

theorem longestRun_mem (best last : String × Nat) (l : List String) :
    longestRun best last l ∈ best.1 :: last.1 :: l := by
  induction l generalizing best last with
  | nil => grind [longestRun, longer]
  | cons n ns ih => grind [longestRun, longer]

/-- A name that occurs most often. -/
def mode? (l : List String) : Option String :=
  match l.mergeSort (· ≤ ·) with
  | [] => none
  | n :: ns => some (longestRun (n, 0) (n, 1) ns)

theorem mem_of_mode? {l : List String} {n : String} (h : mode? l = some n) : n ∈ l := by
  unfold mode? at h
  split at h
  · simp at h
  · next m ms sorted =>
    refine List.mem_mergeSort.1 (sorted ▸ ?_ : n ∈ l.mergeSort (· ≤ ·))
    simpa [Option.some.inj h] using longestRun_mem (m, 0) (m, 1) ms

theorem eq_nil_of_mode?_eq_none {l : List String} (h : mode? l = none) : l = [] := by
  unfold mode? at h
  split at h
  · next sorted => simpa using congrArg List.length sorted
  · simp at h

def pivot? (e : RingExpr) : Option String := e.unit?.or (mode? e.names)

theorem mem_of_pivot? {e : RingExpr} {n : String} (h : e.pivot? = some n) : n ∈ e.names := by
  rcases Option.or_eq_some_iff.1 h with h | ⟨_, h⟩
  · exact mem_of_unit? h
  · exact mem_of_mode? h

theorem names_eq_nil_of_pivot? {e : RingExpr} (h : e.pivot? = none) : e.names = [] :=
  eq_nil_of_mode?_eq_none (Option.or_eq_none_iff.1 h).2

/-- Whether some values of the names make the expression one. -/
def satisfiable (e : RingExpr) : Bool :=
  match _found : e.pivot? with
  | none => e.eval fun _ => false
  | some n => (e.assign n true).satisfiable || (e.assign n false).satisfiable
termination_by e.names.length
decreasing_by all_goals exact length_names_assign_lt (mem_of_pivot? _found) _

theorem satisfiable_iff {e : RingExpr} : e.satisfiable = true ↔ ∃ v, e.eval v = true := by
  fun_induction satisfiable e with
  | case1 e h =>
    refine ⟨fun h => ⟨_, h⟩, fun ⟨v, hv⟩ => ?_⟩
    rw [← hv]
    exact eval_congr (by simp [names_eq_nil_of_pivot? h])
  | case2 e n _ iht ihf =>
    rw [Bool.or_eq_true, iht, ihf]
    simp only [eval_assign]
    apply Iff.intro
    · intro hor
      rcases hor with ⟨v, h⟩ | ⟨v, h⟩
      · exact ⟨_, h⟩
      · exact ⟨_, h⟩
    · intro hex
      rcases hex with ⟨v, h⟩
      -- updating a name with its own value changes nothing
      have same : update v n (v n) = v := by
        funext m
        unfold update
        split
        · next e => rw [e]
        · rfl
      cases hv : v n <;> rw [hv] at same
      · exact .inr ⟨v, by rw [same, h]⟩
      · exact .inl ⟨v, by rw [same, h]⟩

end RingExpr

end TwoLevel
