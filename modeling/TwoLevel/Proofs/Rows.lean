import TwoLevel.Assignment
import TwoLevel.Proofs.Cube

/-!
# Rows as assignments

The assignment of a row gives each of its names the binary digit at the name's place, the same digit
that patterns are compared with (`digits_ofRow`).
-/

namespace TwoLevel

namespace Assignment

theorem value_foldl_of_not_mem {pairs : List (String × Bool)} {name : String}
    (h : name ∉ pairs.map Prod.fst) (a : Assignment) :
    (pairs.foldl (fun a p => a.put p.1 p.2) a).value name = a.value name := by
  induction pairs generalizing a with
  | nil => rfl
  | cons p pairs ih =>
    rw [List.map_cons, List.mem_cons, not_or] at h
    rw [List.foldl_cons, ih h.2, value_put, if_neg h.1]

theorem value_foldl_of_mem {pairs : List (String × Bool)} (hpairs : (pairs.map Prod.fst).Nodup)
    {name : String} {b : Bool} (h : (name, b) ∈ pairs) (a : Assignment) :
    (pairs.foldl (fun a p => a.put p.1 p.2) a).value name = b := by
  induction pairs generalizing a with
  | nil => cases h
  | cons p pairs ih =>
    rw [List.map_cons, List.nodup_cons] at hpairs
    rw [List.foldl_cons]
    rcases List.mem_cons.mp h with rfl | h
    · rw [value_foldl_of_not_mem hpairs.1, value_put, if_pos rfl]
    · exact ih hpairs.2 h _

-- Among distinct names each keeps the value it is paired with.
theorem value_ofPairs {pairs : List (String × Bool)} (hpairs : (pairs.map Prod.fst).Nodup)
    {name : String} {b : Bool} (h : (name, b) ∈ pairs) : (ofPairs pairs).value name = b :=
  value_foldl_of_mem hpairs h ⟨[]⟩

theorem map_fst_rowPairs (index : Int) (names : List String) :
    (rowPairs index names).map Prod.fst = names := by
  induction names with
  | nil => rfl
  | cons name names ih => rw [rowPairs, List.map_cons, ih]

theorem bit_natCast (n place : Nat) : bit n place = n.testBit place := by
  have hshift : (n : Int) >>> place = ((n >>> place : Nat) : Int) := rfl
  have hmod : (((n >>> place : Nat) : Int) % 2 == 1) = (n >>> place % 2 == 1) := by
    rw [Bool.eq_iff_iff, beq_iff_eq, beq_iff_eq]
    omega
  rw [bit, hshift, hmod, Nat.testBit_eq_decide_div_mod_eq, Nat.shiftRight_eq_div_pow]
  rfl

/-- The digit of a truth value. -/
def digit (b : Bool) : Char := if b then '1' else '0'

theorem digit_inj {b c : Bool} (h : digit b = digit c) : b = c := by
  revert b c
  decide

theorem map_snd_rowPairs (n : Nat) (names : List String) :
    (rowPairs n names).map (fun p => digit p.2) = Pattern.lowBits names.length n := by
  induction names with
  | nil => rfl
  | cons name names ih =>
    rw [rowPairs, List.map_cons, ih, bit_natCast]
    rfl

/-- The values of distinct names in a row are the row's binary digits. -/
theorem digits_ofRow {names : List String} (hnames : names.Nodup) (n : Nat) :
    names.map (fun name => digit ((ofRow n names).value name)) =
      Pattern.lowBits names.length n := by
  have hkeys : ((rowPairs n names).map Prod.fst).Nodup := by
    rw [map_fst_rowPairs]
    exact hnames
  calc names.map (fun name => digit ((ofRow n names).value name))
      = (rowPairs n names).map (fun p => digit ((ofRow n names).value p.1)) := by
        conv_lhs => rw [← map_fst_rowPairs n names, List.map_map]
        rw [map_fst_rowPairs]
        rfl
    _ = (rowPairs n names).map (fun p => digit p.2) := by
        apply List.map_congr_left
        intro p hp
        rw [ofRow, value_ofPairs hkeys hp]
    _ = Pattern.lowBits names.length n := map_snd_rowPairs n names

end Assignment

end TwoLevel
