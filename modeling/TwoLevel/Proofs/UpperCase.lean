import TwoLevel.Unicode.Blank
import TwoLevel.Unicode.Upper

/-!
# Upper case is final

The characters that upper case brings about are in upper case themselves, and none of them is a
blank or a parenthesis.  The tables are finite, so this is checked of every code point that they
lead to; all other code points stay as they are.
-/

namespace TwoLevel

namespace Unicode

/-! ## The code points that the tables lead to -/

def CaseRun.targets (r : CaseRun) : List Nat :=
  ((List.range (r.last - r.first + 1)).filter (· % r.step = 0)).map (r.target + ·)

def CaseBlock.targets (b : CaseBlock) : List Nat :=
  b.runs.flatMap CaseRun.targets ++ b.expansions.flatMap (·.2)

/-- A code point of a character that stays as it is and can stand inside a word. -/
def isFinal (code : Nat) : Bool :=
  decide code.isValidChar && upperCodes code == [code] && !blanks.any (·.has code) &&
    code != '('.toNat && code != ')'.toNat

-- One check over all tables; the kernel takes a quarter of a minute for it.
theorem isFinal_of_mem_targets : ∀ b ∈ caseBlocks, ∀ code ∈ b.targets, isFinal code = true := by
  decide +kernel

theorem mem_targets_of_has {r : CaseRun} {n : Nat} (h : r.has n = true) :
    r.target + (n - r.first) ∈ r.targets := by
  unfold CaseRun.has at h
  simp only [Bool.and_eq_true, decide_eq_true_eq, beq_iff_eq] at h
  unfold CaseRun.targets
  apply List.mem_map_of_mem
  rw [List.mem_filter, List.mem_range, decide_eq_true_eq]
  exact ⟨by omega, h.2⟩

theorem upperCodes_block (b : CaseBlock) (n : Nat) :
    b.upperCodes n = [n] ∨ ∀ code ∈ b.upperCodes n, code ∈ b.targets := by
  unfold CaseBlock.upperCodes CaseBlock.targets
  split
  · rename_i r hr
    right
    intro code hcode
    rw [List.mem_singleton] at hcode
    subst hcode
    have hhas : r.has n = true := by simpa using List.find?_some hr
    have hrun := mem_targets_of_has hhas
    exact List.mem_append_left _ (List.mem_flatMap_of_mem (List.mem_of_find?_eq_some hr) hrun)
  · cases hl : b.expansions.lookup n with
    | none => exact .inl rfl
    | some codes =>
      right
      intro code hcode
      have hmem : (n, codes) ∈ b.expansions := by
        rcases List.lookup_eq_some_iff.mp hl with ⟨l, r, hsplit, -⟩
        rw [hsplit]
        simp
      exact List.mem_append_right _ (List.mem_flatMap_of_mem hmem hcode)

theorem upperCodes_eq_or_isFinal (n : Nat) :
    upperCodes n = [n] ∨ ∀ code ∈ upperCodes n, isFinal code = true := by
  unfold upperCodes
  split
  · rename_i b hb
    rcases upperCodes_block b n with hsame | htargets
    · exact .inl hsame
    · right
      intro code hcode
      exact isFinal_of_mem_targets b (List.mem_of_find?_eq_some hb) code (htargets code hcode)
  · exact .inl rfl

/-! ## Characters -/

/-- A character of words that upper case leaves as it is. -/
structure IsWordChar (c : Char) : Prop where
  not_blank : isBlank c = false
  ne_lparen : c ≠ '('
  ne_rparen : c ≠ ')'
  upperChar_eq : upperChar c = [c]

instance (c : Char) : Decidable (IsWordChar c) :=
  decidable_of_iff (isBlank c = false ∧ c ≠ '(' ∧ c ≠ ')' ∧ upperChar c = [c])
    ⟨fun h => ⟨h.1, h.2.1, h.2.2.1, h.2.2.2⟩,
      fun h => ⟨h.not_blank, h.ne_lparen, h.ne_rparen, h.upperChar_eq⟩⟩

theorem isWordChar_ofNat {code : Nat} (h : isFinal code = true) : IsWordChar (Char.ofNat code) := by
  unfold isFinal at h
  simp only [Bool.and_eq_true, decide_eq_true_eq, beq_iff_eq, Bool.not_eq_true', bne_iff_ne] at h
  rcases h with ⟨⟨⟨⟨hvalid, hcodes⟩, hblank⟩, hl⟩, hr⟩
  have hcode : (Char.ofNat code).toNat = code := by
    rw [Char.ofNat, dif_pos hvalid]
    rfl
  apply IsWordChar.mk
  · rw [isBlank, inTable, hcode]
    exact hblank
  · intro he
    rw [he] at hcode
    exact hl hcode.symm
  · intro he
    rw [he] at hcode
    exact hr hcode.symm
  · rw [upperChar, hcode, hcodes]
    rfl

theorem upperChar_eq_or (c : Char) : upperChar c = [c] ∨ ∀ d ∈ upperChar c, IsWordChar d := by
  rcases upperCodes_eq_or_isFinal c.toNat with hsame | hfinal
  · left
    rw [upperChar, hsame, List.map_singleton, Char.ofNat_toNat]
  · right
    intro d hd
    rw [upperChar] at hd
    rcases List.mem_map.mp hd with ⟨code, hcode, hd⟩
    rw [← hd]
    exact isWordChar_ofNat (hfinal code hcode)

/-- Upper case leaves what it has brought about. -/
theorem upperChar_of_mem_upperChar {c d : Char} (h : d ∈ upperChar c) : upperChar d = [d] := by
  rcases upperChar_eq_or c with hsame | hfinal
  · have hd : d = c := by
      rw [hsame] at h
      exact List.mem_singleton.mp h
    rw [hd]
    exact hsame
  · exact (hfinal d h).upperChar_eq

theorem upperChar_of_mem_upper {text : List Char} {c : Char} (h : c ∈ upper text) :
    upperChar c = [c] := by
  rcases List.mem_flatMap.mp h with ⟨d, -, hc⟩
  exact upperChar_of_mem_upperChar hc

theorem upper_eq_self {text : List Char} (h : ∀ c ∈ text, upperChar c = [c]) :
    upper text = text := by
  induction text with
  | nil => rfl
  | cons c cs ih =>
    rw [upper_cons, h c List.mem_cons_self, ih fun d hd => h d (List.mem_cons_of_mem c hd)]
    rfl

end Unicode

end TwoLevel
