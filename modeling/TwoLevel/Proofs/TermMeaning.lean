import TwoLevel.Proofs.Rendering
import TwoLevel.Proofs.TermReading

/-!
# Meaning of written terms

Any patterns can be written as products and as a sum of products, whether or not they come from a
table.  Only the pattern without a fixed place has no literals; its text `1` is also that of a
variable.  Main statements: the text of a sum is a formula that is true in the rows of the patterns'
cubes (`eval_parse_renderSum`), and the text of a product is read back as its pattern unless it is
taken for that variable (`read_render_eq_ok_iff`).
-/

namespace TwoLevel

namespace ProductTerm

open Token (IsBare IsPlain)

variable {names : List String}

-- Every place that is not free has its literal.
theorem literals_eq_nil_iff {bits : Pattern} (h : Pattern.IsTerm names.length bits) :
    literals bits names = [] ↔ bits = List.replicate names.length '-' := by
  induction bits generalizing names with
  | nil =>
    have hlen := h.length_eq
    rw [List.length_nil] at hlen
    rw [← hlen, List.replicate_zero]
    exact iff_of_true rfl rfl
  | cons c bits ih =>
    cases names with
    | nil => exact absurd h.length_eq (by simp)
    | cons name names =>
      rw [literals_cons, List.length_cons, List.replicate_succ, List.cons.injEq, ← ih h.of_cons]
      rcases h.places c List.mem_cons_self with rfl | rfl | rfl
      · simp
      · simp
      · simp

/-! ## Sums -/

/-- The text of the sum of any products with literals over plain names is read as a formula, and in
each row the formula is true exactly if the row is in the cube of one of the products. -/
theorem eval_parse_renderSum (hnodup : names.Nodup) (hnames : ∀ name ∈ names, IsPlain name)
    {xs : List Implicant} (hne : xs ≠ [])
    (hterm : ∀ x ∈ xs, Pattern.IsTerm names.length x.bits)
    (hfixed : ∀ x ∈ xs, x.bits ≠ List.replicate names.length '-') :
    ∃ f, Formula.parse (renderSum xs names) = .ok f ∧
      ∀ n : Nat, n < 2 ^ names.length →
        ∃ b, f.eval (Assignment.ofRow n names).value = .ok b ∧
          (b = true ↔ ∃ x ∈ xs, (n : Int) ∈ x.bits.cube) := by
  have hliterals (x : Implicant) (hx : x ∈ xs) : literals x.bits names ≠ [] := by
    rw [ne_eq, literals_eq_nil_iff (hterm x hx)]
    exact hfixed x hx
  have hparse := parse_renderSum_eq (fun name hname => (hnames name hname).isName) hne
  refine ⟨_, hparse, ?_⟩
  intro n hn
  exact ⟨_, Formula.eval_of_parse hparse _, eval_sumExpr_iff_cube hnodup hne hterm hliterals hn⟩

-- A negation, a variable whose name is the text of the empty product, and a longer product.
theorem eval_parse_renderSum_mixed :
    ∃ f, Formula.parse "NOT X OR 1 OR (X AND NOT É)" = .ok f ∧
      ∀ n : Nat, n < 2 ^ 3 → ∃ b, f.eval (Assignment.ofRow n ["X", "É", "1"]).value = .ok b ∧
        (b = true ↔ ∃ x ∈ (["0--", "--1", "10-"].map fun bits => ⟨bits.toList, .ofList []⟩ :
          List Implicant), (n : Int) ∈ x.bits.cube) := by
  have hnames : ∀ name ∈ ["X", "É", "1"], IsPlain name := by decide +kernel
  have hterms : ∀ bits ∈ ["0--", "--1", "10-"], Pattern.IsTerm 3 bits.toList ∧
      bits.toList ≠ List.replicate 3 '-' := by decide
  have htext : renderSum (["0--", "--1", "10-"].map fun bits => ⟨bits.toList, .ofList []⟩)
      ["X", "É", "1"] = "NOT X OR 1 OR (X AND NOT É)" := by decide +kernel
  rw [← htext]
  refine eval_parse_renderSum (by decide) hnames (by simp) ?_ ?_
  · intro x hx
    rcases List.mem_map.mp hx with ⟨bits, hbits, rfl⟩
    exact (hterms bits hbits).1
  · intro x hx
    rcases List.mem_map.mp hx with ⟨bits, hbits, rfl⟩
    exact (hterms bits hbits).2

/-! ## Products -/

theorem render_of_eq_replicate {bits : Pattern} (h : Pattern.IsTerm names.length bits)
    (hfree : bits = List.replicate names.length '-') : render bits names = "1" := by
  rw [render, (literals_eq_nil_iff h).mpr hfree]
  rfl

theorem read_one_of_not_mem (h : "1" ∉ names) :
    read "1" names = .ok (List.replicate names.length '-') := by
  have htrim : Text.trim "1".toList = ['1'] := by decide
  unfold read
  dsimp only
  rw [htrim, if_pos ⟨rfl, h⟩]

-- The text of the empty product is that of the variable's literal as well.
theorem read_one_of_mem (hnames : ∀ name ∈ names, IsBare name) (h : "1" ∈ names) :
    read "1" names = .ok (fix names ⟨"1", true⟩ (List.replicate names.length '-')) := by
  show read (renderLiterals [⟨"1", true⟩]) names = _
  apply read_renderLiterals (List.cons_ne_nil _ _)
  intro l hl
  rw [List.mem_singleton.mp hl]
  exact ⟨hnames "1" h, h⟩

theorem fix_ne_replicate {name : String} (h : name ∈ names) :
    fix names ⟨name, true⟩ (List.replicate names.length '-') ≠ List.replicate names.length '-' := by
  intro heq
  have hidx : names.idxOf name < (List.replicate names.length '-').length := by
    rw [List.length_replicate]
    exact List.idxOf_lt_length_of_mem h
  have hmem : '1' ∈ fix names ⟨name, true⟩ (List.replicate names.length '-') := by
    show '1' ∈ (List.replicate names.length '-').set (names.idxOf name) '1'
    exact List.mem_set hidx '1'
  rw [heq] at hmem
  exact absurd (List.eq_of_mem_replicate hmem) (by decide)

/-- The text of the pattern is taken for nothing else: the pattern has literals, or no name is the
text of the empty product. -/
def IsLegible (names : List String) (bits : Pattern) : Prop :=
  bits ≠ List.replicate names.length '-' ∨ "1" ∉ names

theorem read_render_iff (hnodup : names.Nodup) (hnames : ∀ name ∈ names, IsBare name)
    {bits : Pattern} (h : Pattern.IsTerm names.length bits) :
    read (render bits names) names = .ok bits ↔ IsLegible names bits := by
  by_cases hfree : bits = List.replicate names.length '-'
  · rw [render_of_eq_replicate h hfree, hfree]
    by_cases hone : "1" ∈ names
    · rw [read_one_of_mem hnames hone, Except.ok.injEq]
      exact iff_of_false (fix_ne_replicate hone)
        (fun hor => hor.elim (fun hne => hne rfl) (fun hnot => hnot hone))
    · exact iff_of_true (read_one_of_not_mem hone) (.inr hone)
  · have hliterals : literals bits names ≠ [] := fun hnil =>
      hfree ((literals_eq_nil_iff h).mp hnil)
    exact iff_of_true (read_render_of_literals hnodup hnames h hliterals) (.inl hfree)

/-- The text of a product over words is read back as its pattern exactly if it is legible, so
different patterns with legible texts have different texts. -/
theorem read_render_eq_ok_iff (hnodup : names.Nodup) (hnames : ∀ name ∈ names, IsBare name) :
    (∀ bits, Pattern.IsTerm names.length bits →
      (read (render bits names) names = .ok bits ↔ IsLegible names bits)) ∧
    Set.InjOn (fun bits => render bits names)
      {bits | Pattern.IsTerm names.length bits ∧ IsLegible names bits} := by
  apply And.intro
  · intro bits h
    exact read_render_iff hnodup hnames h
  · rintro bits ⟨hbits, hlegible⟩ others ⟨hothers, hothersLegible⟩ heq
    have hleft := (read_render_iff hnodup hnames hbits).mpr hlegible
    have hright := (read_render_iff hnodup hnames hothers).mpr hothersLegible
    dsimp only at heq
    rw [heq, hright] at hleft
    exact (Except.ok.inj hleft).symm

-- Operators are in upper case, so `and` is a word; the text of the empty product is the variable.
theorem read_render_eq_ok_iff_one :
    read "(NOT and AND oracle)" ["1", "and", "oracle"] = .ok ['-', '0', '1'] ∧
    read "1" ["1", "and", "oracle"] ≠ .ok ['-', '-', '-'] := by
  have hbare : ∀ name ∈ ["1", "and", "oracle"], IsBare name := by decide +kernel
  have hterms : Pattern.IsTerm 3 ['-', '0', '1'] ∧ Pattern.IsTerm 3 ['-', '-', '-'] := by decide
  have hlegible : IsLegible ["1", "and", "oracle"] ['-', '0', '1'] := .inl (by decide)
  have hnot : ¬IsLegible ["1", "and", "oracle"] ['-', '-', '-'] := by
    unfold IsLegible
    decide
  rcases read_render_eq_ok_iff (by decide) hbare with ⟨hread, -⟩
  apply And.intro
  · exact (hread ['-', '0', '1'] hterms.1).mpr hlegible
  · exact fun hone => hnot ((hread ['-', '-', '-'] hterms.2).mp hone)

end ProductTerm

end TwoLevel
