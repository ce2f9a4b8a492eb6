import Mathlib.Data.List.Forall2
import TwoLevel.Proofs.EssentialOrder
import TwoLevel.Proofs.MinimumSum
import TwoLevel.Proofs.RoundTrip

/-!
# Traces

The stages of a minimisation are kept as they come, but what stages there are is a matter of the
function alone: as many rounds as the largest cube of true rows has free places, a stage for the
essential implicants if there are any, and one for further picks if the essential implicants leave a
row.  The lines of these two stages start with the products of the sum.  Main statement: the titles
of the stages, and what the lines add up to (`ofTable_trace`).
-/

namespace TwoLevel

namespace Text

/-! ## Places of a letter -/

theorem mem_intercalate {α : Type} {sep : List α} {ts : List (List α)} {c : α}
    (h : c ∈ sep.intercalate ts) : c ∈ sep ∨ ∃ t ∈ ts, c ∈ t := by
  induction ts with
  | nil => cases h
  | cons t ts ih =>
    cases ts with
    | nil =>
      rw [List.intercalate_singleton] at h
      exact .inr ⟨t, List.mem_cons_self, h⟩
    | cons u ts =>
      rw [List.intercalate_cons_cons, List.mem_append, List.mem_append] at h
      rcases h with (h | h) | h
      · exact .inr ⟨t, List.mem_cons_self, h⟩
      · exact .inl h
      · rcases ih h with hsep | ⟨v, hv, hc⟩
        · exact .inl hsep
        · exact .inr ⟨v, List.mem_cons_of_mem t hv, hc⟩

theorem append_cons_left_inj {α : Type} {c : α} {l l' r r' : List α}
    (hr : c ∉ r) (hr' : c ∉ r') (h : l ++ c :: r = l' ++ c :: r') : l = l' := by
  have hnil {as s s' : List α} (hs : c ∉ s) (h : c :: s = as ++ c :: s') : as = [] := by
    cases as with
    | nil => rfl
    | cons a as =>
      rw [List.cons_append, List.cons.injEq] at h
      rw [h.2] at hs
      exact absurd (List.mem_append_right as List.mem_cons_self) hs
  rcases List.append_eq_append_iff.mp h with ⟨as, hl', hr⟩ | ⟨as, hl, hr'⟩
  · rw [hl', hnil ‹_› hr, List.append_nil]
  · rw [hl, hnil ‹_› hr', List.append_nil]

theorem mem_toString {row : Int} {c : Char} (h : c ∈ (toString row).toList) :
    c = '-' ∨ c.isDigit := by
  have hdigit {n : Nat} (hc : c ∈ n.repr.toList) : c.isDigit := by
    rw [Nat.toList_repr] at hc
    exact Nat.isDigit_of_mem_toDigits (by decide) (by decide) hc
  rw [Int.toString_eq_repr, Int.repr_eq_if] at h
  split at h
  · exact .inr (hdigit h)
  · rw [String.toList_append, List.mem_append] at h
    rcases h with h | h
    · exact .inl (List.mem_singleton.mp h)
    · exact .inr (hdigit h)

end Text

namespace Implicant

open Pattern (IsImplicant IsPrime IsEssential)

variable {width n : Nat} {on : Set Int} {xs : List Implicant}

/-! ## How many rounds there are -/

-- Some implicant fixes as few places as the last round leaves.
theorem IsRound.exists_fixed_add_length_rounds (h : IsRound width on n xs) (hne : xs ≠ []) :
    ∃ p, IsImplicant width on p ∧ p.fixed + (primes xs).rounds.length = n := by
  induction xs using passes.induct generalizing n with
  | case1 xs made =>
    rename_i hnil
    rcases List.exists_mem_of_ne_nil _ hne with ⟨x, hx⟩
    refine ⟨x.bits, h.isImplicant hx, ?_⟩
    rw [rounds_eq, if_pos hnil, h.fixed_eq hx]
    rfl
  | case2 xs made hsome =>
    rename_i ih
    have hpos := h.pos_of_combined_ne_nil hsome
    rcases ⟨n - 1, by omega⟩ with ⟨m, rfl⟩ : ∃ m, n = m + 1
    rcases ih h.combined hsome with ⟨p, hp, hsum⟩
    refine ⟨p, hp, ?_⟩
    rw [rounds_eq, if_neg hsome, List.length_cons, ← Nat.add_assoc]
    exact congrArg Nat.succ hsum

/-- There are as many rounds as the freest implicant of the set has free places. -/
theorem IsRound.isGreatest_length_rounds (h : IsRound width on width xs) (hne : xs ≠ []) :
    IsGreatest {k | ∃ p, IsImplicant width on p ∧ p.free = k} (primes xs).rounds.length := by
  have hplaces {p : Pattern} (hp : IsImplicant width on p) : p.free + p.fixed = width := by
    rw [Pattern.free_add_fixed, hp.isTerm.length_eq]
  apply And.intro
  · rcases h.exists_fixed_add_length_rounds hne with ⟨p, hp, hsum⟩
    have hlen := hplaces hp
    exact ⟨p, hp, by omega⟩
  · rintro k ⟨p, hp, rfl⟩
    have hlen := hplaces hp
    have hle := h.le_fixed_add_length_rounds hp (by omega)
    omega

/-! ## What there is to choose -/

theorem IsPrimeList.nontrivial_iff (h : IsPrimeList width on xs)
    (hon : ∀ row ∈ on, 0 ≤ row ∧ row < 2 ^ width) (hne : on.Nonempty) :
    {p | IsPrime width on p}.Nontrivial ↔ xs.length ≠ 1 := by
  apply Iff.intro
  · rintro ⟨p, hp, q, hq, hpq⟩ hone
    rcases (h.exists_iff p).mpr hp with ⟨x, hx, rfl⟩
    rcases (h.exists_iff q).mpr hq with ⟨y, hy, rfl⟩
    rcases List.length_eq_one_iff.mp hone with ⟨z, rfl⟩
    rw [List.mem_singleton.mp hx, List.mem_singleton.mp hy] at hpq
    exact hpq rfl
  · intro hmany
    rcases hne with ⟨row, hrow⟩
    rcases h.exists_mem hon hrow with ⟨x, hx, -⟩
    rcases xs with _ | ⟨y, _ | ⟨z, rest⟩⟩
    · cases hx
    · exact absurd rfl hmany
    · refine ⟨y.bits, h.isPrime (by simp), z.bits, h.isPrime (by simp), ?_⟩
      have hnodup := h.nodup
      rw [List.map_cons, List.map_cons, List.nodup_cons] at hnodup
      intro hbits
      exact hnodup.1 (hbits ▸ List.mem_cons_self)

theorem IsPrimeList.essentials_ne_nil_iff (h : IsPrimeList width on xs) {rows : List Int}
    (hrows : ∀ row, row ∈ rows ↔ row ∈ on) :
    essentials xs rows ≠ [] ↔ ∃ p, IsEssential width on p := by
  apply Iff.intro
  · intro hne
    rcases List.exists_mem_of_ne_nil _ hne with ⟨x, hx⟩
    exact ⟨x.bits, (h.mem_map_essentials_iff hrows).mp (List.mem_map_of_mem hx)⟩
  · rintro ⟨p, hp⟩
    rcases List.mem_map.mp ((h.mem_map_essentials_iff hrows).mpr hp) with ⟨x, hx, -⟩
    exact List.ne_nil_of_mem hx

/-! ## Lists of minterms -/

-- The word before a list of minterms ends with a letter that the list does not have.
theorem not_mem_mintermText (minterms : SortedSet Int) : 's' ∉ (mintermText minterms).toList := by
  intro h
  rw [mintermText, String.toList_append, String.toList_intercalate, List.mem_append] at h
  rcases h with h | h
  · revert h
    decide
  · rcases Text.mem_intercalate h with h | ⟨t, ht, h⟩
    · revert h
      decide
    · rw [List.map_map] at ht
      rcases List.mem_map.mp ht with ⟨row, -, rfl⟩
      rcases Text.mem_toString h with h | h <;> revert h <;> decide

end Implicant

namespace Minimisation

open Implicant (Cover primesOf chooseCover mintermText)
open Pattern (IsImplicant IsPrime IsEssential)
open Stage (coverLine)
open TruthTable (onSet trueRows)

variable {names : List String} {table : List Bool}

/-! ## Titles -/

/-- The titles of a trace with a number of rounds, with a stage for essential implicants and one for
additional ones or without. -/
def traceTitles (rounds : Nat) (essential additional : Bool) : List String :=
  ["Identify minterms", "Group by number of 1s"] ++
    (List.range' 1 rounds).map (fun number => "Combination round " ++ toString number) ++
    ["Prime implicants"] ++ (if essential then ["Essential prime implicants"] else []) ++
    (if additional then ["Additional implicants"] else []) ++ ["Final result"]

theorem length_traceTitles (rounds : Nat) (essential additional : Bool) :
    (traceTitles rounds essential additional).length =
      rounds + essential.toNat + additional.toNat + 4 := by
  cases essential <;> cases additional <;> simp [traceTitles]

/-- What is chosen from the prime implicants of some rows: nothing if there is only one. -/
def choice (width : Nat) (rows : List Nat) : Cover :=
  if (primesOf width (rows.map Int.ofNat)).length = 1 then ⟨[], []⟩
  else chooseCover (primesOf width (rows.map Int.ofNat)) (rows.map Int.ofNat)

/-- A part of a choice has something in it if there are several prime implicants and the part has
something in it for them. -/
theorem choice_ne_nil_iff (width : Nat) (rows : List Nat) {part : Cover → List Implicant}
    (hpart : part ⟨[], []⟩ = []) :
    part (choice width rows) ≠ [] ↔ (primesOf width (rows.map Int.ofNat)).length ≠ 1 ∧
      part (chooseCover (primesOf width (rows.map Int.ofNat)) (rows.map Int.ofNat)) ≠ [] := by
  rw [choice]
  split
  · rename_i hone
    exact iff_of_false (fun hne => hne hpart) fun hboth => hboth.1 hone
  · rename_i hmany
    exact (and_iff_right hmany).symm

theorem stages_ofRows (names : List String) (rows : List Nat) :
    (ofRows names rows).stages =
      [.minterms rows, .grouped ((rows.map Int.ofNat).map (Implicant.ofRow names.length))] ++
        roundStages
          (Implicant.primes ((rows.map Int.ofNat).map (Implicant.ofRow names.length))).rounds ++
        [.primes (primesOf names.length (rows.map Int.ofNat))] ++
        coverStages (choice names.length rows) ++ [.sum (ofRows names rows).selected] := by
  rw [selected_ofRows]
  unfold choice ofRows primesOf
  dsimp only
  split <;> rfl

theorem titles_roundStages (rounds : List (List Implicant)) :
    (roundStages rounds).map Stage.title =
      (List.range' 1 rounds.length).map fun number => "Combination round " ++ toString number := by
  rw [roundStages, List.map_map, ← List.zipIdx_map_snd 1 rounds, List.map_map]
  apply List.map_congr_left
  rintro ⟨combined, number⟩ -
  rfl

theorem titles_coverStages (c : Cover) :
    (coverStages c).map Stage.title =
      (if decide (c.essential ≠ []) then ["Essential prime implicants"] else []) ++
        if decide (c.additional ≠ []) then ["Additional implicants"] else [] := by
  rw [List.map_eq_flatMap, flatMap_coverStages]
  simp only [decide_eq_true_eq, ne_eq, ite_not]
  rfl

theorem titles_ofRows (names : List String) (rows : List Nat) :
    (ofRows names rows).stages.map Stage.title =
      traceTitles
        (Implicant.primes ((rows.map Int.ofNat).map (Implicant.ofRow names.length))).rounds.length
        (decide ((choice names.length rows).essential ≠ []))
        (decide ((choice names.length rows).additional ≠ [])) := by
  rw [stages_ofRows, traceTitles]
  simp only [List.map_append, titles_roundStages, titles_coverStages, List.append_assoc]
  rfl

/-! ## Lines -/

/-- The lines of the stages with a title. -/
def linesUnder (m : Minimisation) (title : String) : List String :=
  m.stages.flatMap fun s => if s.title = title then s.lines m.names else []

-- The titles of rounds are the only ones that start with their letter.
theorem flatMap_roundStages {title : String} (h : title.toList.head? ≠ some 'C')
    (f : Stage → List String) (rounds : List (List Implicant)) :
    (roundStages rounds).flatMap (fun s => if s.title = title then f s else []) = [] := by
  rw [List.flatMap_eq_nil_iff]
  intro s hs
  rcases List.mem_map.mp hs with ⟨⟨combined, number⟩, -, rfl⟩
  apply if_neg
  intro htitle
  apply h
  rw [← htitle]
  show ("Combination round " ++ toString number).toList.head? = some 'C'
  rw [String.toList_append, List.head?_append]
  rfl

-- The choice alone has stages with these titles.
theorem linesUnder_ofRows (names : List String) (rows : List Nat) {title : String}
    (h : title = "Essential prime implicants" ∨ title = "Additional implicants") :
    (ofRows names rows).linesUnder title = (coverStages (choice names.length rows)).flatMap
      fun s => if s.title = title then s.lines names else [] := by
  have hletter : title.toList.head? ≠ some 'C' := by
    rcases h with rfl | rfl <;> decide
  have hminterms : "Identify minterms" ≠ title := by
    rcases h with rfl | rfl <;> decide
  have hgrouped : "Group by number of 1s" ≠ title := by
    rcases h with rfl | rfl <;> decide
  have hprimes : "Prime implicants" ≠ title := by
    rcases h with rfl | rfl <;> decide
  have hsum : "Final result" ≠ title := by
    rcases h with rfl | rfl <;> decide
  have hnames : (ofRows names rows).names = names := rfl
  have hother (s : Stage) (hs : s.title ≠ title) :
      (if s.title = title then s.lines names else []) = [] := if_neg hs
  rw [linesUnder, stages_ofRows, hnames]
  simp only [List.flatMap_append, List.flatMap_cons, List.flatMap_nil,
    flatMap_roundStages hletter, hother (.minterms _) hminterms, hother (.grouped _) hgrouped,
    hother (.primes _) hprimes, hother (.sum _) hsum, List.nil_append, List.append_nil]

theorem ite_map_coverLine (names : List String) (xs : List Implicant) :
    (if xs = [] then [] else xs.map (coverLine names)) = xs.map (coverLine names) := by
  split
  · rename_i hnil
    rw [hnil, List.map_nil]
  · rfl

theorem linesUnder_essential (names : List String) (rows : List Nat) :
    (ofRows names rows).linesUnder "Essential prime implicants" =
      (choice names.length rows).essential.map (coverLine names) := by
  have htitle (xs : List Implicant) :
      (Stage.essential xs).title = "Essential prime implicants" := rfl
  have hother (xs : List Implicant) :
      (Stage.additional xs).title ≠ "Essential prime implicants" := by
    show "Additional implicants" ≠ "Essential prime implicants"
    decide
  rw [linesUnder_ofRows names rows (.inl rfl), flatMap_coverStages, if_pos (htitle _),
    if_neg (hother _), ite_self, List.append_nil]
  exact ite_map_coverLine names _

theorem linesUnder_additional (names : List String) (rows : List Nat) :
    (ofRows names rows).linesUnder "Additional implicants" =
      (choice names.length rows).additional.map (coverLine names) := by
  have htitle (xs : List Implicant) : (Stage.additional xs).title = "Additional implicants" := rfl
  have hother (xs : List Implicant) : (Stage.essential xs).title ≠ "Additional implicants" := by
    show "Essential prime implicants" ≠ "Additional implicants"
    decide
  rw [linesUnder_ofRows names rows (.inr rfl), flatMap_coverStages, if_neg (hother _),
    if_pos (htitle _), ite_self, List.nil_append]
  exact ite_map_coverLine names _

/-! ## Headings -/

/-- A term is followed by the rows that it covers, and by nothing else on the line. -/
def Heads (term line : String) : Prop :=
  ∃ minterms, line = term ++ " covers " ++ mintermText minterms

/-- What heads the line of an implicant is its product. -/
theorem heads_coverLine_iff {term : String} {x : Implicant} :
    Heads term (coverLine names x) ↔ term = ProductTerm.render x.bits names := by
  apply Iff.intro
  · rintro ⟨minterms, hline⟩
    have hword : " covers ".toList = " cover".toList ++ ['s', ' '] := by decide
    have hsplit (t : String) (minterms : SortedSet Int) :
        (t ++ " covers " ++ mintermText minterms).toList =
          (t.toList ++ " cover".toList) ++ 's' :: ' ' :: (mintermText minterms).toList := by
      rw [String.toList_append, String.toList_append, hword, ← List.append_assoc,
        List.append_assoc _ ['s', ' ']]
      rfl
    have hrest (minterms : SortedSet Int) : 's' ∉ ' ' :: (mintermText minterms).toList := by
      rw [List.mem_cons, not_or]
      exact ⟨by decide, Implicant.not_mem_mintermText minterms⟩
    rw [coverLine, ← String.toList_inj, hsplit, hsplit] at hline
    have hterms := Text.append_cons_left_inj (hrest x.minterms) (hrest minterms) hline
    exact (String.toList_inj.mp (List.append_cancel_right hterms)).symm
  · rintro rfl
    exact ⟨x.minterms, rfl⟩

theorem forall₂_heads_iff {terms : List String} {xs : List Implicant} :
    List.Forall₂ Heads terms (xs.map (coverLine names)) ↔
      terms = xs.map fun x => ProductTerm.render x.bits names := by
  simp only [List.forall₂_map_right_iff, heads_coverLine_iff]
  rw [← List.forall₂_eq_eq_eq, List.forall₂_map_right_iff]

/-! ## The trace -/

theorem ofTable_eq_ofConstant (hlen : table.length = 2 ^ names.length)
    (hconstant : true ∉ table ∨ false ∉ table) :
    ∃ value, ofTable names table = .ok (ofConstant names (trueRows table) value) := by
  unfold ofTable
  rw [TruthTable.rowCount_eq, if_neg (not_not.mpr hlen), ← hlen]
  by_cases htrue : true ∈ table
  · have hall := hconstant.resolve_left (not_not.mpr htrue)
    rw [if_neg (TruthTable.trueRows_eq_nil_iff.not.mpr (not_not.mpr htrue)),
      if_pos (TruthTable.length_trueRows_eq_iff.mpr hall)]
    exact ⟨true, rfl⟩
  · rw [if_pos (TruthTable.trueRows_eq_nil_iff.mpr htrue)]
    exact ⟨false, rfl⟩

theorem lines_getLast?_ofRows (names : List String) (rows : List Nat) :
    (ofRows names rows).stages.getLast?.map (Stage.lines names) =
      some [(ofRows names rows).text] := by
  rw [stages_ofRows, List.getLast?_concat]
  rfl

theorem nontrivial_iff_length (hlen : table.length = 2 ^ names.length) (htrue : true ∈ table) :
    {p | IsPrime names.length (onSet table) p}.Nontrivial ↔
      (primesOf names.length ((trueRows table).map Int.ofNat)).length ≠ 1 :=
  (TruthTable.isPrimeList_trueRows hlen).nontrivial_iff
    (fun _ hrow => TruthTable.bounds_of_mem_onSet hlen hrow) (TruthTable.onSet_nonempty htrue)

theorem essential_choice_ne_nil_iff (hlen : table.length = 2 ^ names.length)
    (htrue : true ∈ table) :
    (choice names.length (trueRows table)).essential ≠ [] ↔
      {p | IsPrime names.length (onSet table) p}.Nontrivial ∧
        ∃ p, IsEssential names.length (onSet table) p := by
  rw [choice_ne_nil_iff names.length (trueRows table) rfl, nontrivial_iff_length hlen htrue]
  apply and_congr_right
  intro _
  exact (TruthTable.isPrimeList_trueRows hlen).essentials_ne_nil_iff fun _ =>
    TruthTable.mem_map_trueRows_iff

theorem additional_choice_ne_nil_iff (hlen : table.length = 2 ^ names.length)
    (htrue : true ∈ table) :
    (choice names.length (trueRows table)).additional ≠ [] ↔
      {p | IsPrime names.length (onSet table) p}.Nontrivial ∧
        ∃ row ∈ onSet table, ∀ p, IsEssential names.length (onSet table) p → row ∉ p.cube := by
  rw [choice_ne_nil_iff names.length (trueRows table) rfl, nontrivial_iff_length hlen htrue]
  apply and_congr_right
  intro _
  have hleft := ((TruthTable.isPrimeList_trueRows hlen).additional_eq_nil_iff
    (fun _ => TruthTable.mem_map_trueRows_iff)
    fun _ hrow => TruthTable.bounds_of_mem_onSet hlen hrow).not
  push Not at hleft
  exact hleft

/-- The stages tell about the function: there are as many rounds as the largest cube of true rows
has free places, and, where there are several prime implicants, a stage for the essential ones if
there are any and one for additional ones if the essential ones leave a row.  What heads the lines
of these two makes up the text, which the last stage repeats. -/
theorem ofTable_trace (names : List String) (table : List Bool)
    (hlen : table.length = 2 ^ names.length) :
    ∃ m, ofTable names table = .ok m ∧
      m.stages.getLast?.map (Stage.lines names) = some [m.text] ∧
      (true ∉ table ∨ false ∉ table →
        m.stages.map Stage.title = ["Identify minterms", "Final result"]) ∧
      (true ∈ table → false ∈ table →
        (∃ rounds essential additional,
          m.stages.map Stage.title = traceTitles rounds essential additional ∧
          IsGreatest {k | ∃ p, IsImplicant names.length (onSet table) p ∧ p.free = k} rounds ∧
          (essential = true ↔ {p | IsPrime names.length (onSet table) p}.Nontrivial ∧
            ∃ p, IsEssential names.length (onSet table) p) ∧
          (additional = true ↔ {p | IsPrime names.length (onSet table) p}.Nontrivial ∧
            ∃ row ∈ onSet table, ∀ p, IsEssential names.length (onSet table) p → row ∉ p.cube)) ∧
        ({p | IsPrime names.length (onSet table) p}.Nontrivial →
          ∃ terms, m.text = " OR ".intercalate terms ∧
            ∀ ts, List.Forall₂ Heads ts (m.linesUnder "Essential prime implicants" ++
              m.linesUnder "Additional implicants") ↔ ts = terms)) := by
  by_cases hconstant : true ∉ table ∨ false ∉ table
  · rcases ofTable_eq_ofConstant hlen hconstant with ⟨value, hm⟩
    refine ⟨_, hm, rfl, fun _ => rfl, ?_⟩
    intro htrue hfalse
    exact absurd hconstant (by simp [htrue, hfalse])
  · rw [not_or, not_not, not_not] at hconstant
    rcases hconstant with ⟨htrue, hfalse⟩
    refine ⟨_, ofTable_eq_ofRows hlen htrue hfalse, lines_getLast?_ofRows names _, ?_, ?_⟩
    · intro hconstant
      exact absurd hconstant (by simp [htrue, hfalse])
    intro _ _
    apply And.intro
    · refine ⟨_, _, _, titles_ofRows names (trueRows table), ?_, ?_, ?_⟩
      · apply (TruthTable.isRound_trueRows hlen).isGreatest_length_rounds
        simpa [TruthTable.trueRows_eq_nil_iff] using htrue
      · rw [decide_eq_true_eq]
        exact essential_choice_ne_nil_iff hlen htrue
      · rw [decide_eq_true_eq]
        exact additional_choice_ne_nil_iff hlen htrue
    · intro hmany
      have hselected : (ofRows names (trueRows table)).selected =
          (choice names.length (trueRows table)).selected := by
        rw [nontrivial_iff_length hlen htrue] at hmany
        rw [selected_ofRows, choice, if_neg hmany, if_neg hmany]
      refine ⟨(choice names.length (trueRows table)).selected.map fun x =>
        ProductTerm.render x.bits names, ?_, ?_⟩
      · rw [text_ofRows, hselected]
        rfl
      · intro ts
        rw [linesUnder_essential, linesUnder_additional, ← List.map_append]
        exact forall₂_heads_iff

-- Each row has two prime implicants here, so that none is essential and all terms are additional.
theorem ofTable_trace_cyclic :
    ∃ m, ofTable ["A", "B", "C"] [true, true, true, false, false, true, true, true] = .ok m ∧
      m.text = "(NOT A AND NOT B) OR (B AND NOT C) OR (A AND C)" ∧
      m.stages.getLast?.map (Stage.lines ["A", "B", "C"]) =
        some ["(NOT A AND NOT B) OR (B AND NOT C) OR (A AND C)"] ∧
      m.stages.map Stage.title = ["Identify minterms", "Group by number of 1s",
        "Combination round 1", "Prime implicants", "Additional implicants", "Final result"] ∧
      IsGreatest {k | ∃ p, IsImplicant 3
        (onSet [true, true, true, false, false, true, true, true]) p ∧ p.free = k} 1 ∧
      (∀ p, ¬IsEssential 3 (onSet [true, true, true, false, false, true, true, true]) p) ∧
      m.linesUnder "Essential prime implicants" = [] ∧
      m.linesUnder "Additional implicants" = ["(NOT A AND NOT B) covers m0, m1",
        "(B AND NOT C) covers m2, m6", "(A AND C) covers m5, m7"] ∧
      ∀ ts, List.Forall₂ Heads ts (m.linesUnder "Essential prime implicants" ++
        m.linesUnder "Additional implicants") ↔
          ts = ["(NOT A AND NOT B)", "(B AND NOT C)", "(A AND C)"] := by
  rcases ofTable_trace ["A", "B", "C"] [true, true, true, false, false, true, true, true]
    (by decide) with ⟨m, hm, hlast, -, htrace⟩
  rcases htrace (by decide) (by decide) with
    ⟨⟨rounds, essential, additional, htitles, hrounds, hessential, hadditional⟩, hterms⟩
  have hvalues : (ofTable ["A", "B", "C"] [true, true, true, false, false, true, true, true]).map
      (fun m => (m.text, m.stages.map Stage.title, m.linesUnder "Essential prime implicants",
        m.linesUnder "Additional implicants")) =
      .ok ("(NOT A AND NOT B) OR (B AND NOT C) OR (A AND C)", ["Identify minterms",
        "Group by number of 1s", "Combination round 1", "Prime implicants",
        "Additional implicants", "Final result"], [], ["(NOT A AND NOT B) covers m0, m1",
        "(B AND NOT C) covers m2, m6", "(A AND C) covers m5, m7"]) := by
    decide +kernel
  rw [hm] at hvalues
  simp only [Except.map, Except.ok.injEq, Prod.mk.injEq] at hvalues
  rcases hvalues with ⟨htext, hsix, hnone, hthree⟩
  -- six titles are those of one round, no essential implicants and some additional ones
  have hcounts : ∀ r ≤ 2, ∀ e a : Bool, traceTitles r e a = ["Identify minterms",
      "Group by number of 1s", "Combination round 1", "Prime implicants",
      "Additional implicants", "Final result"] → r = 1 ∧ e = false ∧ a = true := by
    decide +kernel
  rw [hsix] at htitles
  have hfew : rounds ≤ 2 := by
    have hlen := congrArg List.length htitles
    rw [length_traceTitles] at hlen
    simp only [List.length_cons, List.length_nil] at hlen
    omega
  rcases hcounts rounds hfew essential additional htitles.symm with ⟨rfl, rfl, rfl⟩
  have hmany := (hadditional.mp rfl).1
  have hinessential (p : Pattern)
      (hp : IsEssential 3 (onSet [true, true, true, false, false, true, true, true]) p) : False :=
    absurd (hessential.mpr ⟨hmany, p, hp⟩) (by decide)
  rcases hterms hmany with ⟨terms, -, hheads⟩
  have hlines : List.Forall₂ Heads ["(NOT A AND NOT B)", "(B AND NOT C)", "(A AND C)"]
      (m.linesUnder "Essential prime implicants" ++ m.linesUnder "Additional implicants") := by
    rw [hnone, hthree]
    exact .cons ⟨.ofList [0, 1], by decide +kernel⟩
      (.cons ⟨.ofList [2, 6], by decide +kernel⟩ (.cons ⟨.ofList [5, 7], by decide +kernel⟩ .nil))
  rw [← (hheads _).mp hlines] at hheads
  rw [htext] at hlast
  exact ⟨m, hm, htext, hlast, hsix, hrounds, hinessential, hnone, hthree, hheads⟩

end Minimisation

end TwoLevel
