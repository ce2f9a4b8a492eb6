import TwoLevel.Proofs.PageEvents
import TwoLevel.Proofs.Refusal

/-!
# The page after a press

A text is analysed before anything is shown for it, and what the report asks of an analysis always
has an answer.  So the page is never left in the middle: it shows the complaint about the text and
no more, or the whole report.  Main statement: this is what stands below the button
(`run_pressed`).
-/

namespace TwoLevel

namespace Minimisation

-- The last stage is always there.
theorem stages_ne_nil {names : List String} {table : List Bool} {m : Minimisation}
    (h : ofTable names table = .ok m) : m.stages ≠ [] := by
  unfold ofTable at h
  dsimp only at h
  split at h
  · cases h
  split at h
  · cases h
    simp [ofConstant]
  split at h
  · cases h
    simp [ofConstant]
  · cases h
    simp [ofRows]

end Minimisation

namespace Page

variable (test : EquivalenceTest) {settings : Settings} {text : String} {a : Analysis}

/-- The complaint about a refused text, and nothing else. -/
def IsComplaint (text : String) (e : Analysis.Error) (events : List Event) : Prop :=
  events = [.log ("Rejected expression " ++ Text.quoted text ++ ": " ++ e.message),
    .display .error e.message]

-- None of the complaints is a failed evaluation.
theorem response_of_refused {e : Analysis.Error} (h : Analysis.Refused text settings e) :
    response settings text test = .ok (complaint text e) := by
  rw [response, Analysis.ofText_of_refused h]
  cases h with
  | blank => rfl
  | parse => rfl
  | noVariables => rfl
  | tooMany => rfl

-- Only the patterns of the products could keep a report from being shown.
theorem exists_report (settings : Settings) {terms : List (String × List Char)}
    (h : a.termBits = .ok terms) : ∃ events, report settings a test = .ok events := by
  have hsimplified : ∃ events, simplifiedEvents a = .ok events := by
    unfold simplifiedEvents
    split
    · exact ⟨_, rfl⟩
    · rw [h]
      exact ⟨_, rfl⟩
  rcases hsimplified with ⟨events, hevents⟩
  rw [report, hevents]
  exact ⟨_, rfl⟩

theorem exists_response_of_ofText (h : Analysis.ofText text settings = .ok a) :
    ∃ events, response settings text test = .ok events ∧ IsReport settings a events := by
  have hof := Analysis.isOf_of_ofText h
  rcases hof.exists_termBits with ⟨terms, hterms⟩
  rcases exists_report test settings hterms with ⟨events, hreport⟩
  refine ⟨events, ?_, ?_⟩
  · rw [response, h]
    dsimp only
    rw [hreport]
    rfl
  · exact isReport_of_report (Analysis.agrees_of_ofText test h) hreport
      (Minimisation.stages_ne_nil hof.result)

-- Nothing stands between the button and the answer to it.
theorem exists_run_eq {env : Environment} (h : Settings.ofEnvironment env = .ok settings)
    {events : List Event} (hresponse : response settings text test = .ok events) :
    ∃ above label, run env text true test = .ok (above ++ .button label :: events) ∧
      ∀ other, .button other ∉ above := by
  rw [run, h]
  dsimp only
  rw [if_pos rfl, hresponse]
  exact ⟨[_, _, _, _, _], _, rfl, by simp⟩

/-- When the button of a page is pressed, what follows it is the complaint about the text or the
whole report of its analysis, whatever tests the equivalence of the two forms. -/
theorem run_pressed {env : Environment} {settings : Settings}
    (h : Settings.ofEnvironment env = .ok settings) (text : String) :
    ∃ above label events, run env text true test = .ok (above ++ .button label :: events) ∧
      (∀ other, .button other ∉ above) ∧
      ((∃ e, Analysis.ofText text settings = .error e ∧ IsComplaint text e events) ∨
        ∃ a, Analysis.ofText text settings = .ok a ∧ IsReport settings a events) := by
  cases hanalysis : Analysis.ofText text settings with
  | error e =>
    have hresponse := response_of_refused test (Analysis.refused_of_ofText hanalysis)
    rcases exists_run_eq test h hresponse with ⟨above, label, hrun, habove⟩
    exact ⟨above, label, _, hrun, habove, .inl ⟨e, rfl, rfl⟩⟩
  | ok a =>
    rcases exists_response_of_ofText test hanalysis with ⟨events, hresponse, hreport⟩
    rcases exists_run_eq test h hresponse with ⟨above, label, hrun, habove⟩
    exact ⟨above, label, events, hrun, habove, .inr ⟨a, rfl, hreport⟩⟩

-- One text has too many variables for its environment, and the other is reported on in full.
theorem run_pressed_both :
    (∃ above label events,
      run (.set .empty "LOGIC_CIRCUIT_MAX_VARIABLES" "2") "a and b and c" true =
        .ok (above ++ .button label :: events) ∧
      IsComplaint "a and b and c" (.count (.tooMany 2)) events) ∧
    ∃ above label events a, run .empty "a xor b" true = .ok (above ++ .button label :: events) ∧
      Analysis.ofText "a xor b" {} = .ok a ∧ IsReport {} a events := by
  apply And.intro
  · have hsettings : Settings.ofEnvironment (.set .empty "LOGIC_CIRCUIT_MAX_VARIABLES" "2") =
        .ok { maxVariables := 2 } := by decide +kernel
    have herror : Analysis.ofText "a and b and c" { maxVariables := 2 } =
        .error (.count (.tooMany 2)) := by decide +kernel
    rcases run_pressed .ringSearch hsettings "a and b and c" with
      ⟨above, label, events, hrun, -, ⟨e, he, hcomplaint⟩ | ⟨a, ha, -⟩⟩
    · rw [herror] at he
      cases he
      exact ⟨above, label, events, hrun, hcomplaint⟩
    · rw [herror] at ha
      cases ha
  · have hsettings : Settings.ofEnvironment .empty = .ok {} := by decide +kernel
    have hok : (Analysis.ofText "a xor b" {}).isOk = true := by decide +kernel
    rcases run_pressed .ringSearch hsettings "a xor b" with
      ⟨above, label, events, hrun, -, ⟨e, he, -⟩ | ⟨a, ha, hreport⟩⟩
    · rw [he] at hok
      cases hok
    · exact ⟨above, label, events, a, hrun, ha, hreport⟩

end Page

end TwoLevel
