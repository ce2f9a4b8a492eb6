import Mathlib.Data.List.Induction
import TwoLevel.Proofs.RoundTrip
import TwoLevel.Session

/-!
# Settings over a session

A session keeps the settings that it has found, but which settings it answers is told by its history
alone: they are those of the environment in which, since settings were last dropped, a request first
succeeded.  Main statement: every reply of a session is one by these settings, and a request that
fails leaves nothing behind (`run_answers_firstFound`).
-/

namespace TwoLevel

namespace Session

/-! ## Histories -/

/-- Whether a step asks for the settings, be it for the text that it analyses. -/
def Step.asks : Step → Bool
  | .settings => true
  | .analyse _ => true
  | _ => false

/-- The environment that a step leaves behind. -/
def Step.change : Step → Environment → Environment
  | .set name text, env => env.set name text
  | .unset name, env => env.unset name
  | _, env => env

/-- The environment after some steps. -/
def environmentAfter (env : Environment) (steps : List Step) : Environment :=
  steps.foldl (fun env step => step.change env) env

/-- Since settings were last dropped, every request for them came in an environment without any. -/
def Fruitless (env : Environment) (steps : List Step) : Prop :=
  ∀ before ask later, steps = before ++ ask :: later → ask.asks = true →
    Step.dropSettings ∉ later →
      ∃ e, Settings.ofEnvironment (environmentAfter env before) = .error e

/-- Since settings were last dropped, these were the settings of the environment in which a request
for them first succeeded. -/
def FirstFound (env : Environment) (steps : List Step) (found : Settings) : Prop :=
  ∃ before ask later, steps = before ++ ask :: later ∧ ask.asks = true ∧
    Step.dropSettings ∉ later ∧ Fruitless env before ∧
      Settings.ofEnvironment (environmentAfter env before) = .ok found

-- The last step of a history stands at a given place, or it comes after it.
theorem eq_or_of_concat_eq {steps before later : List Step} {step ask : Step}
    (h : steps ++ [step] = before ++ ask :: later) :
    (steps = before ∧ step = ask ∧ later = []) ∨
      ∃ between, steps = before ++ ask :: between ∧ later = between ++ [step] := by
  rcases List.eq_nil_or_concat later with hnil | ⟨between, last, hlater⟩
  · left
    rw [hnil] at h
    have hparts := List.append_inj' h rfl
    exact ⟨hparts.1, List.singleton_inj.mp hparts.2, hnil⟩
  · right
    rw [hlater, List.concat_eq_append, ← List.cons_append, ← List.append_assoc] at h
    have hparts := List.append_inj' h rfl
    rw [← List.singleton_inj.mp hparts.2] at hlater
    exact ⟨between, hparts.1, by rw [hlater, List.concat_eq_append]⟩

variable {env : Environment} {steps : List Step} {step : Step} {found : Settings}

theorem fruitless_nil : Fruitless env [] := by
  intro before ask later h
  simp at h

theorem fruitless_dropSettings : Fruitless env (steps ++ [.dropSettings]) := by
  intro before ask later h hasks hdrop
  rcases eq_or_of_concat_eq h with ⟨-, rfl, -⟩ | ⟨between, -, hlater⟩
  · cases hasks
  · rw [hlater] at hdrop
    simp at hdrop

theorem Fruitless.concat (h : Fruitless env steps)
    (hstep : step.asks = true →
      ∃ e, Settings.ofEnvironment (environmentAfter env steps) = .error e) :
    Fruitless env (steps ++ [step]) := by
  intro before ask later heq hasks hdrop
  rcases eq_or_of_concat_eq heq with ⟨rfl, rfl, -⟩ | ⟨between, hsteps, hlater⟩
  · exact hstep hasks
  · rw [hlater, List.mem_append, not_or] at hdrop
    exact h before ask between hsteps hasks hdrop.1

theorem Fruitless.firstFound (h : Fruitless env steps) (hasks : step.asks = true)
    (hfound : Settings.ofEnvironment (environmentAfter env steps) = .ok found) :
    FirstFound env (steps ++ [step]) found :=
  ⟨steps, step, [], rfl, hasks, List.not_mem_nil, h, hfound⟩

theorem FirstFound.concat (h : FirstFound env steps found) (hstep : step ≠ .dropSettings) :
    FirstFound env (steps ++ [step]) found := by
  rcases h with ⟨before, ask, later, rfl, hasks, hdrop, hfruitless, hfound⟩
  have hlater : Step.dropSettings ∉ later ++ [step] := by
    simp [hdrop, hstep.symm]
  exact ⟨before, ask, later ++ [step], by simp, hasks, hlater, hfruitless, hfound⟩

/-! ## One step -/

/-- What a request for settings is answered. -/
def asked (s : Session) : Except Settings.Error Settings := s.settings.1

theorem asked_of_kept {s : Session} (h : s.kept = some found) : s.asked = .ok found := by
  rw [asked, settings_of_kept h]

theorem asked_of_kept_none {s : Session} (h : s.kept = none) :
    s.asked = Settings.ofEnvironment s.env := by
  unfold asked settings
  rw [h]
  cases Settings.ofEnvironment s.env <;> rfl

-- A failed request is one that has found nothing kept.
theorem kept_of_asked_error {s : Session} {e : Settings.Error} (h : s.asked = .error e) :
    s.kept = none := by
  cases hkept : s.kept with
  | none => rfl
  | some found =>
    rw [asked_of_kept hkept] at h
    cases h

-- A request leaves the environment alone, and what it found is kept.
theorem snd_settings (s : Session) : s.settings.2 = ⟨s.env, s.asked.toOption⟩ := by
  rcases s with ⟨env, kept⟩
  cases kept with
  | some found => rfl
  | none =>
    unfold asked settings
    cases Settings.ofEnvironment env <;> rfl

theorem snd_step_of_asks (s : Session) (h : step.asks = true) :
    (s.step step).2 = s.settings.2 := by
  cases step with
  | settings =>
    unfold Session.step
    rcases s.settings with ⟨_ | _, s'⟩ <;> rfl
  | analyse text =>
    unfold Session.step
    rcases s.settings with ⟨_ | found, s'⟩
    · rfl
    · dsimp only
      cases Analysis.ofText text found <;> rfl
  | set name text => cases h
  | unset name => cases h
  | dropSettings => cases h

theorem env_step (s : Session) (step : Step) : (s.step step).2.env = step.change s.env := by
  cases step with
  | settings => rw [snd_step_of_asks s rfl, snd_settings]; rfl
  | analyse text => rw [snd_step_of_asks s rfl, snd_settings]; rfl
  | set name text => rfl
  | unset name => rfl
  | dropSettings => rfl

theorem kept_step_of_asks (s : Session) (h : step.asks = true) :
    (s.step step).2.kept = s.asked.toOption := by
  rw [snd_step_of_asks s h, snd_settings]

theorem kept_step_of_not_asks (s : Session) (h : step.asks = false) (hdrop : step ≠ .dropSettings) :
    (s.step step).2.kept = s.kept := by
  cases step with
  | set name text => rfl
  | unset name => rfl
  | dropSettings => exact absurd rfl hdrop
  | settings => cases h
  | analyse text => cases h

-- Only dropping takes settings away.
theorem kept_step_of_kept {s : Session} (h : s.kept = some found) (hdrop : step ≠ .dropSettings) :
    (s.step step).2.kept = some found := by
  cases hasks : step.asks with
  | false => rw [kept_step_of_not_asks s hasks hdrop, h]
  | true => rw [kept_step_of_asks s hasks, asked_of_kept h]; rfl

-- Only a request brings settings.
theorem kept_step_of_kept_none {s : Session} (h : s.kept = none) (hasks : step.asks = false) :
    (s.step step).2.kept = none := by
  by_cases hdrop : step = .dropSettings
  · rw [hdrop]
    rfl
  · rw [kept_step_of_not_asks s hasks hdrop, h]

/-! ## Replies -/

/-- The reply to a step, given what a request for settings is answered. -/
inductive Answers (asked : Except Settings.Error Settings) : Step → Reply → Prop
  | done {step : Step} : step.asks = false → Answers asked step .done
  | settings {found : Settings} : asked = .ok found → Answers asked .settings (.settings found)
  | failed {step : Step} {e : Settings.Error} : step.asks = true → asked = .error e →
      Answers asked step (.settingsError e)
  | analysis {text : String} {found : Settings} {a : Analysis} : asked = .ok found →
      Analysis.ofText text found = .ok a → Answers asked (.analyse text) (.analysis a)
  | refused {text : String} {found : Settings} {e : Analysis.Error} : asked = .ok found →
      Analysis.ofText text found = .error e → Answers asked (.analyse text) (.analysisError e)

theorem answers_step (s : Session) (step : Step) : Answers s.asked step (s.step step).1 := by
  cases step with
  | set name text => exact .done rfl
  | unset name => exact .done rfl
  | dropSettings => exact .done rfl
  | settings =>
    unfold Session.step asked
    rcases s.settings with ⟨e | found, s'⟩
    · exact .failed rfl rfl
    · exact .settings rfl
  | analyse text =>
    unfold Session.step asked
    rcases s.settings with ⟨e | found, s'⟩
    · exact .failed rfl rfl
    · dsimp only
      cases htext : Analysis.ofText text found with
      | ok a => exact .analysis rfl htext
      | error e => exact .refused rfl htext

-- The check of an analysis is made with the settings that its request was answered.
theorem Answers.length_names_le {asked : Except Settings.Error Settings} {a : Analysis}
    (h : Answers asked step (.analysis a)) :
    ∃ found, asked = .ok found ∧ (a.names.length : Int) ≤ found.maxVariables := by
  cases h with
  | analysis hfound htext =>
    have hcount := (Analysis.isOf_of_ofText htext).count
    have hbounds := TruthTable.checkCount_eq_ok_iff.mp hcount
    exact ⟨_, hfound, by omega⟩

/-! ## Runs -/

/-- A session that begins in an environment, with no settings kept. -/
def opened (env : Environment) : Session := ⟨env, none⟩

/-- The session after some steps. -/
def after (s : Session) (steps : List Step) : Session :=
  steps.foldl (fun s step => (s.step step).2) s

theorem after_concat (s : Session) (steps : List Step) (step : Step) :
    s.after (steps ++ [step]) = ((s.after steps).step step).2 := List.foldl_concat _ _ _ _

theorem after_append_cons (s : Session) (before later : List Step) (step : Step) :
    s.after (before ++ step :: later) = (s.after (before ++ [step])).after later := by
  unfold after
  rw [← List.foldl_append, List.append_assoc, List.singleton_append]

theorem env_after (env : Environment) (steps : List Step) :
    ((opened env).after steps).env = environmentAfter env steps := by
  induction steps using List.reverseRecOn with
  | nil => rfl
  | append_singleton steps step ih =>
    rw [after_concat, env_step, ih, environmentAfter, environmentAfter, List.foldl_concat]

theorem getElem?_run (s : Session) (before rest : List Step) (step : Step) :
    (s.run (before ++ step :: rest))[before.length]? = some ((s.after before).step step).1 := by
  induction before generalizing s with
  | nil => rfl
  | cons first before ih =>
    rw [List.cons_append, run, List.length_cons, List.getElem?_cons_succ, ih]
    rfl

theorem kept_after_of_kept {s : Session} (h : s.kept = some found) {later : List Step}
    (hdrop : Step.dropSettings ∉ later) : (s.after later).kept = some found := by
  induction later generalizing s with
  | nil => exact h
  | cons step later ih =>
    rw [List.mem_cons, not_or] at hdrop
    exact ih (kept_step_of_kept h (Ne.symm hdrop.1)) hdrop.2

theorem kept_after_of_kept_none {s : Session} (h : s.kept = none) {later : List Step}
    (hasks : ∀ step ∈ later, step.asks = false) : (s.after later).kept = none := by
  induction later generalizing s with
  | nil => exact h
  | cons step later ih =>
    exact ih (kept_step_of_kept_none h (hasks step List.mem_cons_self))
      fun t ht => hasks t (List.mem_cons_of_mem step ht)

/-- What the history says of the settings that are kept. -/
def Remembers (env : Environment) (steps : List Step) : Option Settings → Prop
  | none => Fruitless env steps
  | some found => FirstFound env steps found

-- A step that asks with nothing kept is the only one that has to look at the environment.
theorem remembers_step {s : Session} (henv : s.env = environmentAfter env steps)
    (h : Remembers env steps s.kept) (step : Step) :
    Remembers env (steps ++ [step]) (s.step step).2.kept := by
  by_cases hdrop : step = .dropSettings
  · rw [hdrop]
    exact fruitless_dropSettings
  cases hkept : s.kept with
  | some found =>
    rw [hkept] at h
    rw [kept_step_of_kept hkept hdrop]
    exact FirstFound.concat h hdrop
  | none =>
    rw [hkept] at h
    cases hasks : step.asks with
    | false =>
      rw [kept_step_of_kept_none hkept hasks]
      exact Fruitless.concat h (by simp [hasks])
    | true =>
      rw [kept_step_of_asks s hasks, asked_of_kept_none hkept, henv]
      cases hfound : Settings.ofEnvironment (environmentAfter env steps) with
      | ok found => exact Fruitless.firstFound h hasks hfound
      | error e => exact Fruitless.concat h fun _ => ⟨e, hfound⟩

theorem remembers_after (env : Environment) (steps : List Step) :
    Remembers env steps ((opened env).after steps).kept := by
  induction steps using List.reverseRecOn with
  | nil => exact fruitless_nil
  | append_singleton steps step ih =>
    rw [after_concat]
    exact remembers_step (env_after env steps) ih step

/-! ## Requests -/

theorem kept_after_of_asked (hasks : step.asks = true)
    (h : ((opened env).after steps).asked = .ok found) :
    ((opened env).after (steps ++ [step])).kept = some found := by
  rw [after_concat, kept_step_of_asks _ hasks, h]
  rfl

theorem firstFound_of_asked (hasks : step.asks = true)
    (h : ((opened env).after steps).asked = .ok found) :
    FirstFound env (steps ++ [step]) found := by
  have hremembers := remembers_after env (steps ++ [step])
  rw [kept_after_of_asked hasks h] at hremembers
  exact hremembers

theorem FirstFound.bounds (h : FirstFound env steps found) :
    found.minVariables = 1 ∧ 1 ≤ found.maxVariables ∧ found.maxVariables ≤ TruthTable.maxNames := by
  rcases h with ⟨before, -, -, -, -, -, -, hfound⟩
  exact Settings.maxVariables_bounds hfound

theorem asked_of_asked_ok (hasks : step.asks = true)
    (h : ((opened env).after steps).asked = .ok found) {later : List Step}
    (hdrop : Step.dropSettings ∉ later) :
    ((opened env).after (steps ++ step :: later)).asked = .ok found := by
  rw [after_append_cons]
  exact asked_of_kept (kept_after_of_kept (kept_after_of_asked hasks h) hdrop)

theorem ofEnvironment_of_asked_error {e : Settings.Error}
    (h : ((opened env).after steps).asked = .error e) :
    Settings.ofEnvironment (environmentAfter env steps) = .error e := by
  rw [← env_after, ← asked_of_kept_none (kept_of_asked_error h), h]

theorem kept_after_of_asked_error (hasks : step.asks = true) {e : Settings.Error}
    (h : ((opened env).after steps).asked = .error e) :
    ((opened env).after (steps ++ [step])).kept = none := by
  rw [after_concat, kept_step_of_asks _ hasks, h]
  rfl

theorem asked_of_asked_error (hasks : step.asks = true) {e : Settings.Error}
    (h : ((opened env).after steps).asked = .error e) {later : List Step}
    (hlater : ∀ t ∈ later, t.asks = false) :
    ((opened env).after (steps ++ step :: later)).asked =
      Settings.ofEnvironment (environmentAfter env (steps ++ step :: later)) := by
  have hkept := kept_after_of_kept_none (kept_after_of_asked_error hasks h) hlater
  rw [← after_append_cons] at hkept
  rw [asked_of_kept_none hkept, env_after]

/-- Every reply of a session is given by what a request for settings is answered at its place, and
no analysis has more variables than these settings allow.  Settings that a request finds are in
bounds, they are the first ones found since settings were last dropped, and requests go on to find
them until settings are dropped.  A request that fails is one in an environment without settings;
nothing is kept of it, and the next request looks at the environment of its own place. -/
theorem run_answers_firstFound (env : Environment) (before : List Step) (step : Step)
    (rest : List Step) :
    (∃ reply, ((opened env).run (before ++ step :: rest))[before.length]? = some reply ∧
      Answers ((opened env).after before).asked step reply ∧
      ∀ a, reply = .analysis a → ∃ found, ((opened env).after before).asked = .ok found ∧
        (a.names.length : Int) ≤ found.maxVariables) ∧
    (step.asks = true →
      (∀ found, ((opened env).after before).asked = .ok found →
        (found.minVariables = 1 ∧ 1 ≤ found.maxVariables ∧ found.maxVariables ≤ 6) ∧
        FirstFound env (before ++ [step]) found ∧
        ∀ later, Step.dropSettings ∉ later →
          ((opened env).after (before ++ step :: later)).asked = .ok found) ∧
      ∀ e, ((opened env).after before).asked = .error e →
        Settings.ofEnvironment (environmentAfter env before) = .error e ∧
        ((opened env).after (before ++ [step])).kept = none ∧
        ∀ later, (∀ t ∈ later, t.asks = false) →
          ((opened env).after (before ++ step :: later)).asked =
            Settings.ofEnvironment (environmentAfter env (before ++ step :: later))) := by
  apply And.intro
  · have hanswers := answers_step ((opened env).after before) step
    refine ⟨_, getElem?_run (opened env) before rest step, hanswers, ?_⟩
    intro a hreply
    rw [hreply] at hanswers
    exact hanswers.length_names_le
  · intro hasks
    apply And.intro
    · intro found hfound
      have hfirst := firstFound_of_asked hasks hfound
      exact ⟨hfirst.bounds, hfirst, fun later hdrop => asked_of_asked_ok hasks hfound hdrop⟩
    · intro e herror
      exact ⟨ofEnvironment_of_asked_error herror, kept_after_of_asked_error hasks herror,
        fun later hlater => asked_of_asked_error hasks herror hlater⟩

-- The first request fails; the maximum in lower case is found by the second one and stays, though
-- one in upper case hides it later.
theorem run_answers_firstFound_hidden :
    ((opened .empty).after [.set "LOGIC_CIRCUIT_MAX_VARIABLES" "two", .settings]).kept = none ∧
    ((opened .empty).run [.set "LOGIC_CIRCUIT_MAX_VARIABLES" "two", .settings])[1]? =
      some (.settingsError ⟨"two"⟩) ∧
    FirstFound .empty
      [.set "LOGIC_CIRCUIT_MAX_VARIABLES" "two", .settings,
        .unset "LOGIC_CIRCUIT_MAX_VARIABLES", .set "logic_circuit_max_variables" " +2 ",
        .analyse "a xor b"] { maxVariables := 2 } ∧
    ((opened .empty).after
      [.set "LOGIC_CIRCUIT_MAX_VARIABLES" "two", .settings,
        .unset "LOGIC_CIRCUIT_MAX_VARIABLES", .set "logic_circuit_max_variables" " +2 ",
        .analyse "a xor b", .set "LOGIC_CIRCUIT_MAX_VARIABLES" "5"]).asked =
      .ok { maxVariables := 2 } := by
  have hfailed : ((opened .empty).after [.set "LOGIC_CIRCUIT_MAX_VARIABLES" "two"]).asked =
      .error ⟨"two"⟩ := by decide +kernel
  have hfound : ((opened .empty).after
      [.set "LOGIC_CIRCUIT_MAX_VARIABLES" "two", .settings,
        .unset "LOGIC_CIRCUIT_MAX_VARIABLES", .set "logic_circuit_max_variables" " +2 "]).asked =
      .ok { maxVariables := 2 } := by decide +kernel
  rcases run_answers_firstFound .empty [.set "LOGIC_CIRCUIT_MAX_VARIABLES" "two"] .settings [] with
    ⟨⟨reply, hreply, hanswers, -⟩, hrequest⟩
  have hnothing := (hrequest rfl).2 _ hfailed
  have hstays := ((run_answers_firstFound .empty
    [.set "LOGIC_CIRCUIT_MAX_VARIABLES" "two", .settings,
      .unset "LOGIC_CIRCUIT_MAX_VARIABLES", .set "logic_circuit_max_variables" " +2 "]
    (.analyse "a xor b") []).2 rfl).1 _ hfound
  refine ⟨hnothing.2.1, ?_, hstays.2.1, ?_⟩
  · rw [hfailed] at hanswers
    cases hanswers with
    | done hasks => cases hasks
    | settings hok => cases hok
    | failed _ herror =>
      cases herror
      exact hreply
  · exact hstays.2.2 [.set "LOGIC_CIRCUIT_MAX_VARIABLES" "5"] (by decide)

end Session

end TwoLevel
