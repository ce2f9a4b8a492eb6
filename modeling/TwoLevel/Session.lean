import TwoLevel.Analysis

/-!
# Sessions

A session changes an environment, asks for settings and analyses texts. Settings are kept once they
have been found, until they are dropped; a failure is not kept. Main statement: kept settings are
answered whatever the environment says (`Session.settings_of_kept`).
-/

namespace TwoLevel

/-- An environment, and the settings found in it earlier. -/
structure Session where
  env : Environment
  kept : Option Settings
deriving DecidableEq

namespace Session

inductive Step where
  | set (name text : String)
  | unset (name : String)
  | dropSettings
  | settings
  | analyse (text : String)
deriving DecidableEq, Repr

inductive Reply where
  | done
  | settings (s : Settings)
  | analysis (a : Analysis)
  | settingsError (e : Settings.Error)
  | analysisError (e : Analysis.Error)
deriving DecidableEq

def start : Session := ⟨.empty, none⟩

/-- The settings: those kept, or else those of the environment, which are kept from then on. -/
def settings (s : Session) : Except Settings.Error Settings × Session :=
  match s.kept with
  | some found => (.ok found, s)
  | none =>
    match Settings.ofEnvironment s.env with
    | .ok found => (.ok found, ⟨s.env, some found⟩)
    | .error e => (.error e, s)

theorem settings_of_kept {s : Session} {found : Settings} (h : s.kept = some found) :
    s.settings = (.ok found, s) := by
  simp [settings, h]

/-- Answers a step. Settings are looked at before the text of an analysis is. -/
def step (s : Session) : Step → Reply × Session
  | .set name text => (.done, ⟨s.env.set name text, s.kept⟩)
  | .unset name => (.done, ⟨s.env.unset name, s.kept⟩)
  | .dropSettings => (.done, ⟨s.env, none⟩)
  | .settings =>
    match s.settings with
    | (.ok found, s') => (.settings found, s')
    | (.error e, s') => (.settingsError e, s')
  | .analyse text =>
    match s.settings with
    | (.error e, s') => (.settingsError e, s')
    | (.ok found, s') =>
      match Analysis.ofText text found with
      | .ok a => (.analysis a, s')
      | .error e => (.analysisError e, s')

def run (s : Session) : List Step → List Reply
  | [] => []
  | step :: steps => (s.step step).1 :: (s.step step).2.run steps

end Session

end TwoLevel
