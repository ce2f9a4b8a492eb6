import TwoLevel.Text.Numeral
import TwoLevel.Text.Quoted
import TwoLevel.TruthTable

/-!
# Settings

Settings have defaults, and an environment of named texts may override some of them. Main statement:
the most variables that an environment can ask for lie between one and the most names of a table
(`Settings.maxVariables_bounds`).
-/

namespace TwoLevel

/-- Named texts. Names are told apart by case. -/
structure Environment where
  entries : List (String × String)
deriving DecidableEq, Repr

namespace Environment

def empty : Environment := ⟨[]⟩

def get? (env : Environment) (name : String) : Option String := env.entries.lookup name

def unset (env : Environment) (name : String) : Environment :=
  ⟨env.entries.filter (·.1 != name)⟩

def set (env : Environment) (name text : String) : Environment :=
  ⟨(name, text) :: (env.unset name).entries⟩

theorem get?_unset (env : Environment) (name n : String) :
    (env.unset name).get? n = if n = name then none else env.get? n := by
  rcases env with ⟨entries⟩
  simp only [get?, unset]
  induction entries with
  | nil => simp
  | cons e rest ih =>
    rcases e with ⟨m, t⟩
    by_cases hm : m = name
    · subst hm
      by_cases h : n = m
      · simpa [h] using ih
      · simpa [h, List.lookup_cons, beq_false_of_ne h] using ih
    · by_cases h : n = m
      · subst h; simp [hm]
      · simpa [hm, List.lookup_cons, beq_false_of_ne h] using ih

theorem get?_set (env : Environment) (name text n : String) :
    (env.set name text).get? n = if n = name then some text else env.get? n := by
  by_cases h : n = name
  · simp [get?, set, h]
  · have := get?_unset env name n
    simp only [get?, if_neg h] at this
    simp [get?, set, List.lookup_cons, h, beq_false_of_ne h, this]

/-- The text under a name as it stands, or else under the name in lower case. -/
def lookup (env : Environment) (name : String) : Option String :=
  match env.get? name with
  | some text => some text
  | none => env.get? name.toLower

end Environment

structure Settings where
  minVariables : Int := 1
  maxVariables : Int := TruthTable.maxNames
  pageTitle : String := "Logic Circuit Simulator"
  showSteps : Bool := true
deriving DecidableEq, Repr

namespace Settings

/-- A maximum that is not an integer. -/
structure Error where
  text : String
deriving DecidableEq, Repr

def maxVariablesName : String := "LOGIC_CIRCUIT_MAX_VARIABLES"

def pageTitleName : String := "LOGIC_CIRCUIT_PAGE_TITLE"

def showStepsName : String := "LOGIC_CIRCUIT_SHOW_STEPS"

def Error.message (e : Error) : String :=
  maxVariablesName ++ " must be an integer, got " ++ Text.quoted e.text

def defaults : Settings := {}

/-- The title; an empty one counts as none. -/
def pageTitleOf : Option String → String
  | some text => if text = "" then defaults.pageTitle else text
  | none => defaults.pageTitle

/-- The most variables; an empty text counts as none, and a number is brought between the least
number of variables and the most names of a table. -/
def maxVariablesOf : Option String → Except Error Int
  | some text =>
    if text = "" then .ok defaults.maxVariables
    else match Text.integer? text with
      | some n => .ok (max defaults.minVariables (min n TruthTable.maxNames))
      | none => .error ⟨text⟩
  | none => .ok defaults.maxVariables

/-- Stages are shown unless the text is one of those that mean no. -/
def showStepsOf : Option String → Bool
  | some text => text ∉ ["0", "false", "False", ""]
  | none => defaults.showSteps

/-- The settings that an environment asks for. -/
def ofEnvironment (env : Environment) : Except Error Settings :=
  (maxVariablesOf (env.lookup maxVariablesName)).map fun maxVariables =>
    { maxVariables
      pageTitle := pageTitleOf (env.lookup pageTitleName)
      showSteps := showStepsOf (env.lookup showStepsName) }

theorem maxVariablesOf_bounds {text : Option String} {n : Int} (h : maxVariablesOf text = .ok n) :
    1 ≤ n ∧ n ≤ TruthTable.maxNames := by
  have most : (TruthTable.maxNames : Int) = 6 := rfl
  unfold maxVariablesOf at h
  split at h
  · split at h
    · cases h; decide
    · split at h
      · cases h
        have least : defaults.minVariables = 1 := rfl
        omega
      · cases h
  · cases h; decide

theorem maxVariables_bounds {env : Environment} {s : Settings} (h : ofEnvironment env = .ok s) :
    s.minVariables = 1 ∧ 1 ≤ s.maxVariables ∧ s.maxVariables ≤ TruthTable.maxNames := by
  unfold ofEnvironment at h
  cases hm : maxVariablesOf (env.lookup maxVariablesName) with
  | error e => simp [hm, Except.map] at h
  | ok n =>
    simp only [hm, Except.map, Except.ok.injEq] at h
    subst h
    exact ⟨rfl, maxVariablesOf_bounds hm⟩

end Settings

end TwoLevel
