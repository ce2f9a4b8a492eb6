import TwoLevel.Analysis
import TwoLevel.Page.Event

/-!
# The page

One run of the page: a heading, a text field and a button, and, once the button is pressed, either
the complaint about the text or the report of its analysis.
-/

namespace TwoLevel.Page

/-- What keeps the page from being shown to its end. A text that cannot be analysed does not: the
page shows the complaint. -/
inductive Error where
  | settings (e : Settings.Error)
  | evaluation (e : Rpn.EvalError)
  | term (e : ProductTerm.Error)
deriving DecidableEq, Repr

/-- What stands above the report. -/
def heading (settings : Settings) : List Event :=
  [.configure settings.pageTitle "wide",
    .display .title ("🔌 " ++ settings.pageTitle),
    .display .caption
      ("Simplify Boolean expressions with the Quine-McCluskey method. Supports up to " ++
        toString settings.maxVariables ++ " variables and AND, OR, NOT, XOR, NAND, NOR."),
    .display .markdown "---",
    .textInput "Expression (e.g. A AND NOT B OR (C XOR A)):",
    .button "Evaluate 🚀"]

def column (k : Nat) (events : List Event) : List Event :=
  .enterColumn k :: events ++ [.exitColumn k]

def linesText (lines : List String) : Event := .display .text ("\n".intercalate lines)

/-- A stage in a foldable section; its lines are left out if there are none. -/
def stageEvents (names : List String) (number last : Nat) (stage : Stage) : List Event :=
  let lines := stage.lines names
  [.expander (toString number ++ ". " ++ stage.title) (number == last), .enterExpander,
      .display .write (stage.description names.length)] ++
    (if lines = [] then [] else [linesText lines]) ++ [.exitExpander]

/-- The stages, counted from one; the last stands open. -/
def stagesEvents (m : Minimisation) : List Event :=
  .display .markdown "### Quine-McCluskey steps" ::
    (m.stages.zipIdx 1).flatMap fun (stage, number) =>
      stageEvents m.names number m.stages.length stage

/-- The formula of the minimised text with the patterns of its products, or the constant. -/
def simplifiedEvents (a : Analysis) : Except ProductTerm.Error (List Event) :=
  match a.simplified with
  | none => .ok [.display .caption ("Constant output: " ++ a.result.text)]
  | some f => a.termBits.map fun terms =>
    [.display .code f.expr.render,
      linesText (terms.map fun (term, bits) => String.ofList bits ++ "  " ++ term)]

/-- The report of an analysis. It warns if the test does not find the minimised form equivalent. -/
def report (settings : Settings) (a : Analysis) (test : EquivalenceTest := .ringSearch) :
    Except ProductTerm.Error (List Event) :=
  (simplifiedEvents a).map fun simplified =>
    [.display .success ("**Simplified:**  \nF = " ++ a.result.text),
      .display .info ("**Variables:** " ++ ", ".intercalate a.names)] ++
    (if a.agrees test then []
      else [.display .warning "SymPy could not confirm that the simplified form is equivalent."]) ++
    [.columns 2] ++
    column 0 [.display .markdown "### Original circuit", .display .code a.formula.expr.render] ++
    column 1 (.display .markdown "### Simplified circuit" :: simplified) ++
    [.columns 2] ++
    column 0 [.display .markdown "### Truth table", .figure (Figure.ofTable a.names a.table),
      .closeFigure] ++
    column 1 (if settings.showSteps then stagesEvents a.result else [])

def complaint (text : String) (e : Analysis.Error) : List Event :=
  [.log ("Rejected expression " ++ Text.quoted text ++ ": " ++ e.message),
    .display .error e.message]

/-- What follows a press of the button. A failed evaluation is no fault of the text. -/
def response (settings : Settings) (text : String) (test : EquivalenceTest := .ringSearch) :
    Except Error (List Event) :=
  match Analysis.ofText text settings with
  -- all other errors are complaints
  | .error (.table (.evaluation e)) => .error (.evaluation e)
  | .error e => .ok (complaint text e)
  | .ok a => (report settings a test).mapError .term

/-- One run of the page, in an environment, with a text in its field. -/
def run (env : Environment) (text : String) (pressed : Bool)
    (test : EquivalenceTest := .ringSearch) : Except Error (List Event) :=
  match Settings.ofEnvironment env with
  | .error e => .error (.settings e)
  | .ok settings =>
    if pressed then (response settings text test).map (heading settings ++ ·)
    else .ok (heading settings)

end TwoLevel.Page
