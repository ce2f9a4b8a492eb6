import Mathlib.Data.List.Basic
import TwoLevel.Page

/-!
# Events of a report

A report is shown to its end: the sections that it enters are left again, its figure is closed, its
stages are numbered and nothing in it is a complaint.  Each of these is a view of the events that is
found for the parts first, most of which show plain texts only.  Main statement: the report of an
analysis whose two forms were found to agree has all of them (`isReport_of_report`).
-/

namespace TwoLevel

namespace Page

/-! ## Views of events -/

/-- Whether an event has nothing to do with entering or leaving a section. -/
def Event.isPlain : Event → Bool
  | .enterColumn _ => false
  | .exitColumn _ => false
  | .expander _ _ => false
  | .enterExpander => false
  | .exitExpander => false
  | _ => true

/-- Every section that is entered is left again, after the sections entered inside it.  A foldable
section is entered as soon as it is made. -/
inductive Nested : List Event → Prop
  | nil : Nested []
  | plain {e : Event} {rest : List Event} : e.isPlain = true → Nested rest → Nested (e :: rest)
  | column {k : Nat} {inner rest : List Event} : Nested inner → Nested rest →
      Nested (.enterColumn k :: inner ++ .exitColumn k :: rest)
  | expander {label : String} {expanded : Bool} {inner rest : List Event} : Nested inner →
      Nested rest →
        Nested (.expander label expanded :: .enterExpander :: inner ++ .exitExpander :: rest)

/-- The label of a foldable section that is made, and whether it stands open. -/
def Event.expander? : Event → Option (String × Bool)
  | .expander label expanded => some (label, expanded)
  | _ => none

def expanders (events : List Event) : List (String × Bool) := events.filterMap Event.expander?

/-- Whether an event draws a table or ends its drawing. -/
def Event.draws : Event → Bool
  | .figure _ => true
  | .closeFigure => true
  | _ => false

/-- Whether an event says that something is wrong. -/
def Event.alarms : Event → Bool
  | .log _ => true
  | .display .warning _ => true
  | .display .error _ => true
  | _ => false

theorem Nested.append {events rest : List Event} (h : Nested events) (hrest : Nested rest) :
    Nested (events ++ rest) := by
  induction h with
  | nil => exact hrest
  | plain hplain _ ih => exact .plain hplain ih
  | @column k inner later hinner _ _ ih =>
    have hassoc : (.enterColumn k :: inner ++ .exitColumn k :: later) ++ rest =
        .enterColumn k :: inner ++ .exitColumn k :: (later ++ rest) := List.append_assoc _ _ _
    rw [hassoc]
    exact .column hinner ih
  | @expander label expanded inner later hinner _ _ ih =>
    have hassoc :
        (.expander label expanded :: .enterExpander :: inner ++ .exitExpander :: later) ++ rest =
          .expander label expanded :: .enterExpander :: inner ++ .exitExpander :: (later ++ rest) :=
      List.append_assoc _ _ _
    rw [hassoc]
    exact .expander hinner ih

theorem nested_column (k : Nat) {events : List Event} (h : Nested events) :
    Nested (column k events) := .column h .nil

theorem expanders_append (events rest : List Event) :
    expanders (events ++ rest) = expanders events ++ expanders rest := List.filterMap_append

theorem expanders_column (k : Nat) (events : List Event) :
    expanders (column k events) = expanders events := by
  have hsections : expanders (column k events) = expanders events ++ [] :=
    expanders_append (.enterColumn k :: events) [.exitColumn k]
  rw [hsections, List.append_nil]

/-- Events that neither draw nor raise an alarm. -/
def Quiet (events : List Event) : Prop := ∀ e ∈ events, e.draws = false ∧ e.alarms = false

namespace Quiet

variable {events rest : List Event}

theorem append (h : Quiet events) (hrest : Quiet rest) : Quiet (events ++ rest) :=
  List.forall_mem_append.mpr ⟨h, hrest⟩

theorem column (k : Nat) (h : Quiet events) : Quiet (column k events) := by
  have hexit : Quiet [.exitColumn k] := by simp [Quiet, Event.draws, Event.alarms]
  exact List.forall_mem_cons.mpr ⟨⟨rfl, rfl⟩, h.append hexit⟩

end Quiet

/-! ## Texts -/

/-- Events that show texts and raise no alarm. -/
def TextsOnly (events : List Event) : Prop :=
  ∀ e ∈ events, ∃ style text, e = .display style text ∧ e.alarms = false

namespace TextsOnly

variable {events : List Event}

theorem nested (h : TextsOnly events) : Nested events := by
  induction events with
  | nil => exact .nil
  | cons e events ih =>
    rcases h e List.mem_cons_self with ⟨style, text, rfl, -⟩
    exact .plain rfl (ih fun d hd => h d (List.mem_cons_of_mem _ hd))

theorem expanders_eq_nil (h : TextsOnly events) : expanders events = [] := by
  apply List.filterMap_eq_nil_iff.mpr
  intro e he
  rcases h e he with ⟨style, text, rfl, -⟩
  rfl

theorem quiet (h : TextsOnly events) : Quiet events := by
  intro e he
  rcases h e he with ⟨style, text, rfl, halarms⟩
  exact ⟨rfl, halarms⟩

end TextsOnly

theorem textsOnly_simplifiedEvents {a : Analysis} {events : List Event}
    (h : simplifiedEvents a = .ok events) : TextsOnly events := by
  unfold simplifiedEvents at h
  split at h
  · cases h
    simp [TextsOnly, Event.alarms]
  · cases hterms : a.termBits with
    | error e => simp [hterms, Except.map] at h
    | ok terms =>
      simp only [hterms, Except.map, Except.ok.injEq] at h
      subst h
      simp [TextsOnly, linesText, Event.alarms]

/-! ## Stages -/

-- Inside its section a stage shows its description and, if it has any, its lines.
theorem exists_stageEvents_eq (names : List String) (number last : Nat) (stage : Stage) :
    ∃ inner, stageEvents names number last stage =
        .expander (toString number ++ ". " ++ stage.title) (number == last) :: .enterExpander ::
          inner ++ [.exitExpander] ∧ TextsOnly inner := by
  unfold stageEvents
  dsimp only
  split
  · exact ⟨[_], rfl, by simp [TextsOnly, Event.alarms]⟩
  · exact ⟨[_, _], rfl, by simp [TextsOnly, linesText, Event.alarms]⟩

variable {names : List String} {number last : Nat} {stage : Stage}

theorem nested_stageEvents : Nested (stageEvents names number last stage) := by
  rcases exists_stageEvents_eq names number last stage with ⟨inner, heq, hinner⟩
  rw [heq]
  exact .expander hinner.nested .nil

theorem expanders_stageEvents : expanders (stageEvents names number last stage) =
    [(toString number ++ ". " ++ stage.title, number == last)] := by
  rcases exists_stageEvents_eq names number last stage with ⟨inner, heq, hinner⟩
  have hsection : expanders (stageEvents names number last stage) =
      (toString number ++ ". " ++ stage.title, number == last) :: (expanders inner ++ []) := by
    rw [heq, expanders_append]
    rfl
  rw [hsection, hinner.expanders_eq_nil]
  rfl

theorem quiet_stageEvents : Quiet (stageEvents names number last stage) := by
  rcases exists_stageEvents_eq names number last stage with ⟨inner, heq, hinner⟩
  have hexit : Quiet [.exitExpander] := by simp [Quiet, Event.draws, Event.alarms]
  rw [heq]
  exact List.forall_mem_cons.mpr ⟨⟨rfl, rfl⟩,
    List.forall_mem_cons.mpr ⟨⟨rfl, rfl⟩, hinner.quiet.append hexit⟩⟩

theorem nested_stagesEvents (m : Minimisation) : Nested (stagesEvents m) := by
  have hstages (stages : List (Stage × Nat)) :
      Nested (stages.flatMap fun p => stageEvents m.names p.2 m.stages.length p.1) := by
    induction stages with
    | nil => exact .nil
    | cons first stages ih => exact nested_stageEvents.append ih
  exact .plain rfl (hstages _)

theorem expanders_stagesEvents (m : Minimisation) :
    expanders (stagesEvents m) = (m.stages.zipIdx 1).map fun p =>
      (toString p.2 ++ ". " ++ p.1.title, p.2 == m.stages.length) := by
  have hstages (stages : List (Stage × Nat)) :
      expanders (stages.flatMap fun p => stageEvents m.names p.2 m.stages.length p.1) =
        stages.map fun p => (toString p.2 ++ ". " ++ p.1.title, p.2 == m.stages.length) := by
    induction stages with
    | nil => rfl
    | cons first stages ih =>
      rw [List.flatMap_cons, expanders_append, ih, expanders_stageEvents]
      rfl
  exact hstages _

theorem quiet_stagesEvents (m : Minimisation) : Quiet (stagesEvents m) := by
  intro e h
  rcases List.mem_cons.mp h with rfl | h
  · exact ⟨rfl, rfl⟩
  · rcases List.mem_flatMap.mp h with ⟨⟨stage, number⟩, -, h⟩
    exact quiet_stageEvents e h

-- Of the numbers from one on only the last is the length.
theorem map_zipIdx_eq_length {α : Type} {l : List α} (h : l ≠ []) :
    (l.zipIdx 1).map (fun p => p.2 == l.length) =
      List.replicate (l.length - 1) false ++ [true] := by
  rcases List.eq_nil_or_concat l with hnil | ⟨init, last, rfl⟩
  · exact absurd hnil h
  have hlen : (init ++ [last]).length = init.length + 1 := List.length_append
  have hinit : (init.zipIdx 1).map (fun p => p.2 == init.length + 1) =
      List.replicate init.length false := by
    rw [List.eq_replicate_iff]
    refine ⟨by rw [List.length_map, List.length_zipIdx], ?_⟩
    intro b hb
    rcases List.mem_map.mp hb with ⟨⟨x, k⟩, hmem, rfl⟩
    have hlt : k < init.length + 1 := List.snd_lt_of_mem_zipIdx hmem
    exact beq_false_of_ne (by omega)
  rw [List.concat_eq_append, hlen, List.zipIdx_append, List.map_append, hinit]
  simp [Nat.add_comm]

/-! ## Reports -/

/-- A report that is shown to its end.  It opens with the minimised text and the variables, says of
nothing that it is wrong, and leaves every section that it enters. -/
structure IsReport (settings : Settings) (a : Analysis) (events : List Event) : Prop where
  opening : ∃ rest, events =
    .display .success ("**Simplified:**  \nF = " ++ a.result.text) ::
      .display .info ("**Variables:** " ++ ", ".intercalate a.names) :: rest
  unwarned : ∀ message, .display .warning message ∉ events
  uncomplaining : ∀ message, .log message ∉ events ∧ .display .error message ∉ events
  nested : Nested events
  /-- There is one figure, and it is closed at once. -/
  figure : ∃ before after, events =
      before ++ .figure (Figure.ofTable a.names a.table) :: .closeFigure :: after ∧
    (∀ e ∈ before, e.draws = false) ∧ ∀ e ∈ after, e.draws = false
  /-- There is one foldable section for each stage, in their order, numbered from one. -/
  labels : settings.showSteps = true → (expanders events).map Prod.fst =
    (a.result.stages.zipIdx 1).map fun p => toString p.2 ++ ". " ++ p.1.title
  /-- The last stage and no other stands open. -/
  expanded : settings.showSteps = true → (expanders events).map Prod.snd =
    List.replicate (a.result.stages.length - 1) false ++ [true]
  /-- Without the stages there are no foldable sections. -/
  hidden : settings.showSteps = false → expanders events = []

variable {test : EquivalenceTest} {settings : Settings} {a : Analysis} {events : List Event}

/-- What a report consists of. -/
theorem exists_report_eq (hagrees : a.agrees test = true)
    (h : report settings a test = .ok events) :
    ∃ original simplified, TextsOnly original ∧ TextsOnly simplified ∧ events =
      [.display .success ("**Simplified:**  \nF = " ++ a.result.text),
        .display .info ("**Variables:** " ++ ", ".intercalate a.names), .columns 2] ++
      column 0 original ++ column 1 simplified ++ [.columns 2] ++
      column 0 [.display .markdown "### Truth table", .figure (Figure.ofTable a.names a.table),
        .closeFigure] ++
      column 1 (if settings.showSteps then stagesEvents a.result else []) := by
  unfold report at h
  cases hsimplified : simplifiedEvents a with
  | error e => simp [hsimplified, Except.map] at h
  | ok simplified =>
    simp only [hsimplified, Except.map, Except.ok.injEq, hagrees, if_true, List.append_nil] at h
    refine ⟨_, _, ?_, ?_, h.symm⟩
    · simp [TextsOnly, Event.alarms]
    · exact List.forall_mem_cons.mpr ⟨⟨_, _, rfl, rfl⟩, textsOnly_simplifiedEvents hsimplified⟩

section

variable (hagrees : a.agrees test = true) (h : report settings a test = .ok events)

include hagrees h

theorem nested_report : Nested events := by
  rcases exists_report_eq hagrees h with ⟨original, simplified, horiginal, hsimplified, rfl⟩
  have hsteps : Nested (if settings.showSteps then stagesEvents a.result else []) := by
    split
    · exact nested_stagesEvents a.result
    · exact .nil
  have hopening (simplified names : String) :
      Nested [.display .success simplified, .display .info names, .columns 2] :=
    .plain rfl (.plain rfl (.plain rfl .nil))
  have hcolumns : Nested [.columns 2] := .plain rfl .nil
  have htable (title : String) (f : Figure) :
      Nested [.display .markdown title, .figure f, .closeFigure] :=
    .plain rfl (.plain rfl (.plain rfl .nil))
  exact (hopening _ _).append (nested_column 0 horiginal.nested)
    |>.append (nested_column 1 hsimplified.nested) |>.append hcolumns
    |>.append (nested_column 0 (htable _ _)) |>.append (nested_column 1 hsteps)

theorem expanders_report : expanders events =
    expanders (if settings.showSteps then stagesEvents a.result else []) := by
  rcases exists_report_eq hagrees h with ⟨original, simplified, horiginal, hsimplified, rfl⟩
  simp only [expanders_append, expanders_column, horiginal.expanders_eq_nil,
    hsimplified.expanders_eq_nil]
  rfl

/-- A report is quiet but for one figure, which is closed at once. -/
theorem exists_figure_eq : ∃ before after, events =
    before ++ .figure (Figure.ofTable a.names a.table) :: .closeFigure :: after ∧
      Quiet before ∧ Quiet after := by
  rcases exists_report_eq hagrees h with ⟨original, simplified, horiginal, hsimplified, rfl⟩
  have hsteps : Quiet (if settings.showSteps then stagesEvents a.result else []) := by
    split
    · exact quiet_stagesEvents a.result
    · simp [Quiet]
  have hopening : Quiet [.display .success ("**Simplified:**  \nF = " ++ a.result.text),
      .display .info ("**Variables:** " ++ ", ".intercalate a.names), .columns 2] := by
    simp [Quiet, Event.draws, Event.alarms]
  have htitle : Quiet [.columns 2, .enterColumn 0, .display .markdown "### Truth table"] := by
    simp [Quiet, Event.draws, Event.alarms]
  have hexit : Quiet [.exitColumn 0] := by simp [Quiet, Event.draws, Event.alarms]
  refine ⟨_, _, ?_, hopening.append (horiginal.quiet.column 0)
    |>.append (hsimplified.quiet.column 1) |>.append htitle, hexit.append (hsteps.column 1)⟩
  simp [column]

theorem alarms_report : ∀ e ∈ events, e.alarms = false := by
  rcases exists_figure_eq hagrees h with ⟨before, after, rfl, hbefore, hafter⟩
  intro e he
  rcases List.mem_append.mp he with he | he
  · exact (hbefore e he).2
  simp only [List.mem_cons] at he
  rcases he with rfl | rfl | he
  · rfl
  · rfl
  · exact (hafter e he).2

theorem isReport_of_report (hstages : a.result.stages ≠ []) : IsReport settings a events where
  opening := by
    rcases exists_report_eq hagrees h with ⟨original, simplified, -, -, heq⟩
    exact ⟨_, heq⟩
  unwarned := by
    intro message hmem
    cases alarms_report hagrees h _ hmem
  uncomplaining := by
    intro message
    apply And.intro
    · intro hmem
      cases alarms_report hagrees h _ hmem
    · intro hmem
      cases alarms_report hagrees h _ hmem
  nested := nested_report hagrees h
  figure := by
    rcases exists_figure_eq hagrees h with ⟨before, after, heq, hbefore, hafter⟩
    exact ⟨before, after, heq, fun e he => (hbefore e he).1, fun e he => (hafter e he).1⟩
  labels := by
    intro hshow
    rw [expanders_report hagrees h, if_pos hshow, expanders_stagesEvents, List.map_map]
    rfl
  expanded := by
    intro hshow
    rw [expanders_report hagrees h, if_pos hshow, expanders_stagesEvents, List.map_map,
      ← map_zipIdx_eq_length hstages]
    rfl
  hidden := by
    intro hhide
    rw [expanders_report hagrees h, hhide]
    rfl

end

end Page

end TwoLevel
