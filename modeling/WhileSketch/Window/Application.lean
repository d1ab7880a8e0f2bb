import WhileSketch.Window.ConditionForm
import WhileSketch.Window.ExampleTable
import WhileSketch.Window.Hint
import WhileSketch.Window.StepView

/-! The application: two ways to complete a program, and the windows that belong to them. -/

namespace WhileSketch

inductive Tab where
  | examples
  | conditions
  deriving DecidableEq

structure PerTab (α : Type) where
  examples : α
  conditions : α

namespace PerTab

variable {α : Type}

def get (p : PerTab α) : Tab → α
  | .examples => p.examples
  | .conditions => p.conditions

def set (p : PerTab α) (t : Tab) (a : α) : PerTab α :=
  match t with
  | .examples => { p with examples := a }
  | .conditions => { p with conditions := a }

def toList (p : PerTab α) : List α :=
  [p.examples, p.conditions]

end PerTab

inductive Job where
  | byExample (spec : Specification) (limit : Int) (inputs outputs : List Settings)
      (program : String)
  | refinement (spec : Specification) (limit : Int) (program : String)
  | verification (spec : Specification) (program : Option String)

/-- Whether two jobs are watched together: of the syntheses of one kind, the latest one decides
when all of them are done. -/
def Job.isWatchedWith : Job → Job → Bool
  | byExample .., byExample .. => true
  | refinement .., refinement .. => true
  | _, _ => false

structure Application where
  program : String
  limit : String
  notice : Notice
  output : String
  canVerify : PerTab Bool
  forms : PerTab ConditionForm
  store : ExampleStore
  table : Pane ExampleTable
  stepwise : Bool
  steps : Pane StepView
  /-- Whether background work waits to be told to finish. -/
  hanging : Bool
  waiting : List Job
  hints : Hints

namespace Application

def start : Application where
  program := ""
  limit := "10"
  notice := .blank
  output := "Output program"
  canVerify := ⟨false, false⟩
  forms := ⟨.blank, .blank⟩
  store := .empty
  table := .unopened
  stepwise := false
  steps := .unopened
  hanging := false
  waiting := []
  hints := .empty

def fail (a : Application) (reason : String) : Application :=
  { a with notice := .failure reason }

def clearOutput (a : Application) (t : Tab) : Application :=
  { a with output := "", canVerify := a.canVerify.set t false }

def showReport (a : Application) (t : Tab) (r : Report) : Application :=
  let a := if r.error.isEmpty then a
    else (a.fail r.error).clearOutput t
  if r.output.isEmpty then a
  else { a with
    notice := if r.error.isEmpty then .success "The program has been synthesized successfully"
      else a.notice,
    output := r.output, canVerify := a.canVerify.set t true }

def perform (solver : Solver) (a : Application) : Job → Application
  | .byExample spec limit inputs outputs program =>
    a.showReport .examples (.ofExamples program
      (ByExample.complete solver spec limit inputs outputs program))
  | .refinement spec limit program =>
    a.showReport .conditions (.ofRefinement program (Refinement.complete solver spec limit program))
  | .verification spec program =>
    { a with notice := Verification.notice solver spec program }

def launch (solver : Solver) (a : Application) (j : Job) : Application :=
  if a.hanging then { a with waiting := a.waiting ++ [j] } else a.perform solver j

/-- The application without the latest piece of waiting work, and that piece. -/
def settle (a : Application) : Option (Job × Application) :=
  a.waiting.getLast?.map fun j =>
    (j, { a with waiting := a.waiting.dropLast.filter fun w => !j.isWatchedWith w })

def finish (solver : Solver) (a : Application) : Application :=
  match a.settle with
  | some (j, a) => a.perform solver j
  | none => a

def cancel (a : Application) : Application :=
  match a.settle with
  | some (.verification .., a) => a.fail "Error: Verification process has been canceled."
  | some (_, a) => a
  | none => a

def vars? (program : String) : Except Fault (Option (List String)) := do
  (← While.parse program).mapM While.variableNames

def refuse (a : Application) (reason : String) : Application :=
  (a.fail reason).clearOutput .examples

/-- The work of completing the program from examples, or why it is refused. -/
def exampleJob (a : Application) : Except String Job :=
  let program := Text.trim a.program
  match Text.readInt a.limit with
  | .error _ => .error "Error: Loop unrolling limit must be an integer."
  | .ok limit =>
    if limit < 0 then
      .error "Error: Loop unrolling limit must be greater than or equal to 0."
    else match vars? program with
      | .error f => .error ("Error: unexpected error: " ++ f.message)
      | .ok none => .error "Error: The given program can't be parsed"
      | .ok (some vars) =>
        if a.store.vars ≠ [] ∧ vars ≠ a.store.vars then
          .error ("Error: The program has different parameters than the examples. Please set "
            ++ "examples and then synthesize")
        else .ok (.byExample a.forms.examples.specification limit a.store.inputs a.store.outputs
          program)

def synthesizeByExample (solver : Solver) (a : Application) : Application :=
  let a := { a with notice := a.notice.clear }
  match a.exampleJob with
  | .error reason => a.refuse reason
  | .ok j => a.launch solver j

def stepLimit : Int := 10

/-- Opens the window of a search, unless it is open already. Where no search can be started, the
window stands over the search of the window before. -/
def openSteps (solver : Solver) (a : Application) (program : String) :
    Application × Option Fault :=
  if a.steps.content?.isSome then (a, none)
  else
    let (search, fault) := match (Session.ofProgram program).result with
      | .ok s =>
        (Search.running ⟨solver, s, a.forms.conditions.specification, stepLimit, program⟩ .start,
          none)
      | .error f => ((a.steps.last?.map StepView.search).getD .absent, some f)
    ({ a with steps := .shown (.start search) }, fault)

def refinementJob (a : Application) : Except String Job :=
  match Text.readInt a.limit with
  | .error _ => .error "Error: Loop unrolling limit must be an integer."
  | .ok limit =>
    if limit ≤ 0 then .error "Error: Loop unrolling limit must be greater than 0."
    else .ok (.refinement a.forms.conditions.specification limit (Text.trim a.program))

def synthesizeByRefinement (solver : Solver) (a : Application) : Application × Option Fault :=
  let a := { a with notice := a.notice.clear }
  match a.refinementJob with
  | .error reason => (a.fail reason, none)
  | .ok j =>
    if a.stepwise then a.openSteps solver (Text.trim a.program) else (a.launch solver j, none)

def verify (solver : Solver) (a : Application) (t : Tab) : Application × Option Fault :=
  if a.canVerify.get t then
    let a := { a with notice := a.notice.clear }
    match (Sketch.removeAssertions (Text.trim a.output)).result with
    | .error f => (a, some f)
    | .ok program =>
      (a.launch solver (.verification (a.forms.get t).specification program), none)
  else (a, none)

def openTable (a : Application) : Application × Option Fault :=
  match vars? (Text.trim a.program) with
  | .error f => (a, some f)
  | .ok none =>
    (a.fail "Error: Invalid program. Please enter a valid program, and then set the examples.",
      none)
  | .ok (some vars) =>
    let store := a.store.retarget vars
    ({ a with
      store := store, table := a.table.openWith (.ofExamples store.vars store.saved) }, none)

def saveTable (a : Application) : Application × Option Fault :=
  match a.table.content? with
  | none => (a, none)
  | some t =>
    match a.store.save t with
    | .ok (store, notice) => ({ a with store := store, notice := notice }, none)
    | .error f => (a, some f)

def deleteRow (a : Application) (row : Nat) : Application :=
  match a.table.content?.bind fun t => t.rows[row]? with
  | some r => { a with
      table := a.table.modify (·.delete row), hints := a.hints.without (· = .row r.id) }
  | none => a

/-- Makes the next step of a search, in which bounds are widened less often than the given number of
times. -/
def nextStepWithin (rounds : Nat) (a : Application) : Application × Option Fault :=
  match a.steps with
  | .shown v =>
    let (v, fault) := v.pressNextWithin rounds
    ({ a with steps := .shown v }, fault)
  | _ => (a, none)

/-- Gives up a search that has not ended, and closes its window. A window in which no search could
be started stays open. -/
def abort (a : Application) : Application × Option Fault :=
  match a.steps with
  | .shown v =>
    if v.enabled then
      match v.search with
      | .absent => (a, some (.noAttribute "NoneType" "close"))
      | _ => ({ a with steps := .closed { v with search := .closed },
                       hints := a.hints.without HintOwner.isInSteps }, none)
    else (a, none)
  | _ => (a, none)

def hint? (a : Application) (label : String) : Option (HintOwner × String) :=
  let inApplication := (Hint.ofApplication.lookup label).map fun s =>
    (HintOwner.application label, s)
  let inTable := a.table.content?.bind fun t =>
    if label == Hint.ofRow.1 then t.rows.head?.map fun r => (HintOwner.row r.id, Hint.ofRow.2)
    else (Hint.ofTable.lookup label).map fun s => (HintOwner.table label, s)
  let inSteps := a.steps.content?.bind fun _ =>
    (Hint.ofSteps.lookup label).map fun s => (HintOwner.steps label, s)
  (inApplication.or inTable).or inSteps

/-- Changes the form of a tab, and shows the message about the change. -/
def changeForm (a : Application) (t : Tab)
    (change : ConditionForm → Option (ConditionForm × Notice)) : Application :=
  match change (a.forms.get t) with
  | some (form, notice) => { a with forms := a.forms.set t form, notice := notice }
  | none => a

end Application

inductive Action where
  | typeProgram (text : String)
  | typeLimit (text : String)
  | synthesize (t : Tab)
  | verify (t : Tab)
  | openForm (t : Tab)
  | closeForm (t : Tab)
  | typeCondition (t : Tab) (r : Role) (text : String)
  | stateCondition (t : Tab) (r : Role)
  | resetCondition (t : Tab) (r : Role)
  | openTable
  | closeTable
  | typeEntry (row column : Nat) (isOutput : Bool) (text : String)
  | addRow
  | deleteRow (row : Nat)
  | saveTable
  | setStepwise (on : Bool)
  | nextStep
  | closeSteps
  | abort
  | select (index : Option Nat)
  | setHanging (on : Bool)
  | finish
  | cancel
  | enter (label : String)
  | leave (label : String)

/-- Does something with the application, which may fail after a part of it has been done. -/
def Application.act (solver : Solver) (a : Application) : Action → Application × Option Fault
  | .typeProgram text => ({ a with program := text }, none)
  | .typeLimit text => ({ a with limit := text }, none)
  | .synthesize .examples => (a.synthesizeByExample solver, none)
  | .synthesize .conditions => a.synthesizeByRefinement solver
  | .verify t => a.verify solver t
  | .openForm t => ({ a with forms := a.forms.set t (a.forms.get t).openBoxes }, none)
  | .closeForm t => ({ a with forms := a.forms.set t (a.forms.get t).closeBoxes }, none)
  | .typeCondition t r text =>
    ({ a with forms := a.forms.set t ((a.forms.get t).type r text) }, none)
  | .stateCondition t r => (a.changeForm t (·.state r), none)
  | .resetCondition t r => (a.changeForm t (·.reset r), none)
  | .openTable => a.openTable
  | .closeTable =>
    ({ a with table := a.table.close, hints := a.hints.without HintOwner.isInTable }, none)
  | .typeEntry row column isOutput text =>
    ({ a with table := a.table.modify (·.type row column isOutput text) }, none)
  | .addRow => ({ a with table := a.table.modify (·.add []) }, none)
  | .deleteRow row => (a.deleteRow row, none)
  | .saveTable => a.saveTable
  | .setStepwise on => ({ a with stepwise := on }, none)
  | .nextStep => a.nextStepWithin Refinement.Problem.maxRounds
  | .closeSteps =>
    ({ a with steps := a.steps.close, hints := a.hints.without HintOwner.isInSteps }, none)
  | .abort => a.abort
  | .select index =>
    ({ a with steps := a.steps.modify fun v => index.elim v.unselect v.select }, none)
  | .setHanging on => ({ a with hanging := on }, none)
  | .finish => (a.finish solver, none)
  | .cancel => (a.cancel, none)
  | .enter label =>
    (match a.hint? label with
      | some (owner, text) => { a with hints := a.hints.enter owner text }
      | none => a, none)
  | .leave label =>
    match a.hint? label with
    | some (owner, _) =>
      match a.hints.leave owner with
      | .ok hints => ({ a with hints := hints }, none)
      | .error f => (a, some f)
    | none => (a, none)

end WhileSketch
