import WhileSketch.Synthesis.Stepping
import WhileSketch.Window.Report

/-! The window that shows a search one step at a time. -/

namespace WhileSketch

structure Stage where
  name : String
  title : String
  description : String

namespace Stage

def every : List Stage := [
  ⟨"State_0", "initialization", "Initialize the program"⟩,
  ⟨"State_1", "Replace holes with variables",
    "Replace all occurrences of '??' with unique hole variables"⟩,
  ⟨"State_2", "Fill holes with zeroes", "Fill the program holes with zeros"⟩,
  ⟨"State_3_1", "Try to verify the program", "Try to verify the program"⟩,
  ⟨"State_3_2", "Verification succeeded", "Verification succeeded, return the final program"⟩,
  ⟨"State_3_3", "Verification failed",
    "Verification failed, show counter example and exclude current holes combination"⟩,
  ⟨"State_4_1", "Try to find new holes", "Try to find new holes"⟩,
  ⟨"State_4_2", "Couldn't find new holes", "Couldn't find new holes - finish"⟩,
  ⟨"State_5", "New holes found",
    "New holes found, Show the new holes and fill the program with the new holes"⟩]

def render (s : Stage) : String :=
  s.name ++ " - " ++ s.title

def indexOf (name : String) : Nat :=
  every.findIdx (·.name == name)

end Stage

inductive Search where
  /-- No search could be started. -/
  | absent
  | closed
  | running (order : Stepping.Order) (phase : Stepping.Phase)

/-- What the window shows, and what it is about to show. -/
structure StepView where
  search : Search
  /-- The step that was made last. It is shown when the next one is made. -/
  last : Option Stepping.Event
  selected : Option Nat
  description : String
  excluded : List String
  holes : List String
  program : String
  holesProgram : String
  message : String
  colour : Option Colour
  enabled : Bool

namespace StepView

def start (search : Search) : StepView where
  search := search
  last := none
  selected := some 0
  description := ""
  excluded := []
  holes := []
  program := ""
  holesProgram := ""
  message := ""
  colour := none
  enabled := true

def stateName (v : StepView) : String :=
  match v.last with
  | some e => e.name
  | none => "State_0"

def say (v : StepView) (text : String) (colour : Colour) : StepView :=
  { v with message := text, colour := some colour }

def finish (v : StepView) : StepView :=
  { v with search := .closed, enabled := false }

def select (v : StepView) (index : Nat) : StepView :=
  match Stage.every[index]? with
  | some s => { v with selected := some index, description := s.description }
  | none => v

def unselect (v : StepView) : StepView :=
  { v with selected := none }

def holeLines (f : Holes.Filling) : List String :=
  f.map fun (x, n) => x ++ ": " ++ toString n

/-- Lists what a step has brought before the next one is made. -/
def listed (v : StepView) : Stepping.Event → StepView
  | .zeroed _ f => { v with holes := holeLines f }
  | .refilled _ f => { v with holes := holeLines f }
  | .failed _ f =>
    { v with excluded := v.excluded ++
        [toString (v.excluded.length + 1) ++ ". " ++ Settings.render f] }
  | .succeeded _ => v.finish
  | .exhausted => v.finish
  | _ => v

/-- Shows what a step has brought after the next one is made. -/
def displayed (v : StepView) : Stepping.Event → StepView
  | .started p => { v with program := p }
  | .named p => { v with holesProgram := p }
  | .zeroed p _ => { v with program := p }
  | .refilled p _ => { v with program := p }
  | .succeeded p => { v with program := p }
  | .checked true => v.say
    ("Verification secceeded. The synthesized program will be presented in the 'Current program' "
      ++ "window") .green
  | .checked false => v.say "Verification failed" .brightRed
  | .failed c _ => v.say ("Counter example: " ++ Settings.render c) .yellow
  | .searching => v
  | .exhausted =>
    v.say "Couldn't find new holes - program is not solvable.\nFinish process." .brightRed

def complaint : Fault → String
  | .programNotValid => (Report.ofFault "" .programNotValid).error
  | .programHasNoHoles => (Report.ofFault "" .programHasNoHoles).error
  | .invalidVarName name => (Report.ofFault "" (.invalidVarName name)).error
  | f => Report.unexpected f

/-- Makes the next step, in which bounds are widened less often than the given number of times. -/
def nextWithin (rounds : Nat) (v : StepView) : StepView × Option Fault :=
  let listed := v.last.elim v v.listed
  let displayed := fun (w : StepView) => v.last.elim w w.displayed
  match listed.search with
  | .absent => (listed, some (.noAttribute "NoneType" "close"))
  | .closed => (displayed listed, none)
  | .running o phase =>
    match Stepping.advanceWithin rounds o phase with
    | .ok (.event e phase) =>
      let moved := { listed with search := .running o phase, last := some e }
      (displayed (moved.select (Stage.indexOf e.name)), none)
    | .ok (.final _) => (displayed { listed with search := .closed }, none)
    | .error f => (listed.finish.say (complaint f) .brightRed, none)

def pressNextWithin (rounds : Nat) (v : StepView) : StepView × Option Fault :=
  if v.enabled then v.nextWithin rounds else (v, none)

end StepView

end WhileSketch
