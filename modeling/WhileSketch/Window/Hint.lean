import WhileSketch.Fault

/-! Hints that appear while the pointer is over a part of a window. -/

namespace WhileSketch

/-- The parts that have hints: in the main window, in the table of examples, in a row of that
table, in the window of a search. -/
inductive HintOwner where
  | application (label : String)
  | table (label : String)
  | row (id : Nat)
  | steps (label : String)
  deriving DecidableEq

namespace HintOwner

def isInTable : HintOwner → Bool
  | table _ | row _ => true
  | _ => false

def isInSteps : HintOwner → Bool
  | steps _ => true
  | _ => false

end HintOwner

namespace Hint

def ofApplication : List (String × String) := [
  ("Set Conditions (P, Q, Linv)",
    "Click to open a window where you can set P, Q, and Loop Invariant (Linv) conditions."),
  ("Set Examples",
    "Click to open a window where you can set input-output examples to synthesize the program "
      ++ "with.\nNote:\tYou will need to enter a valid program first."),
  ("Synthesize with PBE",
    "Click to synthesize the program using the provided input-output examples and Conditions."),
  ("Verify output Program",
    "Click to verify the output program using the provided Conditions.\nNote: assertions will not "
      ++ "take place during the verification process"),
  ("Synthesize with CEGIS", "Click to synthesize the program using the provided Conditions."),
  ("Interactive",
    "Check to enable interactive mode. In this mode, you can step through the synthesis process.")]

def ofTable : List (String × String) := [
  ("Add Example",
    "Click to create a new input-output example to the list below, which can be modified or "
      ++ "deleted."),
  ("Save Examples", "Click to save the input-output examples below.")]

def ofRow : String × String :=
  ("Delete", "Click to delete this input-output example from the list..")

def ofSteps : List (String × String) := [
  ("States:",
    "Shows the different states in the synthesis process.\nYou can select a state to see its "
      ++ "details in the description box.\nCurrent state is highlighted in blue, and in yellow in "
      ++ "case you have selected a different state."),
  ("State description:",
    "Shows a description of the current state in the synthesis process.\nYou can also select a "
      ++ "step to see its details here."),
  ("Excluded holes combinations:",
    "Shows the holes which are excluded from the synthesis process, after a verification failure."),
  ("Current holes values:",
    "Shows the current holes assignments which are being used in the synthesis process."),
  ("Next step", "Click to execute the current selected step in the synthesis process."),
  ("Abort", "Click to abort the synthesis process."),
  ("Current program:",
    "Shows the current program in the synthesis process. it may contain holes ('??'), or filled "
      ++ "holes."),
  ("Holes program:", "Shows the program after replacing holes ('??') with holes variables."),
  ("Messages:",
    "Shows different messages\\errors, which are generated after a step execution.")]

end Hint

/-- The hints that can be seen, oldest first, and the parts that the pointer has visited. -/
structure Hints where
  /-- The part, the text, and whether it goes when the pointer leaves the part. -/
  visible : List (HintOwner × String × Bool)
  visited : List HintOwner

namespace Hints

def empty : Hints := ⟨[], []⟩

def texts (h : Hints) : List String :=
  h.visible.map fun (_, text, _) => text

/-- The pointer comes over a part. A hint that is there already stays for good. -/
def enter (h : Hints) (owner : HintOwner) (text : String) : Hints where
  visible := (h.visible.map fun (o, s, goes) => (o, s, goes && o ≠ owner)) ++ [(owner, text, true)]
  visited := owner :: h.visited

/-- The pointer leaves a part, which it must have come over before. -/
def leave (h : Hints) (owner : HintOwner) : Except Fault Hints :=
  if h.visited.contains owner then
    .ok { h with visible := h.visible.filter fun (o, _, goes) => !(goes && o = owner) }
  else .error (.noAttribute "CreateToolTip" "tooltip_id")

def without (h : Hints) (gone : HintOwner → Bool) : Hints :=
  ⟨h.visible.filter fun (o, _) => !gone o, h.visited.filter fun o => !gone o⟩

end Hints

end WhileSketch
