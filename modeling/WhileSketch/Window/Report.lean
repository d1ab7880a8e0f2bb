import WhileSketch.Synthesis.ByExample
import WhileSketch.Synthesis.Refinement
import WhileSketch.Window.Widget

/-! What is said about the end of a synthesis or a verification. -/

namespace WhileSketch

/-- The end of a synthesis as it is shown: a program, something that went wrong, or both. -/
structure Report where
  output : String
  error : String

namespace Report

def unexpected (f : Fault) : String :=
  "An unexpected error occurred: " ++ f.message

/-- What is said about a cause that a synthesis of either kind may have, and the program to show
with it. -/
def ofFault (program : String) : Fault → Report
  | .programNotValid => ⟨"", "Error: The given program can't be parsed"⟩
  | .programHasNoHoles =>
    ⟨program, "Message: Program has no holes. You can try to verify your program."⟩
  | .invalidVarName name =>
    ⟨"", "Error: Invalid variable name: " ++ name ++ ".\nPlease use valid variable names which "
      ++ "are not of the form 'hole_x', where x is a number."⟩
  | f => ⟨"", unexpected f⟩

def isUnverified : Fault → Bool
  | .notVerified | .notVerifiedForExamples => true
  | _ => false

def ofRefinement (program : String) : Except Fault String → Report
  | .ok s => ⟨s, ""⟩
  | .error f =>
    if isUnverified f then
      ⟨"", "Error: The program can't be verified for all possible inputs. If this is not the "
        ++ "excpected outcome:\n 1. Try increasing the loop unrolling limit.\n2. Check if the "
        ++ "loop invariant is correct.\n3. Check if the pre-condition and post-condition are "
        ++ "correct."⟩
    else ofFault program f

def ofExamples (program : String) : Except Fault String → Report
  | .ok s => ⟨s, ""⟩
  | .error .noExamples =>
    ⟨"", "Error: No input-output examples has been provided. Please set examples and then "
      ++ "synthesize.\nFor synthesizing without examples, use the CEGIS tab."⟩
  | .error f =>
    if isUnverified f then
      ⟨"", "Error: The program can't be verified for the given input-output examples. If this is "
        ++ "not the excpected outcome:\n1. Try increasing the loop unrolling limit.\n2. Check if "
        ++ "the loop invariant is correct.\n3. Check if the post-condition is correct.\n4. Check "
        ++ "that the examples do not contradict each other."⟩
    else ofFault program f

end Report

namespace Verification

def counterexample? (solver : Solver) (spec : Specification) (program : String) :
    Except Fault (Option Model) := do
  (← spec.task (← While.parse program)).counterexample? solver

def report (solver : Solver) (spec : Specification) (program : String) : Except Fault String := do
  match ← counterexample? solver spec program with
  | none => return ">> The program is verified."
  | some m => return ">> The program is NOT verified.\nCounterexample: " ++ Model.render m

def notice (solver : Solver) (spec : Specification) : Option String → Notice
  | none => .failure (Report.unexpected .noText)
  | some program =>
    match report solver spec program with
    | .ok s => .success s
    | .error f => .failure (Report.unexpected f)

end Verification

end WhileSketch
