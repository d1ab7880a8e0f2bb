import WhileSketch.Synthesis.Examples
import WhileSketch.Synthesis.Holes
import WhileSketch.While.Programs
import WhileSketch.While.Parsing
import WhileSketch.While.Printing
import WhileSketch.While.WeakestPrecondition

/-! A program that is to be completed, and the checks it has to pass first. -/

namespace WhileSketch

/-- The conditions on a program: what holds before it, after it, and in each round of a loop. -/
structure Specification where
  pre : Assertion
  post : Assertion
  invariant : Assertion

def Specification.task (s : Specification) : Option (Tree Label) → Except Fault While.Task
  | some t => .ok ⟨t, s.pre, s.post, s.invariant⟩
  | none => .error .noTree

structure Session where
  tree? : Option (Tree Label)
  vars : List String
  examples : Examples

namespace Session

def ofProgram (program : String) : Transcript Session := do
  match ← While.parse program with
  | none =>
    Transcript.say "Error: Invalid program"
    return ⟨none, [], .empty⟩
  | some t => return ⟨some t, ← While.variableNames t, .empty⟩

def verify (solver : Solver) (s : Session) (spec : Specification) : Transcript Unit := do
  match s.tree? with
  | none => pure ()
  | some t =>
    match ← (← spec.task (some t)).counterexample? solver with
    | none => Transcript.say ">> The program is verified."
    | some m =>
      Transcript.say ">> The program is Not verified."
      Transcript.say ("Counterexample:  " ++ Model.render m)

end Session

structure Sketch where
  holes : List String
  text : String
  /-- The text of the program with its loops unrolled. -/
  unrolled : String

namespace Sketch

def removeAssertions (program : String) : Transcript (Option String) := do
  match ← While.parse program with
  | none => return none
  | some t =>
    let u := While.withoutAssertions t
    Transcript.say ("ast_old: " ++ t.plain)
    Transcript.say ("ast_new: " ++ (u.map Tree.plain).getD "None")
    u.mapM fun u => do return (← While.print u).plain

def parseUnrolled (limit : Int) (program : String) : Transcript (Option (Tree Label)) := do
  match ← While.parse program with
  | none => return none
  | some t =>
    let u ← While.unroll limit t
    Transcript.say u.plain
    return some u

/-- Makes sure that the program of the session and the given one can be parsed, that something is
left of it without assertions, and that no variable has the name of a hole. -/
def check (s : Session) (program : String) : Transcript Unit := do
  let t? ← While.parse program
  if s.tree?.isNone then throw .programNotValid
  let bare ← removeAssertions program
  Transcript.say ("program_without_assertions:  " ++ bare.getD "None")
  match bare with
  | none => throw .programNotValid
  | some bare =>
    if (← While.parse bare).isNone then throw .programNotValid
  let t ← match t? with
    | some t => pure t
    | none => throw .noTree
  let vars ← While.variableNames t
  Transcript.say ("Pvars:  " ++ Text.quotedList vars)
  if let some name := Holes.find? vars then
    Transcript.say "Error: Invalid variable name: \x7bholes_vars_check\x7d"
    throw (.invalidVarName name)

/-- Gives names to the holes of a program that passes the checks, if it has holes. -/
def prepare (s : Session) (limit : Int) (program : String) : Transcript Sketch := do
  check s program
  let (text, holes) := Holes.nameAll program
  Transcript.say ("holessss:  " ++ Text.quotedList holes)
  if holes.isEmpty then throw .programHasNoHoles
  if (← While.parse text).isNone then throw .programNotValid
  match ← parseUnrolled limit text with
  | none => throw .programNotValid
  | some u =>
    let unrolled := (← While.print u).plain
    Transcript.say ("program_holes_unrolled: \n" ++ unrolled ++ "\n")
    return ⟨holes, text, unrolled⟩

def fillZeros (holes : List String) (text : String) : Transcript (String × Holes.Filling) := do
  Transcript.say ("hole to fill with zeroes:  " ++ Text.quotedList holes)
  Transcript.say ("program:  " ++ text)
  let f := Holes.zeros holes
  return (Holes.fill f text, f)

def assignments (settings : Settings) : String :=
  String.join (settings.map fun (x, n) => x ++ " := " ++ toString n ++ " ; ")

end Sketch

end WhileSketch
