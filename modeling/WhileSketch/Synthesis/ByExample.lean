import WhileSketch.Synthesis.Session

/-! Holes filled so that a program does what examples say. -/

namespace WhileSketch.ByExample

def post (spec : Specification) (r : Examples.Requirement) : Assertion := fun env => do
  Value.conj [← spec.post env, ← Examples.holds r.outputs env]

def goal (spec : Specification) (vars : List String) (unrolled : String)
    (r : Examples.Requirement) : Except Fault Value := do
  match ← While.parse (Sketch.assignments r.inputs ++ unrolled) with
  | none => throw .noTree
  | some t =>
    let weakest ← While.wp vars spec.invariant (While.Stmt.ofTree t) (post spec r)
    let env := Env.symbolic vars
    let before ← spec.pre env
    before.implies (← weakest env)

def synthesize (solver : Solver) (s : Session) (spec : Specification) (limit : Int)
    (program : String) : Except Fault String := do
  let t? ← While.parse program
  if s.tree?.isNone then throw .programNotValid
  let t ← match t? with
    | some t => pure t
    | none => throw .noTree
  let vars ← While.variableNames t
  if let some name := Holes.find? vars then throw (.invalidVarName name)
  let requirements ← (s.examples.requirements vars).result
  let (text, holes) := Holes.nameAll program
  if holes.isEmpty then throw .programHasNoHoles
  match ← While.parse text with
  | none => throw .programNotValid
  | some t =>
    let u ← While.unroll limit t
    let unrolled := (← While.print u).plain
    let task ← spec.task (some u)
    if (← task.satisfying? solver).isNone then throw .noInput
    if s.examples.inputs.isEmpty && s.examples.outputs.isEmpty then throw .noExamples
    let vars ← While.variableNames u
    let goals ← requirements.mapM (goal spec vars unrolled)
    match solver.model? (← (← Value.conj goals).toFormula) with
    | none => throw .notVerifiedForExamples
    | some m =>
      return Holes.fill (Holes.complete (m.filter fun (x, _) => Holes.isHole x) holes) text

def withExamples (s : Session) (inputs outputs : List Settings) : Except Fault Session := do
  let add := fun (e : Examples) (io : Settings × Settings) => e.addNamed s.vars io.1 io.2
  return { s with examples := ← ((inputs.zip outputs).foldlM add s.examples).result }

def complete (solver : Solver) (spec : Specification) (limit : Int) (inputs outputs : List Settings)
    (program : String) : Except Fault String := do
  let s ← withExamples (← (Session.ofProgram program).result) inputs outputs
  synthesize solver s spec limit program

/-- Whether a cause is a verdict on the program and the examples. -/
def isVerdict : Fault → Bool
  | .programNotValid | .invalidVarName _ | .programHasNoHoles | .noInput | .noExamples
  | .notVerifiedForExamples => true
  | _ => false

/-- The result of a synthesis, where a verdict against the program leaves an empty text. -/
def lenient : Except Fault String → Except Fault String
  | .error f => if isVerdict f then .ok "" else .error f
  | .ok s => .ok s

end WhileSketch.ByExample
