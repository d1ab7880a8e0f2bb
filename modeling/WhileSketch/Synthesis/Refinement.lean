import WhileSketch.Synthesis.Session

/-! Holes filled by a search that learns from inputs for which a filling fails. -/

namespace WhileSketch.Refinement

structure Problem where
  solver : Solver
  spec : Specification
  sketch : Sketch

/-- Where a search is: the filling to be tried, the fillings that have failed, the input for which
the last one failed, and the bounds for further ones. -/
structure State where
  filling : Holes.Filling
  excluded : List Holes.Filling
  counterexample : Settings
  low : Int
  high : Int

def State.initial (holes : List String) : State :=
  ⟨Holes.zeros holes, [], [], -5, 5⟩

def State.widen (s : State) : State :=
  { s with low := s.low - 20, high := s.high + 20 }

/-- The assertion that the last of the holes is within bounds, once for each hole. -/
def bounds (holes : List String) (low high : Int) : Assertion := fun env =>
  holes.foldlM (fun v _ => do
    let hole ← env.get (holes.getLastD "")
    let bounded ← Value.conj
      [← Value.operate .ge hole (.int low), ← Value.operate .le hole (.int high)]
    Value.conj [v, bounded]) (.bool true)

/-- The assertion that the holes have none of the excluded fillings. -/
def exclusion (excluded : List Holes.Filling) : Assertion := fun env =>
  excluded.foldlM (fun v f => do
    Value.conj [v, ← (← Examples.holds f env).negate]) (.bool true)

namespace Problem

def counterexample? (p : Problem) (f : Holes.Filling) : Except Fault (Option Settings) := do
  let t? ← While.parse (Holes.fill f p.sketch.unrolled)
  let task ← p.spec.task t?
  return (← task.counterexample? p.solver).map fun m => m.filter fun (x, _) => !Holes.isHole x

/-- The precondition, together with the condition that the holes have no excluded filling; with
`bounded` set, also that they are within the bounds. -/
def query (p : Problem) (s : State) (bounded : Bool) : Assertion := fun env => do
  let v ← p.spec.pre env
  let e ← exclusion s.excluded env
  if bounded then Value.conj [v, e, ← bounds p.sketch.holes s.low s.high env]
  else Value.conj [v, e]

/-- A filling that has not failed yet and with which the program succeeds on the last input for
which one failed; with `bounded` set, one within the bounds. -/
def candidate? (p : Problem) (s : State) (bounded : Bool) :
    Except Fault (Option Holes.Filling) := do
  let t? ← While.parse (Sketch.assignments s.counterexample ++ p.sketch.unrolled)
  let task ← Specification.task { p.spec with pre := p.query s bounded } t?
  return (← task.satisfying? p.solver).map fun m =>
    Holes.complete (m.filter fun (x, _) => Holes.isHole x) p.sketch.holes

def filled (p : Problem) (f : Holes.Filling) : String :=
  Holes.fill f p.sketch.text

def learn (s : State) (counterexample : Settings) : State :=
  { s with counterexample := counterexample, excluded := s.excluded ++ [s.filling] }

/-- The program that a search leads to. In a `retry` the filling has failed already, and there is
none within the bounds of the round before. -/
def runWithin (p : Problem) : Nat → Bool → State → Except Fault String
  | 0, _, _ => .error .endless
  | fuel + 1, retry, s => do
    let tried ← if retry then pure (some s) else do
      pure ((← p.counterexample? s.filling).map (learn s))
    match tried with
    | none => return p.filled s.filling
    | some s =>
      if retry then
        if (← p.candidate? s false).isNone then throw .notVerified
      match ← p.candidate? s true with
      | none => p.runWithin fuel true s.widen
      | some f => p.runWithin fuel (f.same s.filling) { s with filling := f }

/-- The number of rounds after which a search is given up. -/
def maxRounds : Nat := 100000

end Problem

def synthesizeWithin (rounds : Nat) (solver : Solver) (s : Session) (spec : Specification)
    (limit : Int) (program : String) : Except Fault String := do
  let sketch ← (Sketch.prepare s limit program).result
  Problem.runWithin ⟨solver, spec, sketch⟩ rounds false (.initial sketch.holes)

def synthesize : Solver → Session → Specification → Int → String → Except Fault String :=
  synthesizeWithin Problem.maxRounds

def complete (solver : Solver) (spec : Specification) (limit : Int) (program : String) :
    Except Fault String := do
  synthesize solver (← (Session.ofProgram program).result) spec limit program

end WhileSketch.Refinement
