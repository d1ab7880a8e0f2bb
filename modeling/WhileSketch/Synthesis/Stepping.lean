import WhileSketch.Synthesis.Refinement

/-! The search for a filling, one step at a time. -/

namespace WhileSketch.Stepping

open Refinement

inductive Event where
  | started (program : String)
  | named (program : String)
  | zeroed (program : String) (filling : Holes.Filling)
  | checked (verified : Bool)
  | succeeded (program : String)
  | failed (counterexample : Settings) (filling : Holes.Filling)
  | searching
  | exhausted
  | refilled (program : String) (filling : Holes.Filling)

namespace Event

def name : Event → String
  | started _ => "State_0"
  | named _ => "State_1"
  | zeroed .. => "State_2"
  | checked _ => "State_3_1"
  | succeeded _ => "State_3_2"
  | failed .. => "State_3_3"
  | searching => "State_4_1"
  | exhausted => "State_4_2"
  | refilled .. => "State_5"

def description : Event → String
  | started _ => "Wait for initialization"
  | named _ => "Replace holes with variables"
  | zeroed .. => "Fill holes with zeroes"
  | checked _ => "Try to verify the program"
  | succeeded _ => "Verification succeeded, fill program with current holes"
  | failed .. => "Verification failed, show counter example"
  | searching => "Try to find new holes"
  | exhausted => "Couldn't find new holes"
  | refilled .. => "New holes found, Fill program with the new holes"

end Event

/-- Where a search by steps has stopped. -/
inductive Phase where
  | start
  | begun
  | named (p : Problem)
  | trying (p : Problem) (s : Refinement.State)
  | verified (p : Problem) (s : Refinement.State)
  | refuted (p : Problem) (s : Refinement.State) (counterexample : Settings)
  | refining (p : Problem) (s : Refinement.State)
  | exhausted (p : Problem) (s : Refinement.State)
  | searching (p : Problem) (s : Refinement.State)
  | finished (program : String)

inductive Progress where
  | event (e : Event) (next : Phase)
  | final (program : String)

/-- The first filling within bounds that are widened until there is one. -/
def nextFilling (p : Problem) :
    Nat → Refinement.State → Except Fault (Refinement.State × Holes.Filling)
  | 0, _ => .error .endless
  | fuel + 1, s => do
    match ← p.candidate? s true with
    | none => nextFilling p fuel s.widen
    | some f => return (s, f)

structure Order where
  solver : Solver
  session : Session
  spec : Specification
  limit : Int
  program : String

/-- The next step of a search, in which the bounds are widened less often than the given number of
times. A filling that has been tried just before is not tried again. -/
def advanceWithin (rounds : Nat) (o : Order) : Phase → Except Fault Progress
  | .start => .ok (.event (.started o.program) .begun)
  | .begun => do
    let sketch ← (Sketch.prepare o.session o.limit o.program).result
    return .event (.named sketch.text) (.named ⟨o.solver, o.spec, sketch⟩)
  | .named p =>
    let s := Refinement.State.initial p.sketch.holes
    .ok (.event (.zeroed (p.filled s.filling) s.filling) (.trying p s))
  | .trying p s => do
    match ← p.counterexample? s.filling with
    | none => return .event (.checked true) (.verified p s)
    | some c => return .event (.checked false) (.refuted p s c)
  | .verified p s => .ok (.event (.succeeded (p.filled s.filling)) (.finished (p.filled s.filling)))
  | .refuted p s c =>
    .ok (.event (.failed c s.filling) (.refining p (Problem.learn s c)))
  | .refining p s => do
    if (← p.candidate? s false).isNone then return .event .exhausted (.exhausted p s)
    else return .event .searching (.searching p s)
  | .exhausted p s => .ok (.event .searching (.searching p s))
  | .searching p s => do
    let (t, f) ← nextFilling p rounds s
    let next : Refinement.State := { t with filling := f }
    return .event (.refilled (p.filled f) f)
      (if f.same s.filling then .searching p next else .trying p next)
  | .finished program => .ok (.final program)

/-- How a search by steps ends: with a program, with a cause for failure, or before its end. -/
inductive Ending where
  | program (text : String)
  | fault (f : Fault)
  | open

/-- What a search shows in at most the given number of steps, and how it ends. It is left when no
filling can succeed. -/
def traceWithin (rounds : Nat) (o : Order) : Nat → Phase → List Event × Ending
  | 0, _ => ([], .open)
  | steps + 1, phase =>
    match advanceWithin rounds o phase with
    | .error f => ([], .fault f)
    | .ok (.final program) => ([], .program program)
    | .ok (.event .exhausted _) => ([.exhausted], .open)
    | .ok (.event e next) =>
      let (events, ending) := traceWithin rounds o steps next
      (e :: events, ending)

def trace : Order → Nat → Phase → List Event × Ending :=
  traceWithin Problem.maxRounds

end WhileSketch.Stepping
