import WhileSketch.Logic.Condition
import WhileSketch.Logic.Decision
import WhileSketch.While.Syntax
import WhileSketch.While.Programs

/-! What must be true before a program so that an assertion is true after it. -/

namespace WhileSketch.While

def Expr.eval (env : Env) : Expr → Except Fault Value
  | var name => env.get name
  | num n => .ok (.int n)
  | operate op a b => do
    let v ← a.eval env
    Value.operate op v (← b.eval env)
  | invalid fault => .error fault

/-- The assertion that either the condition and the first assertion are true, or the first is false
and the second assertion is true. -/
def branch (c : Expr) (yes no : Assertion) : Assertion := fun env => do
  let left ← Value.conj [← c.eval env, ← yes env]
  let right ← Value.conj [← (← c.eval env).negate, ← no env]
  Value.disj [left, right]

/-- The weakest precondition of a statement, where all loops have one invariant, and the variables
of the whole program are given. The parts of a conditional and the body of a loop are looked at
only when the assertion is evaluated. -/
def wp (names : List String) (invariant : Assertion) : Stmt → Assertion → Except Fault Assertion
  | .skip, post => .ok post
  | .assign name e, post => .ok fun env => do post (env.set name (← e.eval env))
  | .seq a b, post => do wp names invariant a (← wp names invariant b post)
  | .ite c a b, post =>
    .ok (branch c (fun env => do (← wp names invariant a post) env)
      (fun env => do (← wp names invariant b post) env))
  | .step c a b, post =>
    .ok fun env => do
      let kept ← invariant env
      Value.conj [kept, ← branch c (fun env => do (← wp names invariant a post) env)
        (fun env => do (← wp names invariant b post) env) env]
  | .loop c body, post =>
    .ok fun env => do
      let kept ← invariant env
      let all := Env.symbolic names
      let entered ← Value.conj [← invariant all, ← c.eval all]
      let preserved ← entered.implies (← (← wp names invariant body invariant) all)
      let left ← Value.conj [← invariant all, ← (← c.eval all).negate]
      let sufficient ← left.implies (← post all)
      Value.conj [kept, ← Value.forAll names (← Value.conj [preserved, sufficient])]
  | .assert c, post => .ok fun env => do Value.conj [← c.eval env, ← post env]
  | .exit c, post => .ok fun env => do Value.conj [← (← c.eval env).negate, ← post env]
  | .invalid fault, _ => .error fault

structure Task where
  program : Tree Label
  pre : Assertion
  post : Assertion
  invariant : Assertion

namespace Task

def weakest (t : Task) : Except Fault (List String × Assertion) := do
  let names ← variableNames t.program
  return (names, ← wp names t.invariant (Stmt.ofTree t.program) t.post)

/-- The formula that is satisfied by the inputs for which the program fails. -/
def failure (t : Task) : Except Fault Formula := do
  let (names, weakest) ← t.weakest
  let env := Env.symbolic names
  let before ← t.pre env
  (← (← before.implies (← weakest env)).negate).toFormula

def success (t : Task) : Except Fault Formula := do
  let (names, weakest) ← t.weakest
  let env := Env.symbolic names
  let before ← t.pre env
  (← Value.conj [before, ← weakest env]).toFormula

/-- Values of the variables for which the program fails; if there are none, it is verified. -/
def counterexample? (solver : Solver) (t : Task) : Except Fault (Option Model) := do
  return solver.model? (← t.failure)

def satisfying? (solver : Solver) (t : Task) : Except Fault (Option Model) := do
  return solver.model? (← t.success)

end Task

end WhileSketch.While
