import WhileSketch.Window.Report

/-! Programs with conditions that they satisfy. -/

namespace WhileSketch

structure Sample where
  program : String
  pre : Condition
  post : Condition
  invariant : Condition

namespace Sample

def report (solver : Solver) (s : Sample) : Except Fault String := do
  return (← Verification.report solver ⟨s.pre.eval, s.post.eval, s.invariant.eval⟩ s.program)
    ++ "\n"

def compare (op : Operator) (x : String) (n : Int) : Condition :=
  .operate op (.var x) (.int n)

def equal (x y : String) : Condition :=
  .operate .eq (.var x) (.var y)

/-- The greatest common divisor of three and six by subtraction. -/
def divisor : Sample where
  program := "z := x ; a := 3 ; b := 6 ; "
    ++ "while a != b do if a > b then a := a - b else b := b - a"
  pre := .all [.bool true, compare .eq "x" 1]
  post := .all [compare .gt "a" 0, equal "a" "b"]
  invariant := .all [compare .gt "a" 0, compare .gt "b" 0]

def counters : Sample where
  program := "a := b ; while i < n do (a := a + 1 ; b := b + 1)"
  pre := .bool true
  post := .all [equal "a" "b", .operate .ge (.var "i") (.var "n")]
  invariant := equal "a" "b"

def sum : Sample where
  program := "y := 0 ; while y < i do "
    ++ "(x := x + y ; if (x * y) < 10 then y := y + 1 else skip)"
  pre := compare .gt "x" 0
  post := compare .gt "x" 0
  invariant := .all [compare .ge "y" 0, compare .gt "x" 0]

/-- The greatest common divisor of two positive numbers by subtraction. -/
def subtraction : Sample where
  program := "while a != b do if a > b then a := a - b else b := b - a"
  pre := .all [compare .gt "a" 0, compare .gt "b" 0]
  post := .all [compare .gt "a" 0, equal "a" "b"]
  invariant := compare .gt "a" 0

end Sample

end WhileSketch
