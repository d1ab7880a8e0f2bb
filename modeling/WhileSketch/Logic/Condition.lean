import WhileSketch.Logic.Value

/-! Environments, and conditions on them. -/

namespace WhileSketch

abbrev Env := String → Option Value

namespace Env

def get (env : Env) (name : String) : Except Fault Value :=
  match env name with
  | some v => .ok v
  | none => .error (.noSuchKey (Text.quoted name))

def set (env : Env) (name : String) (v : Value) : Env :=
  fun x => if x = name then some v else env x

/-- The environment in which each of the given variables stands for itself. -/
def symbolic (names : List String) : Env :=
  fun x => if names.contains x then some (.term (.var x)) else none

end Env

/-- A value that depends on the values of variables. -/
abbrev Assertion := Env → Except Fault Value

def Assertion.trivial : Assertion := fun _ => .ok (.bool true)

inductive Condition where
  | bool (b : Bool)
  | int (n : Int)
  | var (name : String)
  | all (cs : List Condition)
  | any (cs : List Condition)
  | not (c : Condition)
  | implies (a b : Condition)
  | operate (op : Operator) (a b : Condition)
  deriving Inhabited

namespace Condition

mutual

def eval : Condition → Assertion
  | bool b, _ => .ok (.bool b)
  | int n, _ => .ok (.int n)
  | var name, env => env.get name
  | all cs, env => do Value.conj (← evalEach cs env)
  | any cs, env => do Value.disj (← evalEach cs env)
  | not c, env => do (← c.eval env).negate
  | implies a b, env => do
    let v ← a.eval env
    v.implies (← b.eval env)
  | operate op a b, env => do
    let v ← a.eval env
    Value.operate op v (← b.eval env)

def evalEach : List Condition → Env → Except Fault (List Value)
  | [], _ => .ok []
  | c :: cs, env => do
    let v ← c.eval env
    return v :: (← evalEach cs env)

end

mutual

def render : Condition → String
  | bool b => if b then "(True)" else "(False)"
  | int n => "(" ++ toString n ++ ")"
  | var name => "d[" ++ Text.quoted name ++ "]"
  | all cs => "And(" ++ renderEach cs ++ ")"
  | any cs => "Or(" ++ renderEach cs ++ ")"
  | not c => "Not(" ++ c.render ++ ")"
  | implies a b => "Implies(" ++ a.render ++ ", " ++ b.render ++ ")"
  | operate op a b => "(" ++ a.render ++ " " ++ op.sign ++ " " ++ b.render ++ ")"

def renderEach : List Condition → String
  | [] => ""
  | [c] => c.render
  | c :: cs => c.render ++ ", " ++ renderEach cs

end

end Condition

def Assertion.ofCondition : Option Condition → Assertion
  | some c => c.eval
  | none => trivial

end WhileSketch
