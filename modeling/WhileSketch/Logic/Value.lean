import WhileSketch.Fault
import WhileSketch.Logic.Formula

/-! Values of expressions: known numbers and truth values, terms and formulas. -/

namespace WhileSketch

inductive Value where
  | int (n : Int)
  | bool (b : Bool)
  | term (t : Term)
  | formula (f : Formula)
  deriving Inhabited

inductive Operator where
  | add
  | sub
  | mul
  | div
  | eq
  | ne
  | lt
  | le
  | gt
  | ge
  deriving DecidableEq

namespace Operator

def sign : Operator → String
  | add => "+"
  | sub => "-"
  | mul => "*"
  | div => "//"
  | eq => "=="
  | ne => "!="
  | lt => "<"
  | le => "<="
  | gt => ">"
  | ge => ">="

def programSign : Operator → String
  | div => "/"
  | eq => "="
  | op => op.sign

def every : List Operator :=
  [add, sub, mul, div, eq, ne, lt, le, gt, ge]

def ofSign? (s : String) : Option Operator :=
  every.find? (·.sign == s)

def ofProgramSign? (s : String) : Option Operator :=
  every.find? (·.programSign == s)

end Operator

namespace Value

def kind : Value → Kind
  | int _ => .int
  | bool _ => .bool
  | term _ => .intTerm
  | formula _ => .boolTerm

def render : Value → String
  | int n => toString n
  | bool b => toString b
  | term t => t.render
  | formula f => f.render

/-- The number of a known value, where truth counts one. -/
def known? : Value → Option Int
  | int n => some n
  | bool b => some (if b then 1 else 0)
  | term _ => none
  | formula _ => none

def toTerm : Value → Term
  | int n => .lit n
  | bool b => .lit (if b then 1 else 0)
  | term t => t
  | formula f => .ite f (.lit 1) (.lit 0)

/-- The result of an operator on known numbers; division goes down to the next whole number. -/
def operateKnown (m n : Int) : Operator → Except Fault Value
  | .add => .ok (int (m + n))
  | .sub => .ok (int (m - n))
  | .mul => .ok (int (m * n))
  | .div => if n = 0 then .error .divisionByZero else .ok (int (m.fdiv n))
  | .eq => .ok (bool (m == n))
  | .ne => .ok (bool (m != n))
  | .lt => .ok (bool (m < n))
  | .le => .ok (bool (m ≤ n))
  | .gt => .ok (bool (m > n))
  | .ge => .ok (bool (m ≥ n))

def scale (f : Formula) (n : Int) : Value :=
  if n = 1 then formula f else if n = 0 then int 0 else term (.ite f (.lit n) (.lit 0))

def multiply : Value → Value → Except Fault Value
  | term t, formula f => .ok (term (.ite f t (.lit 0)))
  | formula f, term t => .ok (term (.ite f t (.lit 0)))
  | formula _, formula _ => .error (.notBool 1)
  | formula f, int n => .ok (scale f n)
  | formula f, bool b => .ok (scale f (if b then 1 else 0))
  | int n, formula f => .ok (scale f n)
  | bool b, formula f => .ok (scale f (if b then 1 else 0))
  | a, b => .ok (term (.mul a.toTerm b.toTerm))

/-- Whether two values are equal, or whether they differ. A term or formula goes to the left of a
known value. -/
def compareEqual (equal : Bool) (a b : Value) : Except Fault Value :=
  let terms := fun a b => .ok (formula (if equal then .eq a b else .ne a b))
  let formulas := fun f g => .ok (formula (if equal then .same f g else .differ f g))
  match a, b with
  | int m, term t => terms t (.lit m)
  | bool m, term t => terms t (.lit (if m then 1 else 0))
  | term t, b => terms t b.toTerm
  | formula f, term t => terms (Value.toTerm (formula f)) t
  | formula f, formula g => formulas f g
  | formula f, bool b => formulas f (.lit b)
  | bool b, formula f => formulas f (.lit b)
  | formula _, int n => .error (.notBool n)
  | int n, formula _ => .error (.notBool n)
  | int m, int n => .ok (bool ((m == n) == equal))
  | int m, bool n => .ok (bool ((m == if n then 1 else 0) == equal))
  | bool m, int n => .ok (bool (((if m then 1 else 0) == n) == equal))
  | bool m, bool n => .ok (bool ((m == n) == equal))

/-- The comparison that an ordering operator makes of two terms, and the one with its sides
exchanged. -/
def orderings : Operator → Option ((Term → Term → Formula) × (Term → Term → Formula))
  | .lt => some (.lt, .gt)
  | .le => some (.le, .ge)
  | .gt => some (.gt, .lt)
  | .ge => some (.ge, .le)
  | _ => none

def operate (op : Operator) (a b : Value) : Except Fault Value :=
  match a.known?, b.known? with
  | some m, some n => operateKnown m n op
  | _, _ =>
    match op with
    | .mul => multiply a b
    | .eq => compareEqual true a b
    | .ne => compareEqual false a b
    | .div => .error (.noArith op.sign a.kind b.kind)
    | .add | .sub =>
      let combine := if op = .add then Term.add else Term.sub
      match a, b with
      | term s, b => .ok (term (combine s b.toTerm))
      | a, term t => .ok (term (combine a.toTerm t))
      | _, _ => .error (.noArith op.sign a.kind b.kind)
    | op =>
      match orderings op, a, b with
      | some (straight, _), term s, b => .ok (formula (straight s b.toTerm))
      | some (_, exchanged), a, term t => .ok (formula (exchanged t a.toTerm))
      | _, _, _ => .error (.noCompare op.sign a.kind b.kind)

def toFormula : Value → Except Fault Formula
  | bool b => .ok (.lit b)
  | formula f => .ok f
  | int n => .error (.notBool n)
  | term _ => .error .termNotBool

def parts (connective : String) (vs : List Value) : Except Fault (List Formula) :=
  let someTerm := vs.any fun | term _ => true | _ => false
  let someFormula := vs.any fun | formula _ => true | _ => false
  let someInt := vs.any fun | int _ => true | _ => false
  if someTerm || (someInt && !someFormula) then .error (.sortMismatch connective)
  else vs.mapM toFormula

def conj (vs : List Value) : Except Fault Value := do
  return formula (.all (← parts "and" vs))

def disj (vs : List Value) : Except Fault Value := do
  return formula (.any (← parts "or" vs))

def negate (v : Value) : Except Fault Value := do
  return formula (.not (← v.toFormula))

def implies (v w : Value) : Except Fault Value := do
  let f ← v.toFormula
  return formula (.implies f (← w.toFormula))

def forAll (names : List String) (v : Value) : Except Fault Value :=
  if names.isEmpty then .error .noBoundVars
  else do return formula (.forAll names (← v.toFormula))

def constant? : Value → Option String
  | int n => some (toString n)
  | bool b => some (toString b)
  | term t =>
    if t.isQuantified || !(t.addVars []).isEmpty then none else some (toString (t.value fun _ => 0))
  | formula f =>
    if f.isQuantified || !f.vars.isEmpty then none else some (toString (f.test fun _ => 0))

end Value

end WhileSketch
