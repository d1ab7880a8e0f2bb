import WhileSketch.Logic.Search

/-! Formulas decided: values of the variables that make a formula true. -/

namespace WhileSketch

abbrev Model := List (String × Int)

/-- The value of a variable in a model; variables that are not listed have the value zero. -/
def Model.value (m : Model) (name : String) : Int :=
  (m.lookup name).getD 0

def Model.render (m : Model) : String :=
  "[" ++ ", ".intercalate (m.map fun (x, n) => x ++ " = " ++ toString n) ++ "]"

/-- A way to find values of the variables of a formula that make it true, if there are any. -/
structure Solver where
  model? : Formula → Option Model

mutual

def Term.size : Term → Nat
  | .var _ => 1
  | .lit _ => 1
  | .add a b => a.size + b.size + 1
  | .sub a b => a.size + b.size + 1
  | .mul a b => a.size + b.size + 1
  | .ite c a b => c.size + a.size + b.size + 1

def Formula.size : Formula → Nat
  | .lit _ => 1
  | .all fs => Formula.sizeEach fs + 1
  | .any fs => Formula.sizeEach fs + 1
  | .not f => f.size + 1
  | .implies f g => f.size + g.size + 1
  | .eq a b => a.size + b.size + 1
  | .ne a b => a.size + b.size + 1
  | .lt a b => a.size + b.size + 1
  | .le a b => a.size + b.size + 1
  | .gt a b => a.size + b.size + 1
  | .ge a b => a.size + b.size + 1
  | .same f g => f.size + g.size + 1
  | .differ f g => f.size + g.size + 1
  | .forAll _ body => body.size + 1

def Formula.sizeEach : List Formula → Nat
  | [] => 0
  | f :: fs => f.size + Formula.sizeEach fs

end

mutual

def Term.close? (validity? : Formula → Option Bool) : Term → Option Term
  | .var name => return .var name
  | .lit n => return .lit n
  | .add a b => return .add (← a.close? validity?) (← b.close? validity?)
  | .sub a b => return .sub (← a.close? validity?) (← b.close? validity?)
  | .mul a b => return .mul (← a.close? validity?) (← b.close? validity?)
  | .ite c a b =>
    return .ite (← c.close? validity?) (← a.close? validity?) (← b.close? validity?)

/-- A formula in which the formulas about all values of variables are decided by `validity?`, the
innermost ones first, if it decides them. They must have no other variables. -/
def Formula.close? (validity? : Formula → Option Bool) : Formula → Option Formula
  | .lit b => return .lit b
  | .all fs => return .all (← Formula.closeEach? validity? fs)
  | .any fs => return .any (← Formula.closeEach? validity? fs)
  | .not f => return .not (← f.close? validity?)
  | .implies f g => return .implies (← f.close? validity?) (← g.close? validity?)
  | .eq a b => return .eq (← a.close? validity?) (← b.close? validity?)
  | .ne a b => return .ne (← a.close? validity?) (← b.close? validity?)
  | .lt a b => return .lt (← a.close? validity?) (← b.close? validity?)
  | .le a b => return .le (← a.close? validity?) (← b.close? validity?)
  | .gt a b => return .gt (← a.close? validity?) (← b.close? validity?)
  | .ge a b => return .ge (← a.close? validity?) (← b.close? validity?)
  | .same f g => return .same (← f.close? validity?) (← g.close? validity?)
  | .differ f g => return .differ (← f.close? validity?) (← g.close? validity?)
  | .forAll names body => do
    let body ← body.close? validity?
    if body.vars.all names.contains then return .lit (← validity? body) else none

def Formula.closeEach? (validity? : Formula → Option Bool) : List Formula → Option (List Formula)
  | [] => return []
  | f :: fs => return (← f.close? validity?) :: (← Formula.closeEach? validity? fs)

end

mutual

def Term.factor? (u : Unknowns) : Term → Option Nat
  | .var _ => none
  | .lit _ => none
  | .add a b => (a.factor? u).or (b.factor? u)
  | .sub a b => (a.factor? u).or (b.factor? u)
  | .mul a b =>
    ((a.factor? u).or (b.factor? u)).or
      ((Term.polynomials u (.mul a b)).options.findSome? fun o => Polynomial.factor? o.2)
  | .ite c a b => ((c.factor? u).or (a.factor? u)).or (b.factor? u)

def Formula.factor? (u : Unknowns) : Formula → Option Nat
  | .lit _ => none
  | .all fs => Formula.factorEach? u fs
  | .any fs => Formula.factorEach? u fs
  | .not f => f.factor? u
  | .implies f g => (f.factor? u).or (g.factor? u)
  | .eq a b => (a.factor? u).or (b.factor? u)
  | .ne a b => (a.factor? u).or (b.factor? u)
  | .lt a b => (a.factor? u).or (b.factor? u)
  | .le a b => (a.factor? u).or (b.factor? u)
  | .gt a b => (a.factor? u).or (b.factor? u)
  | .ge a b => (a.factor? u).or (b.factor? u)
  | .same f g => (f.factor? u).or (g.factor? u)
  | .differ f g => (f.factor? u).or (g.factor? u)
  | .forAll _ _ => none

def Formula.factorEach? (u : Unknowns) : List Formula → Option Nat
  | [] => none
  | f :: fs => (f.factor? u).or (Formula.factorEach? u fs)

end

namespace Decision

def toModel (u : Unknowns) (m : Assignment) : Model :=
  u.names.zipIdx.map fun (name, x) => (name, ((u.fixed ++ m).lookup x).getD 0)

/-- The values that are tried for an unknown that is multiplied with others. -/
def trials : List Int :=
  0 :: (List.range 12).flatMap fun (i : Nat) => [(i : Int) + 1, -((i : Int) + 1)]

/-- Values of the unknowns for which a formula without quantifiers is true. Products of unknowns
are first taken for unknowns of their own; if that does not settle the matter, small values are
tried for their factors, as many as the first argument allows. -/
def findWithin : Nat → Unknowns → Formula → Verdict Assignment
  | 0, _, _ => .unknown
  | fuel + 1, u, f =>
    match Search.searchWithin u (6 * f.size + 6) .empty none [.formula f true] [] with
    | .unsat => .unsat
    | .unknown => .unknown
    | .sat m =>
      if f.test (toModel u m).value then .sat (u.fixed ++ m)
      else match f.factor? u with
        | none => .unknown
        | some x =>
          match Verdict.first
              (fun n => findWithin fuel { u with fixed := (x, n) :: u.fixed } f) trials with
          | .sat m => .sat m
          | _ => .unknown

/-- Values of the variables for which a formula without quantifiers is true. The variables are
numbered in the order in which they occur, so that an equation is solved for the first of them. -/
def find (f : Formula) : Verdict Model :=
  let u : Unknowns := ⟨f.vars.reverse, []⟩
  (findWithin (u.count + 1) u f).map (toModel u)

def validity? (f : Formula) : Option Bool :=
  match find (.not f) with
  | .sat _ => some false
  | .unsat => some true
  | .unknown => none

def check (f : Formula) : Verdict Model :=
  match f.close? validity? with
  | some g => (find g).map fun m => f.vars.reverse.map fun name => (name, m.value name)
  | none => .unknown

def solver : Solver where
  model? f := (check f).get?

end Decision

end WhileSketch
