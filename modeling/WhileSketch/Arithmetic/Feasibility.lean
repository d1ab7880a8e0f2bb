import WhileSketch.Arithmetic.Linear

/-! Whole solutions of systems of linear equations and inequalities, by elimination of one unknown
after the other. -/

namespace WhileSketch

inductive Verdict (α : Type) where
  | sat (a : α)
  | unsat
  | unknown

namespace Verdict

variable {α β : Type}

def get? : Verdict α → Option α
  | sat a => some a
  | _ => none

def map (f : α → β) : Verdict α → Verdict β
  | sat a => sat (f a)
  | unsat => unsat
  | unknown => unknown

def first (ask : α → Verdict β) : List α → Verdict β
  | [] => unsat
  | q :: qs =>
    match ask q with
    | sat b => sat b
    | unsat => first ask qs
    | unknown =>
      match first ask qs with
      | sat b => sat b
      | _ => unknown

end Verdict

namespace Feasibility

/-- What is known of an equation or inequality after division by the common divisor of its
coefficients. -/
inductive Reduced where
  | holds
  | fails
  | depends (l : Linear)

/-- The inequality that an expression is not negative, in its sharpest form. -/
def reduceInequality (l : Linear) : Reduced :=
  let g : Int := Coefficients.gcd l.terms
  if g = 0 then if 0 ≤ l.const then .holds else .fails
  else .depends ⟨l.terms.map fun (x, a) => (x, a / g), l.const / g⟩

def reduceEquation (l : Linear) : Reduced :=
  let g : Int := Coefficients.gcd l.terms
  if g = 0 then if l.const = 0 then .holds else .fails
  else if l.const % g = 0 then .depends ⟨l.terms.map fun (x, a) => (x, a / g), l.const / g⟩
  else .fails

def insertInequality (l : Linear) : List Linear → List Linear
  | [] => [l]
  | k :: ks =>
    if k.terms = l.terms then (if l.const < k.const then l else k) :: ks
    else k :: insertInequality l ks

/-- The inequalities in their sharpest form, without those that always hold; nothing if one of them
never holds. -/
def reduceAll : List Linear → Option (List Linear)
  | [] => some []
  | l :: ls =>
    match reduceInequality l with
    | .holds => reduceAll ls
    | .fails => none
    | .depends l => (reduceAll ls).map (insertInequality l)

/-- What two inequalities say together that bound the same sum from below and from above. -/
inductive Squeeze where
  | empty
  | equation (l : Linear)

/-- An inequality of a list that meets another one at a point, or misses it. -/
def squeeze? : List Linear → Option Squeeze
  | [] => none
  | l :: ls =>
    let opposite := Coefficients.scale (-1) l.terms
    match ls.find? fun k => k.terms = opposite with
    | some k =>
      if l.const + k.const < 0 then some .empty
      else if l.const + k.const = 0 then some (.equation l)
      else squeeze? ls
    | none => squeeze? ls

def centredMod (a m : Int) : Int :=
  let r := a % m
  if 2 * r < m then r else r - m

/-- An expression for an unknown of an equation without unit coefficients, in which a new unknown
takes its place. -/
def splitUnknown (l : Linear) (x : Nat) (a : Int) (new : Nat) : Linear :=
  let m : Int := a.natAbs + 1
  let rest : Linear :=
    ⟨((Coefficients.erase l.terms x).map fun (y, b) => (y, centredMod b m)).filter (·.2 != 0),
      centredMod l.const m⟩
  (rest.add ((Linear.unknown new).scale (-m))).scale a.sign

def lesser (t : Nat × Int) : Option (Nat × Int) → Option (Nat × Int)
  | none => if t.2 = 0 then none else some t
  | some u => if t.2 = 0 || u.2.natAbs < t.2.natAbs then some u else some t

/-- The unknown with the least coefficient that is not zero, and this coefficient. -/
def leastTerm (xs : Coefficients) : Option (Nat × Int) :=
  (xs.map fun t => (t.1, Coefficients.get xs t.1)).foldr lesser none

def fresh (ls : List Linear) : Nat :=
  (ls.flatMap Linear.terms).foldr (fun t n => max n (t.1 + 1)) 0

/-- The inequalities that bound an unknown from below, those that bound it from above, and the
others. -/
def partitionAt (x : Nat) (ls : List Linear) : List Linear × List Linear × List Linear :=
  ls.foldr (fun l (low, high, rest) =>
    let a := Coefficients.get l.terms x
    if 0 < a then (l :: low, high, rest)
    else if a < 0 then (low, l :: high, rest)
    else (low, high, l :: rest)) ([], [], [])

/-- The consequence of a lower and an upper bound of an unknown. With `dark` set, it is sharp enough
to leave room for a whole value of the unknown. -/
def combine (x : Nat) (dark : Bool) (low high : Linear) : Linear :=
  let b := Coefficients.get low.terms x
  let a := -Coefficients.get high.terms x
  let sum := ((low.erase x).scale a).add ((high.erase x).scale b)
  if dark then { sum with const := sum.const - (a - 1) * (b - 1) } else sum

/-- Whether eliminating an unknown with the given bounds loses nothing. -/
def isExact (x : Nat) (low high : List Linear) : Bool :=
  low.all (fun l => Coefficients.get l.terms x == 1) ||
    high.all (fun l => Coefficients.get l.terms x == -1)

def chooseValue (x : Nat) (low high : List Linear) (m : Assignment) : Int :=
  let lows := low.map fun l =>
    -(Int.fdiv ((l.erase x).value m) (Coefficients.get l.terms x))
  let highs := high.map fun l =>
    Int.fdiv ((l.erase x).value m) (-Coefficients.get l.terms x)
  let atLeast := lows.foldl (fun v l => max v l) 0
  let atMost := highs.foldl (fun v h => min v h) atLeast
  lows.foldl (fun v l => max v l) atMost

def unknowns (ls : List Linear) : List Nat :=
  (ls.flatMap fun l => l.terms.map Prod.fst).eraseDups

/-- The unknown whose elimination costs least: exact eliminations come first, then those with few
consequences. -/
def chooseUnknown (ls : List Linear) : Option Nat :=
  let cost := fun x =>
    let (low, high, _) := partitionAt x ls
    (if low.isEmpty || high.isEmpty || isExact x low high then 0 else 1000000)
      + low.length * high.length
  let best := (unknowns ls).foldl (fun acc x =>
    let c := cost x
    match acc with
    | none => some (x, c)
    | some (_, d) => if c < d then some (x, c) else acc) none
  best.map Prod.fst

/-- The equations that cover the solutions between the two consequences of the bounds of an
unknown. -/
def splinters (x : Nat) (low high : List Linear) : List Linear :=
  let a := high.foldl (fun v l => max v (-Coefficients.get l.terms x)) 1
  low.flatMap fun l =>
    let b := Coefficients.get l.terms x
    (List.range ((a * b - a - b) / a + 1).toNat).map fun (i : Nat) =>
      { l with const := l.const - (i : Int) }

def extend (x : Nat) (v : Assignment → Int) : Verdict Assignment → Verdict Assignment :=
  Verdict.map fun m => (x, v m) :: m

def shadow (x : Nat) (dark : Bool) (low high rest : List Linear) : List Linear :=
  rest ++ low.flatMap fun l => high.map (combine x dark l)

/-- A solution of a system: expressions that are zero, and expressions that are not negative. -/
def solveWithin : Nat → List Linear → List Linear → Verdict Assignment
  | 0, _, _ => .unknown
  | fuel + 1, e :: es, ls =>
    match reduceEquation e with
    | .holds => solveWithin fuel es ls
    | .fails => .unsat
    | .depends e =>
      match leastTerm e.terms with
      | none => .unknown
      | some (x, a) =>
        if a.natAbs = 1 then
          let v := (e.erase x).scale (-a)
          extend x (v.value ·)
            (solveWithin fuel (es.map (Linear.substitute x v)) (ls.map (Linear.substitute x v)))
        else
          let v := splitUnknown e x a (fresh (e :: es ++ ls))
          extend x (v.value ·) (solveWithin fuel
            ((e :: es).map (Linear.substitute x v)) (ls.map (Linear.substitute x v)))
  | fuel + 1, [], ls =>
    match reduceAll ls with
    | none => .unsat
    | some ls =>
      match squeeze? ls with
      | some .empty => .unsat
      | some (.equation l) => solveWithin fuel [l] ls
      | none =>
        match chooseUnknown ls with
        | none => .sat []
        | some x =>
          let (low, high, rest) := partitionAt x ls
          if low.isEmpty || high.isEmpty || isExact x low high then
            extend x (chooseValue x low high) (solveWithin fuel [] (shadow x false low high rest))
          else
            match solveWithin fuel [] (shadow x true low high rest) with
            | .sat m => .sat ((x, chooseValue x low high m) :: m)
            | dark =>
              match solveWithin fuel [] (shadow x false low high rest) with
              | .unsat => .unsat
              | _ =>
                match dark, Verdict.first (fun e => solveWithin fuel [e] ls) (splinters x low high) with
                | .unknown, .unsat => .unknown
                | _, between => between

def maxDepth : Nat := 1000

def solve : List Linear → List Linear → Verdict Assignment :=
  solveWithin maxDepth

end Feasibility

end WhileSketch
