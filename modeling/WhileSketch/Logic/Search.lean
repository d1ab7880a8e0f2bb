import WhileSketch.Logic.Bounds
import WhileSketch.Logic.Polynomial

/-! Search for values of unknowns that satisfy a formula, by cases. -/

namespace WhileSketch.Search

inductive Goal where
  | fact (f : Fact)
  | formula (f : Formula) (b : Bool)

abbrev Alternative := List Goal

inductive Step where
  | decided (b : Bool)
  | fact (f : Fact)
  | every (gs : List Goal)
  | some (as : List Alternative)

def stepClaims : Cases Claim → Step
  | .one (.decided b) => .decided b
  | .one (.fact f) => .fact f
  | cases => .some (cases.options.filterMap fun o =>
      let guards := o.1.map fun c => Goal.formula c.1 c.2
      match o.2 with
      | .decided true => Option.some guards
      | .decided false => none
      | .fact f => Option.some (guards ++ [.fact f]))

def compareTerms (u : Unknowns) (a b : Term) (offset : Int) (r : Relation) : Step :=
  stepClaims (((a.sub b).polynomials u).map fun p =>
    Claim.ofLinear ((p.toLinear u.count).add (.ofInt offset)) r)

def stepFormula (u : Unknowns) : Formula → Bool → Step
  | .lit b, v => .decided (b == v)
  | .all fs, true => .every (fs.map (.formula · true))
  | .all fs, false => .some (fs.map fun f => [.formula f false])
  | .any fs, true => .some (fs.map fun f => [.formula f true])
  | .any fs, false => .every (fs.map (.formula · false))
  | .not f, v => .every [.formula f !v]
  | .implies f g, true => .some [[.formula f false], [.formula g true]]
  | .implies f g, false => .every [.formula f true, .formula g false]
  | .eq a b, v => compareTerms u a b 0 (if v then .zero else .nonzero)
  | .ne a b, v => compareTerms u a b 0 (if v then .nonzero else .zero)
  | .lt a b, true => compareTerms u b a (-1) .nonneg
  | .lt a b, false => compareTerms u a b 0 .nonneg
  | .le a b, true => compareTerms u b a 0 .nonneg
  | .le a b, false => compareTerms u a b (-1) .nonneg
  | .gt a b, true => compareTerms u a b (-1) .nonneg
  | .gt a b, false => compareTerms u b a 0 .nonneg
  | .ge a b, true => compareTerms u a b 0 .nonneg
  | .ge a b, false => compareTerms u b a (-1) .nonneg
  | .same f g, v => .some [[.formula f true, .formula g v], [.formula f false, .formula g !v]]
  | .differ f g, v => .some [[.formula f true, .formula g !v], [.formula f false, .formula g v]]
  | .forAll _ _, _ => .decided false

def step (u : Unknowns) : Goal → Step
  | .fact f => .fact f
  | .formula f b => stepFormula u f b

def anyKnown {α : Type} (known : α → Option Bool) : List α → Option Bool
  | [] => some false
  | a :: as =>
    match known a with
    | some true => some true
    | some false => anyKnown known as
    | none =>
      match anyKnown known as with
      | some true => some true
      | _ => none

def allKnown {α : Type} (known : α → Option Bool) (as : List α) : Option Bool :=
  (anyKnown (fun a => (known a).map (!·)) as).map (!·)

/-- Whether a goal is known to be met or missed, looking at its parts down to a given depth. -/
def known (u : Unknowns) (b : Bounds) : Nat → Goal → Option Bool
  | 0, _ => none
  | depth + 1, g =>
    match step u g with
    | .decided v => some v
    | .fact f => b.truth f
    | .every gs => allKnown (known u b depth) gs
    | .some as => anyKnown (allKnown (known u b depth)) as

def lookahead : Nat := 3

/-- What is left of a choice, given what is known. -/
inductive Choice where
  | met
  | missed
  | only (a : Alternative)
  | open (as : List Alternative)

def narrow (u : Unknowns) (b : Bounds) (as : List Alternative) : Choice :=
  let states := as.map fun a => (a, allKnown (known u b lookahead) a)
  if states.any fun s => s.2 == some true then .met
  else match (states.filter fun s => s.2 != some false).map Prod.fst with
    | [] => .missed
    | [a] => .only a
    | rest => .open rest

/-- All choices narrowed: either one cannot be met, or the first that has become forced comes out,
or all stay open. -/
inductive Narrowed where
  | missed
  | forced (a : Alternative) (rest : List (List Alternative))
  | open (rest : List (List Alternative))

def narrowAll (u : Unknowns) (b : Bounds) : List (List Alternative) → Narrowed
  | [] => .open []
  | c :: cs =>
    match narrow u b c with
    | .met => narrowAll u b cs
    | .missed => .missed
    | .only a => .forced a cs
    | .open as =>
      match narrowAll u b cs with
      | .missed => .missed
      | .forced a rest => .forced a (as :: rest)
      | .open rest => .open (as :: rest)

/-- The goal that is met when an alternative of one simple goal is missed. -/
def opposite (u : Unknowns) : Alternative → List Goal
  | [g] =>
    match step u g with
    | .fact f => [.fact f.negate]
    | _ => []
  | _ => []

/-- The alternatives of a choice, each after the opposites of those in front of it. -/
def exclusive (u : Unknowns) (before : List Goal) : List Alternative → List Alternative
  | [] => []
  | a :: as => (before ++ a) :: exclusive u (opposite u a ++ before) as

/-- Values that meet all goals and all choices. Values that are known to be within the bounds may be
given. -/
def searchWithin (u : Unknowns) :
    Nat → Bounds → Option Assignment → List Goal → List (List Alternative) → Verdict Assignment
  | 0, _, _, _, _ => .unknown
  | fuel + 1, b, m, g :: goals, choices =>
    match step u g with
    | .decided true => searchWithin u fuel b m goals choices
    | .decided false => .unsat
    | .fact f =>
      if b.truth f == some true then searchWithin u fuel b m goals choices
      else match b.learn f with
        | none => .unsat
        | some b => searchWithin u fuel b (m.filter (f.test ·)) goals choices
    | .every gs => searchWithin u fuel b m (gs ++ goals) choices
    | .some as => searchWithin u fuel b m goals (as :: choices)
  | fuel + 1, b, m, [], choices =>
    match narrowAll u b choices with
    | .missed => .unsat
    | .forced a rest => searchWithin u fuel b m a rest
    | .open choices =>
      match m.elim b.solve .sat with
      | .unsat => .unsat
      | .unknown => .unknown
      | .sat m =>
        match b.violated m, choices with
        | some (s, n), choices =>
          Verdict.first (fun f => searchWithin u fuel b none [.fact f] choices)
            [.atLeast s (n + 1), .atMost s (n - 1)]
        | none, c :: rest =>
          Verdict.first (fun a => searchWithin u fuel b (some m) a rest) (exclusive u [] c)
        | none, [] => .sat m

end WhileSketch.Search
