import WhileSketch.Arithmetic.Linear
import WhileSketch.Logic.Formula

/-! Terms as sums of products of unknowns, by cases. -/

namespace WhileSketch

/-- Numbers for products of unknowns; a product lists its unknowns by rising number. -/
abbrev Polynomial := List (List Nat × Int)

namespace Polynomial

def ofInt (n : Int) : Polynomial :=
  if n = 0 then [] else [([], n)]

def insert (m : List Nat) (a : Int) : Polynomial → Polynomial
  | [] => [(m, a)]
  | (n, b) :: rest =>
    if m = n then if a + b = 0 then rest else (n, a + b) :: rest
    else (n, b) :: insert m a rest

def add (p q : Polynomial) : Polynomial :=
  p.foldl (fun q t => insert t.1 t.2 q) q

def scale (k : Int) (p : Polynomial) : Polynomial :=
  if k = 0 then [] else p.map fun t => (t.1, k * t.2)

def mul (p q : Polynomial) : Polynomial :=
  p.foldl (fun r t =>
    q.foldl (fun r u => insert ((t.1 ++ u.1).mergeSort (· ≤ ·)) (t.2 * u.2) r) r) []

/-- The number under which a product is an unknown of its own, when there are `count` single
unknowns. -/
def productIndex (count : Nat) : List Nat → Nat
  | [x] => x
  | m => count + m.foldl (fun n x => n * (count + 1) + x + 1) 0

def toLinear (count : Nat) (p : Polynomial) : Linear :=
  p.foldl (fun l t =>
    if t.1.isEmpty then { l with const := l.const + t.2 }
    else l.add ⟨[(productIndex count t.1, t.2)], 0⟩) ⟨[], 0⟩

def factor? (p : Polynomial) : Option Nat :=
  p.findSome? fun
    | (x :: _ :: _, _) => some x
    | _ => none

end Polynomial

/-- A result that depends on conditions. -/
inductive Cases (α : Type) where
  | one (a : α)
  | split (c : Formula) (yes no : Cases α)

namespace Cases

def map {α β : Type} (f : α → β) : Cases α → Cases β
  | one a => one (f a)
  | split c yes no => split c (yes.map f) (no.map f)

def map2 {α β γ : Type} (f : α → β → γ) : Cases α → Cases β → Cases γ
  | one a, d => d.map (f a)
  | split c yes no, d => split c (yes.map2 f d) (no.map2 f d)

/-- Each result with the conditions under which it is the one, and whether these are true. -/
def options {α : Type} : Cases α → List (List (Formula × Bool) × α)
  | one a => [([], a)]
  | split c yes no =>
    yes.options.map (fun o => ((c, true) :: o.1, o.2)) ++
      no.options.map (fun o => ((c, false) :: o.1, o.2))

end Cases

/-- The names of unknowns, by their numbers, and those whose value is fixed. -/
structure Unknowns where
  names : List String
  fixed : Assignment

namespace Unknowns

def count (u : Unknowns) : Nat :=
  u.names.length

def polynomial (u : Unknowns) (name : String) : Polynomial :=
  let x := u.names.idxOf name
  match u.fixed.lookup x with
  | some n => .ofInt n
  | none => [([x], 1)]

end Unknowns

def Term.polynomials (u : Unknowns) : Term → Cases Polynomial
  | .var name => .one (u.polynomial name)
  | .lit n => .one (.ofInt n)
  | .add a b => Cases.map2 Polynomial.add (a.polynomials u) (b.polynomials u)
  | .sub a b =>
    Cases.map2 (fun p q => Polynomial.add p (Polynomial.scale (-1) q)) (a.polynomials u)
      (b.polynomials u)
  | .mul a b => Cases.map2 Polynomial.mul (a.polynomials u) (b.polynomials u)
  | .ite c a b => .split c (a.polynomials u) (b.polynomials u)

end WhileSketch
