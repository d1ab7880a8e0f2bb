/-! Linear expressions with whole coefficients over numbered unknowns. -/

namespace WhileSketch

/-- The coefficients of unknowns, by rising number and without zeros. -/
abbrev Coefficients := List (Nat × Int)

/-- Values of unknowns; an unknown that is not listed has the value zero. -/
abbrev Assignment := List (Nat × Int)

def Assignment.value (m : Assignment) (x : Nat) : Int :=
  (m.lookup x).getD 0

namespace Coefficients

def add : Coefficients → Coefficients → Coefficients
  | [], ys => ys
  | xs, [] => xs
  | (x, a) :: xs, (y, b) :: ys =>
    if x < y then (x, a) :: add xs ((y, b) :: ys)
    else if y < x then (y, b) :: add ((x, a) :: xs) ys
    else if a + b = 0 then add xs ys
    else (x, a + b) :: add xs ys
termination_by xs ys => xs.length + ys.length

def scale (k : Int) (xs : Coefficients) : Coefficients :=
  if k = 0 then [] else xs.map fun (x, a) => (x, k * a)

def gcd (xs : Coefficients) : Nat :=
  xs.foldl (fun g (_, a) => Nat.gcd g a.natAbs) 0

def get (xs : Coefficients) (x : Nat) : Int :=
  xs.foldr (fun (y, a) sum => if y = x then a + sum else sum) 0

def erase (xs : Coefficients) (x : Nat) : Coefficients :=
  xs.filter fun t => t.1 != x

def value (m : Assignment) (xs : Coefficients) : Int :=
  xs.foldr (fun (x, a) sum => a * m.value x + sum) 0

end Coefficients

/-- A sum of unknowns with coefficients, and a number. -/
structure Linear where
  terms : Coefficients
  const : Int

namespace Linear

def ofInt (n : Int) : Linear := ⟨[], n⟩

def unknown (x : Nat) : Linear := ⟨[(x, 1)], 0⟩

def add (l k : Linear) : Linear :=
  ⟨Coefficients.add l.terms k.terms, l.const + k.const⟩

def scale (k : Int) (l : Linear) : Linear :=
  ⟨Coefficients.scale k l.terms, k * l.const⟩

def erase (l : Linear) (x : Nat) : Linear :=
  ⟨Coefficients.erase l.terms x, l.const⟩

def substitute (x : Nat) (v l : Linear) : Linear :=
  let a := Coefficients.get l.terms x
  if a = 0 then l else (l.erase x).add (v.scale a)

def value (m : Assignment) (l : Linear) : Int :=
  Coefficients.value m l.terms + l.const

end Linear

end WhileSketch
