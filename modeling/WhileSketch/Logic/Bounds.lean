import WhileSketch.Arithmetic.Feasibility

/-! What is known about sums of unknowns: bounds, and values that they do not have. -/

namespace WhileSketch

/-- A statement about a sum of unknowns whose coefficients have no common divisor and of which the
first is positive. -/
inductive Fact where
  | atLeast (sum : Coefficients) (n : Int)
  | atMost (sum : Coefficients) (n : Int)
  | equals (sum : Coefficients) (n : Int)
  | differs (sum : Coefficients) (n : Int)

inductive Relation where
  | nonneg
  | zero
  | nonzero

inductive Claim where
  | decided (b : Bool)
  | fact (f : Fact)

def Claim.ofLinear (l : Linear) (r : Relation) : Claim :=
  let g : Int := Coefficients.gcd l.terms
  if g = 0 then .decided (match r with
    | .nonneg => 0 ≤ l.const
    | .zero => l.const == 0
    | .nonzero => l.const != 0)
  else
    let isNegative := l.terms.head?.any fun t => t.2 < 0
    let k := if isNegative then -g else g
    let sum := l.terms.map fun (x, b) => (x, b / k)
    match r with
    | .nonneg =>
      if isNegative then .fact (.atMost sum (Int.fdiv l.const g))
      else .fact (.atLeast sum (-(Int.fdiv l.const g)))
    | .zero =>
      if l.const % g = 0 then .fact (.equals sum (-(l.const / k))) else .decided false
    | .nonzero =>
      if l.const % g = 0 then .fact (.differs sum (-(l.const / k))) else .decided true

namespace Fact

def negate : Fact → Fact
  | atLeast s n => atMost s (n - 1)
  | atMost s n => atLeast s (n + 1)
  | equals s n => differs s n
  | differs s n => equals s n

def test (m : Assignment) : Fact → Bool
  | atLeast s n => n ≤ Coefficients.value m s
  | atMost s n => Coefficients.value m s ≤ n
  | equals s n => Coefficients.value m s == n
  | differs s n => Coefficients.value m s != n

def sum : Fact → Coefficients
  | atLeast s _ => s
  | atMost s _ => s
  | equals s _ => s
  | differs s _ => s

end Fact

/-- The least and the greatest value of a sum, as far as they are known. -/
structure Range where
  sum : Coefficients
  low : Option Int
  high : Option Int

namespace Range

def isEmpty (r : Range) : Bool :=
  match r.low, r.high with
  | some l, some h => h < l
  | _, _ => false

def raise (r : Range) (n : Int) : Range :=
  { r with low := some (match r.low with | some l => max l n | none => n) }

def lower (r : Range) (n : Int) : Range :=
  { r with high := some (match r.high with | some h => min h n | none => n) }

/-- The range without the given values, as far as they are at its ends. -/
def trim (r : Range) : List Int → Range
  | [] => r
  | n :: ns =>
    let r := if r.low == some n then r.raise (n + 1) else r
    let r := if r.high == some n then r.lower (n - 1) else r
    r.trim ns

def system (r : Range) : List Linear × List Linear :=
  match r.low, r.high with
  | some l, some h =>
    if l = h then ([⟨r.sum, -l⟩], []) else ([], [⟨r.sum, -l⟩, ⟨Coefficients.scale (-1) r.sum, h⟩])
  | some l, none => ([], [⟨r.sum, -l⟩])
  | none, some h => ([], [⟨Coefficients.scale (-1) r.sum, h⟩])
  | none, none => ([], [])

end Range

/-- The ranges of sums, and values that sums do not have. -/
structure Bounds where
  ranges : List Range
  gaps : List (Coefficients × Int)

namespace Bounds

def empty : Bounds := ⟨[], []⟩

def range (b : Bounds) (sum : Coefficients) : Range :=
  (b.ranges.find? fun r => r.sum = sum).getD ⟨sum, none, none⟩

def gapsOf (b : Bounds) (sum : Coefficients) : List Int :=
  b.gaps.filterMap fun (s, n) => if s = sum then some n else none

def put (b : Bounds) (r : Range) : Bounds :=
  { b with ranges := r :: b.ranges.filter fun q => q.sum != r.sum }

/-- Adds a statement; nothing if it contradicts what is known about the same sum. -/
def learn (b : Bounds) (f : Fact) : Option Bounds :=
  let r := b.range f.sum
  let (r, gaps) := match f with
    | .atLeast _ n => (r.raise n, b.gaps)
    | .atMost _ n => (r.lower n, b.gaps)
    | .equals _ n => ((r.raise n).lower n, b.gaps)
    | .differs s n => (r, (s, n) :: b.gaps)
  let b := { b with gaps := gaps }
  let known := (b.gapsOf r.sum).mergeSort (· ≤ ·)
  let r := (r.trim known).trim known.reverse
  if r.isEmpty then none else some (b.put r)

def truth (b : Bounds) (f : Fact) : Option Bool :=
  let r := b.range f.sum
  match f with
  | .atLeast _ n =>
    if r.low.any (n ≤ ·) then some true else if r.high.any (· < n) then some false else none
  | .atMost _ n =>
    if r.high.any (· ≤ n) then some true else if r.low.any (n < ·) then some false else none
  | .equals s n =>
    if r.low == some n && r.high == some n then some true
    else if r.low.any (n < ·) || r.high.any (· < n) || (b.gapsOf s).contains n then some false
    else none
  | .differs s n =>
    if r.low == some n && r.high == some n then some false
    else if r.low.any (n < ·) || r.high.any (· < n) || (b.gapsOf s).contains n then some true
    else none

def solve (b : Bounds) : Verdict Assignment :=
  let systems := b.ranges.reverse.map Range.system
  Feasibility.solve (systems.flatMap Prod.fst) (systems.flatMap Prod.snd)

/-- A value that a sum does not have, although it has it for the given values of the unknowns. -/
def violated (b : Bounds) (m : Assignment) : Option (Coefficients × Int) :=
  b.gaps.find? fun (s, n) => Coefficients.value m s == n

end Bounds

end WhileSketch
