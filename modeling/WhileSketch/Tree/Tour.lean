import WhileSketch.Fault
import WhileSketch.Tree.Basic

/-! Tours, which are walks that report when a node is entered and left and may stay out of parts of
the tree, and paths, which are lists of nodes whose members are out of reach. -/

namespace WhileSketch

inductive TourEvent (α : Type) where
  | enter (root : α)
  | leave (root : α)

inductive Tour (α : Type) where
  | skipped
  | visited (root : α) (inner : List (Tour α))

/-- Which nodes a tour stays out of. -/
structure TourPlan (α : Type) where
  /-- How often the way down from a node is closed. -/
  prunes : α → Nat
  skips : α → Bool

namespace Tree

variable {α : Type}

mutual

/-- Tours a tree. The way down from a node can be closed only once. -/
def tour (plan : TourPlan α) : Tree α → Except Fault (Tour α × List (TourEvent α))
  | node r ts => do
    if 1 < plan.prunes r then throw .prunedTwice
    if plan.skips r then return (.skipped, [.enter r])
    if plan.prunes r = 1 then return (.visited r [], [.enter r, .leave r])
    let (inner, events) ← tourList plan ts
    return (.visited r inner, .enter r :: events ++ [.leave r])

def tourList (plan : TourPlan α) :
    List (Tree α) → Except Fault (List (Tour α) × List (TourEvent α))
  | [] => return ([], [])
  | t :: ts => do
    let (first, events) ← tour plan t
    let (rest, more) ← tourList plan ts
    return (first :: rest, events ++ more)

end

/-- A walk with no order of its own visits nothing. -/
def unordered (_ : Tree α) : Except Fault (List (Tree α)) :=
  .error .noRule

/-- A tour hands its outcome over to its visitor together with the tree; a visitor that only
collects takes neither. -/
def collect (_ : Tree α) : Except Fault (List α) :=
  .error .collectorArity

end Tree

/-- A list of nodes of a tree. -/
structure Path where
  nodes : List (Tree Label)

namespace Path

def render (p : Path) : String :=
  " -> ".intercalate (p.nodes.map Tree.quoted)

def append (p q : Path) : Path :=
  ⟨p.nodes ++ q.nodes⟩

def length (p : Path) : Nat :=
  p.nodes.length

/-- A member of a path. Members cannot be taken out of a path. -/
def nodeAt (_ : Path) (_ : Int) : Except Fault (Tree Label) :=
  .error .pathMember

def up (_ : Path) : Except Fault Path :=
  .error .pathMember

/-- Whether a path begins with another one. Only what the lengths decide is known. -/
def startsWith (p q : Path) : Except Fault Bool :=
  if p.length < q.length then .ok false
  else if q.length = 0 then .ok true
  else .error .pathMember

def equals (p q : Path) : Except Fault Bool :=
  if p.length = q.length then p.startsWith q else .ok false

end Path

inductive ScanTarget where
  | node
  | value
  | path

/-- The paths to all nodes of a tree. A search leaves each node by shortening its path. -/
def Tree.scan (_ : Tree Label) (_ : ScanTarget) : Except Fault (List Path) := do
  let _ ← Path.up ⟨[]⟩
  return []

end WhileSketch
