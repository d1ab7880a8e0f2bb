import WhileSketch.Tree.Forest

/-! Nodes and lists of nodes at addresses. Two trees may share a node, and two nodes a list; a
change of either shows wherever it is shared. -/

namespace WhileSketch

inductive Store.Cell where
  /-- A node, with the address of the list of its subtrees. -/
  | node (root : Label) (subtrees : Nat)
  | list (members : List Nat)
  deriving DecidableEq

structure Store where
  cells : Array Store.Cell
  deriving DecidableEq

abbrev StoreM : Type → Type := StateT Store (Except Fault)

namespace Store

def empty : Store := ⟨#[]⟩

def allocate (c : Cell) : StoreM Nat :=
  fun s => .ok (s.cells.size, ⟨s.cells.push c⟩)

def write (a : Nat) (c : Cell) : StoreM Unit :=
  fun s => .ok ((), ⟨s.cells.setIfInBounds a c⟩)

def node (a : Nat) : StoreM (Label × Nat) := fun s =>
  match s.cells[a]? with
  | some (.node r l) => .ok ((r, l), s)
  | _ => .error .noTree

def members (l : Nat) : StoreM (List Nat) := fun s =>
  match s.cells[l]? with
  | some (.list as) => .ok (as, s)
  | _ => .error .noSubtrees

def root (a : Nat) : StoreM Label :=
  return (← node a).1

def subtrees (a : Nat) : StoreM (List Nat) := do
  members (← node a).2

def make (r : Label) (as : List Nat) : StoreM Nat := do
  allocate (.node r (← allocate (.list as)))

def setSubtrees (a : Nat) (as : List Nat) : StoreM Nat := do
  let r ← root a
  write a (.node r (← allocate (.list as)))
  return a

def setSlot (a i b : Nat) : StoreM Unit := do
  let (_, l) ← node a
  let as ← members l
  if i < as.length then write l (.list (as.set i b)) else throw .noSuchSlot

/-- The tree below an address, of at most a given depth. -/
def valueWithin : Nat → Nat → StoreM (Tree Label)
  | 0, _ => throw .endless
  | depth + 1, a => do
    let (r, l) ← node a
    return .node r (← (← members l).mapM (valueWithin depth))

/-- The tree below an address. One that is deeper than there are cells goes round in a circle. -/
def value (a : Nat) : StoreM (Tree Label) := do
  valueWithin ((← get).cells.size + 1) a

/-- The nodes of a list, where list marks, of at most a given depth, give way to the nodes below
them. -/
def spliceWithin : Nat → List Nat → StoreM (List Nat)
  | 0, _ => throw .endless
  | depth + 1, as => do
    let parts ← as.mapM fun a => do
      if (← root a).isSplice then spliceWithin depth (← subtrees a) else return [a]
    return parts.flatten

def splice (as : List Nat) : StoreM (List Nat) := do
  spliceWithin ((← get).cells.size + 1) as

def forest : Forest StoreM Nat where
  root := root
  subtrees := subtrees
  value := value
  make := make
  setSubtrees := setSubtrees
  splice := splice

end Store

end WhileSketch
