import WhileSketch.Tree.Store
import WhileSketch.Tree.Transform

/-! Transformations in place: nodes are changed where they are, and what replaces a node is put
into the list above it. -/

namespace WhileSketch

/-- A label put in the place of another: a pinned one leaves a trace. -/
def Label.inPlaceOf (old new : Label) : Label :=
  match old with
  | .pinned _ => .word ("kept " ++ new.plain)
  | _ => new

inductive Change (τ : Type) where
  | label (old new : Label)
  | tree (old new : τ)

def Change.value {m : Type → Type} [Monad m] {τ : Type} (F : Forest m τ) :
    Change τ → m (Change (Tree Label))
  | label old new => return .label old new
  | tree old new => return .tree (← F.value old) (← F.value new)

namespace Transform

/-- What happens in place at the root of a node: the node to stand in its place, if any, and the
changes. -/
def editRoot (again : Nat → Nat → StoreM Nat) (tf : Transform StoreM Nat) (a : Nat) :
    StoreM (Option Nat × List (Change Nat)) := do
  match ← firstOutcome tf.transformers a with
  | some (_, .relabel l) =>
    let (r, as) ← Store.node a
    Store.write a (.node (r.inPlaceOf l) as)
    return (none, [.label r l])
  | some (i, .replace b) =>
    let b ← Store.forest.inPlaceOf (← Store.root a) b
    return (some (← again i b), [.tree a b])
  | none =>
    let (r, as) ← Store.node a
    match ← tf.relabel r with
    | some l =>
      Store.write a (.node l as)
      return (none, [])
    | none => return (none, [])

def editSlots (edit : Nat → StoreM (Nat × List (Change Nat))) (a : Nat) :
    Nat → Nat → StoreM (List (Change Nat))
  | _, 0 => return []
  | i, n + 1 => do
    let b ← itemAt (← Store.subtrees a) i
    let (c, changes) ← edit b
    if c ≠ b then Store.setSlot a i c
    return changes ++ (← editSlots edit a (i + 1) n)

/-- Edits the nodes below a node, if asked for, and puts the nodes below list marks in the place
of these. -/
def editBelow (edit : Nat → StoreM (Nat × List (Change Nat))) (deep : Bool) (a : Nat) :
    StoreM (List (Change Nat)) := do
  let changes ← if deep then editSlots edit a 0 (← Store.subtrees a).length else return []
  let (_, l) ← Store.node a
  Store.write l (.list (← Store.splice (← Store.members l)))
  return changes

/-- Edits a tree in place, or only its top, where at most so many edits are one inside the other:
the node that stands in its place, and the changes. -/
def editWithin : Nat → Bool → Transform StoreM Nat → Nat → StoreM (Nat × List (Change Nat))
  | 0, _, _, _ => throw .endless
  | depth + 1, deep, tf, a => do
    let run := fun deep tf a => Prod.fst <$> editWithin depth deep tf a
    let again := tf.reapply Store.forest (run true) (run false)
    match tf.direction with
    | .topDown =>
      match ← tf.editRoot again a with
      | (some b, changes) => return (b, changes)
      | (none, changes) => return (a, changes ++ (← editBelow (editWithin depth true tf) deep a))
    | .bottomUp =>
      let changes ← editBelow (editWithin depth true tf) deep a
      let (b, changes') ← tf.editRoot again a
      return (b.getD a, changes ++ changes')

structure Report where
  result : Tree Label
  /-- What the given one itself has become. -/
  original : Tree Label
  same : Bool
  /-- The changes in the order in which they were made, with both sides as they are in the end. -/
  changes : List (Change (Tree Label))

def report (build : StoreM (Transform StoreM Nat)) (t : Tree Label)
    (run : Transform StoreM Nat → Nat → StoreM (Nat × List (Change Nat))) : Except Fault Report :=
  (fun act => StateT.run' act Store.empty) do
    let tf ← build
    let a ← Store.forest.plant t
    let (b, changes) ← run tf a
    return ⟨← Store.value b, ← Store.value a, b == a, ← changes.mapM (Change.value Store.forest)⟩

def edit (build : StoreM (Transform StoreM Nat)) (t : Tree Label) : Except Fault Report :=
  report build t (editWithin (maxNesting + t.size) true)

/-- Applies a transformation to the nodes of a tree. It changes none of these, but what replaces
nodes may be changed, and that may be a part of the tree. -/
def applyToNodes (build : StoreM (Transform StoreM Nat)) (t : Tree Label) : Except Fault Report :=
  report build t fun tf a => do
    return (← applyWithin Store.forest (maxNesting + t.size) tf a, [])

end Transform

end WhileSketch
