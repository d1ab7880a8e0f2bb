import WhileSketch.Tree.Basic

/-! Walks over a tree that keep a list of the trees still to be visited. -/

namespace WhileSketch.Tree

variable {α : Type}

/-- The nodes of a list of trees: each tree before its subtrees, and these before the trees
that follow. -/
def preorderFrom : List (Tree α) → List (Tree α)
  | [] => []
  | t :: rest => t :: preorderFrom (t.subtrees ++ rest)
termination_by ts => sizeList ts
decreasing_by simp only [sizeList_append, sizeList, size_eq]; omega

def nodes (t : Tree α) : List (Tree α) :=
  preorderFrom [t]

def labels (t : Tree α) : List α :=
  t.nodes.map root

def leaves (t : Tree α) : List (Tree α) :=
  t.nodes.filter isLeaf

def terminals (t : Tree α) : List α :=
  t.leaves.map root

/-- A tree that is still to be opened, or one whose subtrees have all been visited. -/
inductive Visit (α : Type) where
  | down (t : Tree α)
  | up (t : Tree α)

def Visit.work : Visit α → Nat
  | down t => 2 * t.size
  | up _ => 1

def workList : List (Visit α) → Nat
  | [] => 0
  | v :: vs => v.work + workList vs

theorem workList_append (vs ws : List (Visit α)) :
    workList (vs ++ ws) = workList vs + workList ws := by
  induction vs with
  | nil => simp [workList]
  | cons v vs ih => simp only [List.cons_append, workList, ih]; omega

theorem workList_map_down (ts : List (Tree α)) :
    workList (ts.map Visit.down) = 2 * sizeList ts := by
  induction ts with
  | nil => simp [workList, sizeList]
  | cons t ts ih => simp only [List.map_cons, workList, Visit.work, sizeList, ih]; omega

theorem workList_reverse (vs : List (Visit α)) : workList vs.reverse = workList vs := by
  induction vs with
  | nil => rfl
  | cons v vs ih => simp only [List.reverse_cons, workList_append, workList, ih]; omega

/-- The nodes in the order in which a stack of visits leaves them. A tree that is opened is put
back below its subtrees, of which the last one lies on top. -/
def postorderFrom : List (Visit α) → List (Tree α)
  | [] => []
  | .up t :: rest => t :: postorderFrom rest
  | .down t :: rest =>
    postorderFrom ((t.subtrees.map Visit.down).reverse ++ (.up t :: rest))
termination_by vs => workList vs
decreasing_by
  · simp only [workList, Visit.work]; omega
  · simp only [workList, workList_append, workList_reverse, workList_map_down, Visit.work, size_eq]
    omega

def postorder (t : Tree α) : List (Tree α) :=
  postorderFrom [.down t]

/-- The greatest distance from the top among the nodes of a list of trees at known distances. -/
def deepest : List (Nat × Tree α) → Nat
  | [] => 0
  | (d, t) :: rest => max d (deepest (t.subtrees.map (fun s => (d + 1, s)) ++ rest))
termination_by ts => sizeList (ts.map Prod.snd)
decreasing_by
  simp only [List.map_append, List.map_map, sizeList_append, List.map_cons, sizeList, size_eq]
  have h : List.map (Prod.snd ∘ fun s => (d + 1, s)) t.subtrees = t.subtrees :=
    List.map_id' t.subtrees
  rw [h]
  omega

def depth (t : Tree α) : Nat :=
  deepest [(0, t)]

end WhileSketch.Tree
