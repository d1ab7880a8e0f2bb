import WhileSketch.Fault
import WhileSketch.Tree.Basic

/-! Trees behind an interface, for what is done alike with trees that are values and with trees
whose nodes can be shared and changed. -/

namespace WhileSketch

namespace Tree

/-- The trees of a list, where a tree under the list mark gives way to its subtrees. -/
def spliceAll : List (Tree Label) → List (Tree Label)
  | [] => []
  | t :: rest => if t.root.isSplice then spliceAll (t.subtrees ++ rest) else t :: spliceAll rest
termination_by ts => sizeList ts
decreasing_by
  · simp only [sizeList_append, sizeList, size_eq]; omega
  · simp only [sizeList, size_eq]; omega

variable {r : Label} {ts : List (Tree Label)}

theorem spliceAll_cons_of_isSplice (hr : r.isSplice) (us : List (Tree Label)) :
    spliceAll (node r ts :: us) = spliceAll (ts ++ us) := by
  simp [spliceAll, root, subtrees, hr]

theorem spliceAll_cons_of_not_isSplice (hr : ¬ r.isSplice) (us : List (Tree Label)) :
    spliceAll (node r ts :: us) = node r ts :: spliceAll us := by
  simp [spliceAll, root, hr]

theorem spliceAll_append (ts us : List (Tree Label)) :
    spliceAll (ts ++ us) = spliceAll ts ++ spliceAll us := by
  fun_induction spliceAll ts with
  | case1 => rfl
  | case2 t ts ht ih =>
    obtain ⟨r, vs⟩ := t
    rw [List.cons_append, spliceAll_cons_of_isSplice (r := r) ht, ← List.append_assoc]
    exact ih
  | case3 t ts ht ih =>
    obtain ⟨r, vs⟩ := t
    rw [List.cons_append, spliceAll_cons_of_not_isSplice (r := r) ht, ih, List.cons_append]

end Tree

/-- What can be done with trees of a sort `τ`, as actions of `m`. -/
structure Forest (m : Type → Type) (τ : Type) where
  root : τ → m Label
  subtrees : τ → m (List τ)
  value : τ → m (Tree Label)
  make : Label → List τ → m τ
  setSubtrees : τ → List τ → m τ
  splice : List τ → m (List τ)

def Tree.forest : Forest (Except Fault) (Tree Label) where
  root := fun t => return t.root
  subtrees := fun t => return t.subtrees
  value := fun t => return t
  make := fun l ts => return .node l ts
  setSubtrees := fun t us => return .node t.root us
  splice := fun ts => return Tree.spliceAll ts

namespace Tree

variable (t : Tree Label) (l : Label) (ts : List (Tree Label))

@[simp] theorem forest_root : forest.root t = .ok t.root :=
  rfl

@[simp] theorem forest_subtrees : forest.subtrees t = .ok t.subtrees :=
  rfl

@[simp] theorem forest_value : forest.value t = .ok t :=
  rfl

@[simp] theorem forest_make : forest.make l ts = .ok (node l ts) :=
  rfl

@[simp] theorem forest_splice : forest.splice ts = .ok (spliceAll ts) :=
  rfl

end Tree

namespace Forest

variable {m : Type → Type} [Monad m] {τ : Type} (F : Forest m τ)

mutual

def plant : Tree Label → m τ
  | .node r ts => do F.make r (← plantAll ts)

def plantAll : List (Tree Label) → m (List τ)
  | [] => return []
  | t :: ts => do
    let a ← plant t
    return a :: (← plantAll ts)

end

/-- Puts a tree in the place of a node: a pinned label keeps itself around it. -/
def inPlaceOf (old : Label) (t : τ) : m τ :=
  match old with
  | .pinned _ => F.make (.word "kept") [t]
  | _ => return t

end Forest

end WhileSketch
