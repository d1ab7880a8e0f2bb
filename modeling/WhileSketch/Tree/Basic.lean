import WhileSketch.Tree.Label

/-! Trees with a label at each node and any number of subtrees. -/

namespace WhileSketch

inductive Tree (α : Type) where
  | node (root : α) (subtrees : List (Tree α))

namespace Tree

variable {α : Type}

def root : Tree α → α
  | node r _ => r

def subtrees : Tree α → List (Tree α)
  | node _ ts => ts

instance [Inhabited α] : Inhabited (Tree α) := ⟨node default []⟩

def leaf (r : α) : Tree α :=
  node r []

def isLeaf (t : Tree α) : Bool :=
  t.subtrees.isEmpty

mutual

def size : Tree α → Nat
  | node _ ts => 1 + sizeList ts

def sizeList : List (Tree α) → Nat
  | [] => 0
  | t :: ts => size t + sizeList ts

end

@[simp] theorem sizeList_append (ts us : List (Tree α)) :
    sizeList (ts ++ us) = sizeList ts + sizeList us := by
  induction ts with
  | nil => simp [sizeList]
  | cons t ts ih => simp only [List.cons_append, sizeList, ih]; omega

theorem size_eq (t : Tree α) : t.size = 1 + sizeList t.subtrees := by
  cases t; simp [size, subtrees]

mutual

/-- Whether two trees have the same shape and labels that agree at each node. -/
def same (agree : α → α → Bool) : Tree α → Tree α → Bool
  | node a ts, node b us => agree a b && sameList agree ts us

def sameList (agree : α → α → Bool) : List (Tree α) → List (Tree α) → Bool
  | [], [] => true
  | t :: ts, u :: us => same agree t u && sameList agree ts us
  | _, _ => false

end

mutual

/-- A tree as text: the label, and the subtrees in braces if there are any. -/
def render (show_ : α → String) : Tree α → String
  | node r [] => show_ r
  | node r (t :: ts) => show_ r ++ "\x7b" ++ render show_ t ++ renderRest show_ ts ++ "\x7d"

def renderRest (show_ : α → String) : List (Tree α) → String
  | [] => ""
  | t :: ts => ", " ++ render show_ t ++ renderRest show_ ts

end

mutual

def map {β : Type} (f : α → β) : Tree α → Tree β
  | node r ts => node (f r) (mapList f ts)

def mapList {β : Type} (f : α → β) : List (Tree α) → List (Tree β)
  | [] => []
  | t :: ts => map f t :: mapList f ts

end

mutual

/-- The maximal subtrees below a run of nodes that satisfy a test, from left to right; a tree
whose own root fails the test is not divided. -/
def splitBy (isSeparator : α → Bool) : Tree α → List (Tree α)
  | node r ts => if isSeparator r then splitByList isSeparator ts else [node r ts]

def splitByList (isSeparator : α → Bool) : List (Tree α) → List (Tree α)
  | [] => []
  | t :: ts => splitBy isSeparator t ++ splitByList isSeparator ts

end

end Tree

namespace Tree

def agrees (t u : Tree Label) : Bool :=
  same Label.agrees t u

def plain (t : Tree Label) : String :=
  t.render Label.plain

def quoted (t : Tree Label) : String :=
  t.render Label.quoted

def word (s : String) (ts : List (Tree Label)) : Tree Label :=
  node (.word s) ts

/-- The parts of a tree between nodes with the given label, or with the label of its own root. -/
def split (t : Tree Label) (separator : Option Label) : List (Tree Label) :=
  t.splitBy (Label.agrees (separator.getD t.root))

end Tree

end WhileSketch
