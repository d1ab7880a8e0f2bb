import Mathlib
import WhileSketch.Tree.Walk

/-! Induction over a tree and its subtrees. The nodes of a tree are its root and the nodes of its
subtrees, the parts of a list of trees are those of each, and how many nodes carry a given word. -/

namespace WhileSketch.Tree

variable {α : Type}

/-- A walk over a list of trees finishes the first trees before it comes to the others. -/
theorem preorderFrom_append (ts us : List (Tree α)) :
    preorderFrom (ts ++ us) = preorderFrom ts ++ preorderFrom us := by
  fun_induction preorderFrom ts with
  | case1 => rfl
  | case2 t rest ih =>
    rw [List.cons_append, preorderFrom, ← List.append_assoc, ih, List.cons_append]

theorem preorderFrom_eq_flatMap (ts : List (Tree α)) : preorderFrom ts = ts.flatMap nodes := by
  induction ts with
  | nil => rw [preorderFrom, List.flatMap_nil]
  | cons t ts ih =>
    rw [← List.singleton_append, preorderFrom_append, ih, ← nodes, List.flatMap_append,
      List.flatMap_singleton]

theorem nodes_node (r : α) (ts : List (Tree α)) :
    (node r ts).nodes = node r ts :: ts.flatMap nodes := by
  rw [nodes, preorderFrom, List.append_nil, subtrees, preorderFrom_eq_flatMap]

/-- What holds of a node when it holds of its subtrees holds of every tree. -/
theorem induction {motive : Tree α → Prop}
    (node : ∀ r ts, (∀ t ∈ ts, motive t) → motive (.node r ts)) : ∀ t, motive t
  | .node r ts => node r ts fun t _ => induction node t

theorem size_le_sizeList {t : Tree α} {ts : List (Tree α)} (h : t ∈ ts) :
    t.size ≤ sizeList ts := by
  induction ts with
  | nil => cases h
  | cons u ts ih =>
    rw [sizeList]
    obtain rfl | h := List.mem_cons.mp h
    · omega
    · have := ih h
      omega

theorem size_lt_size_node {t : Tree α} {ts : List (Tree α)} (h : t ∈ ts) (r : α) :
    t.size < (node r ts).size := by
  have hle := size_le_sizeList h
  rw [size]
  omega

theorem splitByList_eq_flatMap (p : α → Bool) (ts : List (Tree α)) :
    splitByList p ts = ts.flatMap (splitBy p) := by
  induction ts with
  | nil => rfl
  | cons t ts ih => rw [splitByList, ih, List.flatMap_cons]

def count (w : String) (t : Tree Label) : Nat :=
  t.nodes.countP fun n => n.root.isWord w

theorem count_eq_zero_iff {w : String} {t : Tree Label} :
    t.count w = 0 ↔ ∀ n ∈ t.nodes, n.root.isWord w = false := by
  simp [count, List.countP_eq_zero]

theorem count_node (w : String) (r : Label) (ts : List (Tree Label)) :
    (node r ts).count w = (ts.map (count w)).sum + if r.isWord w then 1 else 0 := by
  rw [count, nodes_node, List.countP_cons, List.countP_flatMap]
  rfl

theorem count_word_of_ne {w x : String} (h : x ≠ w) (ts : List (Tree Label)) :
    (word x ts).count w = (ts.map (count w)).sum := by
  simp [word, count_node, Label.isWord, Label.text?, h]

end WhileSketch.Tree
