import Mathlib
import WhileSketch.Proofs.Tree.Nodes

/-! What the walks over a tree come to, told by recursion over it. The walk down meets a node before
its subtrees, and these from left to right. The walk up meets the same nodes in the opposite order,
so it goes over the subtrees from right to left. -/

namespace WhileSketch.Tree

variable {α : Type}

section Down

mutual

def preorder : Tree α → List (Tree α)
  | node r ts => node r ts :: preorderList ts

def preorderList : List (Tree α) → List (Tree α)
  | [] => []
  | t :: ts => preorder t ++ preorderList ts

end

mutual

/-- The length of the longest branch: nothing for a leaf, and otherwise one more than the greatest
height of a subtree. -/
def height : Tree α → Nat
  | node _ ts => if ts.isEmpty then 0 else 1 + heightList ts

def heightList : List (Tree α) → Nat
  | [] => 0
  | t :: ts => max (height t) (heightList ts)

end

theorem preorderList_eq_flatMap (ts : List (Tree α)) : preorderList ts = ts.flatMap preorder := by
  induction ts with
  | nil => rfl
  | cons t ts ih => rw [preorderList, ih, List.flatMap_cons]

theorem nodes_eq_preorder (t : Tree α) : t.nodes = t.preorder := by
  induction t using Tree.induction with
  | node r ts ih => rw [nodes_node, preorder, preorderList_eq_flatMap, List.flatMap_congr ih]

def reach (ts : List (Nat × Tree α)) : Nat :=
  (ts.map fun w => w.1 + w.2.height).foldr max 0

@[simp] theorem reach_nil : reach ([] : List (Nat × Tree α)) = 0 :=
  rfl

@[simp] theorem reach_cons (w : Nat × Tree α) (ts : List (Nat × Tree α)) :
    reach (w :: ts) = max (w.1 + w.2.height) (reach ts) :=
  rfl

theorem reach_append (ts us : List (Nat × Tree α)) :
    reach (ts ++ us) = max (reach ts) (reach us) := by
  induction ts with
  | nil => simp
  | cons w ts ih => simp [ih, max_assoc]

theorem reach_map (d : Nat) (t : Tree α) (ts : List (Tree α)) :
    reach ((t :: ts).map fun s => (d, s)) = d + heightList (t :: ts) := by
  induction ts generalizing t with
  | nil => simp [heightList]
  | cons u ts ih =>
    have hmax : heightList (t :: u :: ts) = max t.height (heightList (u :: ts)) := by rw [heightList]
    rw [List.map_cons, reach_cons, ih u, hmax, Nat.add_max_add_left]

theorem add_height (d : Nat) (t : Tree α) :
    d + t.height = max d (reach (t.subtrees.map fun s => (d + 1, s))) := by
  obtain ⟨r, ts⟩ := t
  cases ts with
  | nil => simp [height, subtrees]
  | cons t ts =>
    rw [subtrees, reach_map, height, List.isEmpty_cons, if_neg (by decide)]
    omega

/-- The walk that counts distances finds how deep the trees reach that are still to be visited. -/
theorem deepest_eq_reach (ts : List (Nat × Tree α)) : deepest ts = reach ts := by
  fun_induction deepest ts with
  | case1 => rfl
  | case2 d t rest ih => rw [ih, reach_append, ← max_assoc, ← add_height, reach_cons]

theorem depth_eq_height (t : Tree α) : t.depth = t.height := by
  simp [depth, deepest_eq_reach]

theorem nodes_leaves_depth (t : Tree α) :
    t.nodes = t.preorder ∧ t.leaves = t.preorder.filter (fun n => n.subtrees.isEmpty) ∧
      t.depth = t.height := by
  refine ⟨nodes_eq_preorder t, ?_, depth_eq_height t⟩
  rw [leaves, nodes_eq_preorder]
  rfl

end Down

section Up

mutual

/-- The nodes of the subtrees from left to right, and then the tree itself. -/
def upward : Tree α → List (Tree α)
  | node r ts => upwardList ts ++ [node r ts]

def upwardList : List (Tree α) → List (Tree α)
  | [] => []
  | t :: ts => upward t ++ upwardList ts

end

theorem upwardList_eq_flatMap (ts : List (Tree α)) : upwardList ts = ts.flatMap upward := by
  induction ts with
  | nil => rfl
  | cons t ts ih => rw [upwardList, ih, List.flatMap_cons]

theorem upward_node (r : α) (ts : List (Tree α)) :
    (node r ts).upward = ts.flatMap upward ++ [node r ts] := by
  rw [upward, upwardList_eq_flatMap]

/-- The nodes that a visit has still to give. -/
def Visit.pending : Visit α → List (Tree α)
  | down t => t.nodes.reverse
  | up t => [t]

/-- The walk up gives the nodes of all visits on its stack, those of the topmost one first. -/
theorem postorderFrom_eq_flatMap (vs : List (Visit α)) :
    postorderFrom vs = vs.flatMap Visit.pending := by
  fun_induction postorderFrom vs with
  | case1 => rfl
  | case2 t rest ih => rw [ih, List.flatMap_cons, Visit.pending, List.singleton_append]
  | case3 t rest ih =>
    obtain ⟨r, ts⟩ := t
    rw [ih, List.flatMap_append, List.flatMap_cons, List.flatMap_cons, ← List.append_assoc,
      Visit.pending, Visit.pending, nodes_node, List.reverse_cons, List.reverse_flatMap,
      ← List.map_reverse, List.flatMap_map]
    rfl

/-- The walk up meets the nodes that the walk down meets, in the opposite order. -/
theorem postorder_eq_reverse (t : Tree α) : t.postorder = t.nodes.reverse := by
  rw [postorder, postorderFrom_eq_flatMap, List.flatMap_singleton, Visit.pending]

theorem postorder_node (r : α) (ts : List (Tree α)) :
    (node r ts).postorder = ts.reverse.flatMap postorder ++ [node r ts] := by
  rw [postorder_eq_reverse, nodes_node, List.reverse_cons, List.reverse_flatMap]
  simp only [Function.comp_def, ← postorder_eq_reverse]

theorem length_postorder (t : Tree α) : t.postorder.length = t.upward.length := by
  induction t using Tree.induction with
  | node r ts ih =>
    rw [postorder_eq_reverse, List.length_reverse, nodes_node, upward_node, List.length_cons,
      List.length_append, List.length_flatMap, List.length_flatMap, List.length_singleton]
    congr 2
    refine List.map_congr_left fun t ht => ?_
    rw [← ih t ht, postorder_eq_reverse, List.length_reverse]

theorem eq_of_flatMap_eq {f g : Tree α → List (Tree α)} (hf : ∀ t, ∃ l, f t = l ++ [t])
    (hg : ∀ t, ∃ l, g t = l ++ [t]) (hlength : ∀ t, (f t).length = (g t).length)
    {us ts : List (Tree α)} (h : us.flatMap f = ts.flatMap g) : us = ts ∧ ∀ t ∈ ts, f t = g t := by
  -- The last nodes are the last trees, so the lists are taken apart from the right.
  induction us using List.reverseRecOn generalizing ts with
  | nil =>
    cases ts with
    | nil => simp
    | cons t ts =>
      obtain ⟨l, hl⟩ := hg t
      simp [hl] at h
  | append_singleton us u ih =>
    obtain ⟨l, hl⟩ := hf u
    rcases List.eq_nil_or_concat' ts with rfl | ⟨ts, t, rfl⟩
    · simp [hl] at h
    · obtain ⟨l', hl'⟩ := hg t
      simp only [List.flatMap_append, List.flatMap_singleton] at h
      have hlast : u = t := by
        rw [hl, hl', ← List.append_assoc, ← List.append_assoc] at h
        simpa using (List.append_inj' h rfl).2
      subst hlast
      obtain ⟨hrest, hu⟩ := List.append_inj' h (hlength u)
      obtain ⟨rfl, hall⟩ := ih hrest
      refine ⟨rfl, fun t ht => ?_⟩
      rcases List.mem_append.mp ht with ht | ht
      · exact hall t ht
      · rw [List.mem_singleton.mp ht, hu]

theorem postorder_eq_upward_node {r : α} {ts : List (Tree α)} :
    (node r ts).postorder = (node r ts).upward ↔
      ts.reverse = ts ∧ ∀ t ∈ ts, t.postorder = t.upward := by
  rw [postorder_node, upward_node, List.append_left_inj]
  constructor
  · intro h
    refine eq_of_flatMap_eq (fun t => ?_) (fun t => ?_) length_postorder h
    · cases t
      exact ⟨_, postorder_node _ _⟩
    · cases t
      exact ⟨_, upward_node _ _⟩
  · rintro ⟨hts, hall⟩
    rw [hts, List.flatMap_congr hall]

/-- The walk up goes over the subtrees of each node from right to left before it comes to the node,
which is the walk down in the opposite order. It is the order with the subtrees from left to right
just if the subtrees of each node are the same from both sides. -/
theorem postorder_eq_upward_iff (t : Tree α) :
    t.postorder = t.subtrees.reverse.flatMap postorder ++ [t] ∧ t.postorder = t.nodes.reverse ∧
      (t.postorder = t.upward ↔ ∀ n ∈ t.nodes, n.subtrees.reverse = n.subtrees) := by
  refine ⟨?_, postorder_eq_reverse t, ?_⟩
  · cases t
    exact postorder_node _ _
  · induction t using Tree.induction with
    | node r ts ih =>
      rw [postorder_eq_upward_node, nodes_node, List.forall_mem_cons, List.forall_mem_flatMap]
      exact and_congr_right fun _ => forall₂_congr ih

def fork : Tree Label :=
  word "a" [word "b" [], word "c" []]

theorem postorder_fork :
    fork.postorder.map root = [.word "c", .word "b", .word "a"] ∧
      fork.upward.map root = [.word "b", .word "c", .word "a"] ∧ fork.postorder ≠ fork.upward := by
  have hup : fork.postorder.map root = [.word "c", .word "b", .word "a"] := by
    simp [fork, word, postorder_node, root]
  have hleft : fork.upward.map root = [.word "b", .word "c", .word "a"] := by
    simp [fork, word, upward_node, root]
  refine ⟨hup, hleft, fun h => ?_⟩
  rw [h, hleft] at hup
  revert hup
  decide

end Up

end WhileSketch.Tree
