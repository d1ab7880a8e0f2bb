import WhileSketch.Fault
import WhileSketch.Tree.Basic

/-! Building trees from nested descriptions. -/

namespace WhileSketch

inductive Spec where
  | tuple (parts : List Spec)
  | list (items : List Spec)
  | tree (t : Tree Label)
  | word (s : String)
  | num (n : Int)

namespace Spec

/-- The label that a description stands for on its own. -/
def label : Spec → Except Fault Label
  | word s => .ok (.word s)
  | num n => .ok (.num n)
  | list [] => .ok .splice
  | list _ => .error (.notAKey "list")
  | tuple _ => .error (.notAKey "tuple")
  | tree _ => .error (.notAKey "Tree")

mutual

/-- The tree that a description stands for. A tuple has a label and the subtrees, where a word
stands for its characters; anything else stands for a single node. -/
def build : Spec → Except Fault (Tree Label)
  | tuple [root, subtrees] => do
    let l ← label root
    return .node l (← buildMembers subtrees)
  | tuple parts => .error (.notAPair parts.length)
  | tree t => .ok t
  | word s => .ok (.leaf (.word s))
  | num n => .ok (.leaf (.num n))
  | list items => do return .leaf (← label (list items))

def buildMembers : Spec → Except Fault (List (Tree Label))
  | list items => buildList items
  | tuple items => buildList items
  | word s => .ok (s.toList.map fun c => .leaf (.word c.toString))
  | num _ => .error (.notIterable "int")
  | tree _ => .error (.notIterable "Tree")

def buildList : List Spec → Except Fault (List (Tree Label))
  | [] => .ok []
  | s :: rest => do
    let t ← build s
    return t :: (← buildList rest)

end

end Spec

end WhileSketch
