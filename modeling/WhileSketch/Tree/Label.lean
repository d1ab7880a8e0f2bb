import WhileSketch.Text.Quoted

/-! What the nodes of a tree carry. -/

namespace WhileSketch

inductive Label where
  | word (s : String)
  | num (n : Int)
  /-- The mark of a list whose members belong to the parent node. -/
  | splice
  /-- A word that stays in its place, around whatever replaces its node. -/
  | pinned (s : String)
  deriving DecidableEq, Inhabited

namespace Label

/-- The label as it is read, without regard to being pinned. -/
def face : Label → Label
  | pinned s => word s
  | l => l

/-- Labels agree when they read the same. -/
def agrees (a b : Label) : Bool :=
  a.face == b.face

def text? : Label → Option String
  | word s => some s
  | pinned s => some s
  | num _ => none
  | splice => none

def isWord (l : Label) (s : String) : Bool :=
  l.text? == some s

def isSplice : Label → Bool
  | splice => true
  | _ => false

def plain : Label → String
  | word s => s
  | pinned s => s
  | num n => toString n
  | splice => "[]"

def quoted : Label → String
  | word s => Text.quoted s
  | pinned s => Text.quoted s
  | num n => toString n
  | splice => "[]"

/-- Zero, the empty word and the list mark count as nothing. -/
def isSomething : Label → Bool
  | word s => s != ""
  | pinned s => s != ""
  | num n => n != 0
  | splice => false

end Label

end WhileSketch
