import WhileSketch.Fault
import WhileSketch.Tree.Basic

/-! Lambda terms as text, with as few brackets as possible. -/

namespace WhileSketch.Lambda

inductive Dialect where
  | pure
  | typed
  deriving DecidableEq

/-- A text around and between two parts. -/
structure Layout where
  before : String
  between : String
  after : String

namespace Layout

def bracketed (l : Layout) (needed : Bool) : Layout :=
  if needed then ⟨"(" ++ l.before, l.between, l.after ++ ")"⟩ else l

def fill (l : Layout) : List Label → Except Fault Label
  | [a, b] => .ok (.word (l.before ++ a.plain ++ l.between ++ b.plain ++ l.after))
  | [] => .error .fewParts
  | [_] => .error .fewParts
  | _ => .error .manyParts

end Layout

/-- Where a term stands: the term above it, the index among the parts of that, and the innermost
term of which something follows. -/
structure Position where
  parent : String
  index : Nat
  follow : String

def Position.top : Position := ⟨".", 0, ""⟩

def layout? (d : Dialect) (p : Position) (r : Label) : Option Layout :=
  if r.isWord "\\" then
    some (Layout.bracketed ⟨"\\", ". ", ""⟩
      (p.parent == "@" && (p.index == 0 || p.follow == "@")))
  else if r.isWord "@" then
    some (Layout.bracketed ⟨"", " ", ""⟩ (p.parent == "@" && p.index == 1))
  else if d = .typed && r.isWord ":" then
    some ⟨"", " : ", ""⟩
  else if d = .typed && r.isWord "->" then
    some (Layout.bracketed ⟨"", " → ", ""⟩ (p.parent == "->" && p.index == 0))
  else none

mutual

/-- A term as text. A name or a number that is no text is given as it is. -/
def printAt (d : Dialect) (p : Position) : Tree Label → Except Fault Label
  | .node r ts =>
    if r.isWord "id" || r.isWord "num" then
      (itemAt ts 0).map Tree.root
    else match layout? d p r with
      | some l => do l.fill (← printParts d r.plain p.follow 0 ts)
      | none =>
        if d = .typed && r.isWord "let_" then do
          let parts := printEach d ts
          let name ← (← itemAt parts 1)
          let value ← (← itemAt parts 3)
          let body ← (← itemAt parts 5)
          return .word ("let " ++ name.plain ++ " = " ++ value.plain ++ " in " ++ body.plain)
        else
          .ok (.word (Tree.plain (.node r ts)))

/-- The parts of a term with the given label, from an index on. -/
def printParts (d : Dialect) (parent follow : String) (i : Nat) :
    List (Tree Label) → Except Fault (List Label)
  | [] => .ok []
  | t :: ts => do
    let first ← printAt d ⟨parent, i, if ts.isEmpty then follow else parent⟩ t
    return first :: (← printParts d parent follow (i + 1) ts)

def printEach (d : Dialect) : List (Tree Label) → List (Except Fault Label)
  | [] => []
  | t :: ts => printAt d .top t :: printEach d ts

end

def print (d : Dialect) (t : Tree Label) : Except Fault Label :=
  printAt d .top t

end WhileSketch.Lambda
