import WhileSketch.Fault
import WhileSketch.Tree.Basic
import WhileSketch.Text.Upper

/-! Changing every label of a tree by one function, into a new tree or in place. -/

namespace WhileSketch

/-- A function on labels. -/
inductive Relabelling where
  | rename (pairs : List (Label × Label))
  | upper
  | double
  | text
  | length
  | identity

namespace Relabelling

def kind : Label → String
  | .num _ => "int"
  | .splice => "list"
  | _ => "str"

def apply : Relabelling → Label → Except Fault Label
  | rename pairs, l =>
    if l.isSplice then throw (.notAKey "list")
    else return ((pairs.reverse.find? fun p => p.1.agrees l).map Prod.snd).getD l
  | upper, l =>
    match l.text? with
    | some s => return .word (Text.upper s)
    | none => throw (.noAttribute (kind l) "upper")
  | double, .num n => return .num (n + n)
  | double, .splice => return .splice
  | double, l => return .word (l.plain ++ l.plain)
  | text, l => return .word l.plain
  | length, .num _ => throw (.noLength "int")
  | length, .splice => return .num 0
  | length, l => return .num l.plain.length
  | identity, l => return l

end Relabelling

namespace Tree

mutual

def mapLabels (f : Label → Except Fault Label) : Tree Label → Except Fault (Tree Label)
  | node r ts => do
    let l ← f r
    return node l (← mapLabelsList f ts)

def mapLabelsList (f : Label → Except Fault Label) :
    List (Tree Label) → Except Fault (List (Tree Label))
  | [] => return []
  | t :: ts => do
    let u ← mapLabels f t
    return u :: (← mapLabelsList f ts)

end

end Tree

end WhileSketch
