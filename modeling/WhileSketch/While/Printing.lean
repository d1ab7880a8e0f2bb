import WhileSketch.Fault
import WhileSketch.Tree.Basic

/-! While programs as text. -/

namespace WhileSketch.While

def operators : List String :=
  ["+", "-", "*", "/", ">", "<", ">=", "<=", "==", "!=", "op", "="]

def printedPart (parts : List (Except Fault Label)) (i : Nat) : Except Fault String := do
  return (← (← itemAt parts i)).plain

/-- The texts of printed parts, with a number for the place of each. -/
def printedTexts (i : Nat) : List Label → Except Fault (List String)
  | [] => .ok []
  | .num _ :: _ => .error (.notAText i "int")
  | .splice :: _ => .error (.notAText i "list")
  | .word s :: rest => do return s :: (← printedTexts (i + 1) rest)
  | .pinned s :: rest => do return s :: (← printedTexts (i + 1) rest)

mutual

/-- A program as text, with brackets around each operation and each branch. A variable that is no
text is given as it is. -/
def print : Tree Label → Except Fault Label
  | .node r ts =>
    let parts := printEach ts
    let part := printedPart parts
    if r.isWord ":=" then do
      return .word ((← part 0) ++ " := " ++ (← part 1))
    else if r.isWord "if" || r.isWord "if_unrolled" then do
      return .word (r.plain ++ " " ++ (← part 0) ++ " then (" ++ (← part 1) ++ ") else ("
        ++ (← part 2) ++ ")")
    else if r.isWord "while" then do
      return .word ("while " ++ (← part 0) ++ " do (" ++ (← part 1) ++ ")")
    else if r.isWord "assert" || r.isWord "assert_unrolled" then do
      return .word (r.plain ++ " " ++ (← part 0))
    else if operators.any r.isWord then do
      return .word ("(" ++ (← part 0) ++ " " ++ r.plain ++ " " ++ (← part 1) ++ ")")
    else if r.isWord "id" then
      (itemAt ts 0).map Tree.root
    else if r.isWord "num" then do
      return .word (← itemAt ts 0).root.plain
    else if r.isWord "skip" then
      .ok (.word "skip")
    else if r.isWord "hole" then
      .ok (.word "??")
    else if r.isWord ";" then do
      return .word ((← part 0) ++ " ; " ++ (← part 1))
    else do
      return .word (" ".intercalate (← printedTexts 0 (← parts.mapM id)))

def printEach : List (Tree Label) → List (Except Fault Label)
  | [] => []
  | t :: ts => print t :: printEach ts

end

end WhileSketch.While
