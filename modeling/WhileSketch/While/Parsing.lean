import WhileSketch.Grammar.Derivation
import WhileSketch.Text.Numeral

/-! The text of While programs and the trees they denote. -/

namespace WhileSketch.While

def language : Language where
  classes := [
    ⟨.keyword ["if", "if_unrolled", "then", "else", "while", "do", "skip", "assert",
      "assert_unrolled"], none⟩,
    ⟨.name, some "id"⟩,
    ⟨.numeral true, some "num"⟩,
    ⟨.spelling ["!=", "<=", ">=", "+", "-", "*", "/", "<", ">", "="], some "op"⟩,
    ⟨.spelling ["??"], some "hole"⟩,
    ⟨.spelling ["(", ")", ";"], none⟩,
    ⟨.spelling [":="], none⟩]
  grammar := ⟨
    Rule.family "S" [["S1"], ["S1", ";", "S"]] ++
    Rule.family "S1" [["skip"], ["id", ":=", "E"], ["if", "E", "then", "S", "else", "S1"],
      ["if_unrolled", "E", "then", "S", "else", "S1"], ["while", "E", "do", "S1"],
      ["assert", "E"], ["assert_unrolled", "E"], ["(", "S", ")"]] ++
    Rule.family "E" [["E0"], ["E0", "op", "E0"]] ++
    Rule.family "E0" [["id"], ["num"], ["hole"], ["(", "E", ")"]]⟩

/-- Every other member of a list, from the second one on. -/
def alternate {α : Type} : List α → List α
  | _ :: b :: rest => b :: alternate rest
  | _ => []

def readNumber : Label → Except Fault Int
  | .word s => (Text.readInt s).mapError (Fault.ofNumeral s)
  | .pinned s => (Text.readInt s).mapError (Fault.ofNumeral s)
  | .num n => .ok n
  | .splice => .error (.notANumber "list")

mutual

/-- The program in a derivation: symbols of the grammar, brackets and keywords are left out, and
numerals become numbers. -/
def condense : Tree Label → Except Fault (Tree Label)
  | .node r ts =>
    let parts := condenseEach ts
    let middle := ts[1]?.map Tree.root
    if ["γ", "S", "S1", "E", "E0"].any r.isWord && ts.length == 1 then do
      ← itemAt parts 0
    else if ["S", "S1", "E"].any r.isWord && ts.length == 3 &&
        middle.any (fun m => [":=", ";", "op"].any m.isWord) then do
      let sign ← itemAt (← itemAt ts 1).subtrees 0
      return .node sign.root [← (← itemAt parts 0), ← (← itemAt parts 2)]
    else if ts.length == 3 && ts.head?.any (·.root.isWord "(") then do
      ← itemAt parts 1
    else if r.isWord "S1" then do
      let keyword := (← itemAt ts 0).root
      if ["if", "if_unrolled", "while", "assert", "assert_unrolled"].any keyword.isWord then
        let inner := alternate parts
        if inner.length == 3 && ts[1]?.any (·.root.isWord "(") then
          ← itemAt inner 1
        else
          return .node keyword (← inner.mapM id)
      else
        return .node r (← parts.mapM id)
    else if r.isWord "num" then do
      return .node r [.leaf (.num (← readNumber (← itemAt ts 0).root))]
    else if r.isWord "hole" then do
      return .node r [.leaf (← itemAt ts 0).root]
    else do
      return .node r (← parts.mapM id)

def condenseEach : List (Tree Label) → List (Except Fault (Tree Label))
  | [] => []
  | t :: ts => condense t :: condenseEach ts

end

def parse (text : String) : Except Fault (Option (Tree Label)) :=
  (language.derive? text).mapM condense

end WhileSketch.While
