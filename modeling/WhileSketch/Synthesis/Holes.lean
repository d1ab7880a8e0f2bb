import WhileSketch.Text.Word
import WhileSketch.Tree.Basic

/-! Holes in program texts: giving them names, and putting values in their places. -/

namespace WhileSketch.Holes

def name (i : Nat) : String :=
  "hole_" ++ toString i

def stem : List Char := "hole_".toList

/-- A text with names in place of the question marks, counted from a number on, and the number that
comes next. -/
def nameChars (i : Nat) : List Char → List Char × Nat
  | '?' :: '?' :: rest =>
    let (cs, n) := nameChars (i + 1) rest
    ((name i).toList ++ cs, n)
  | c :: rest =>
    let (cs, n) := nameChars i rest
    (c :: cs, n)
  | [] => ([], i)

def nameAll (text : String) : String × List String :=
  let (cs, n) := nameChars 0 text.toList
  (String.ofList cs, (List.range n).map name)

/-- The length of the name of a hole with which a list of characters starts, if it starts with one
that is not part of a longer word. -/
def nameLength? (cs : List Char) : Option Nat :=
  if stem.isPrefixOf cs then
    let digits := (cs.drop stem.length).takeWhile Text.isDigit
    let rest := cs.drop (stem.length + digits.length)
    if digits.isEmpty || rest.head?.any Text.isWordChar then none
    else some (stem.length + digits.length)
  else none

/-- Whether a name starts with the name of a hole. -/
def isHole (name : String) : Bool :=
  (nameLength? name.toList).isSome

def find? (names : List String) : Option String :=
  names.find? isHole

/-- A text with values in place of the holes that have one; `before` is the character in front. -/
def fillChars (value : String → Option String) (before : Option Char) : List Char → List Char
  | [] => []
  | c :: cs =>
    match if before.any Text.isWordChar then none else nameLength? (c :: cs) with
    | none => c :: fillChars value (some c) cs
    | some n =>
      let hole := String.ofList (c :: cs.take (n - 1))
      ((value hole).getD hole).toList ++
        fillChars value (some ((cs.take (n - 1)).getLastD c)) (cs.drop (n - 1))
termination_by cs => cs.length
decreasing_by
  · simp
  · simp only [List.length_drop, List.length_cons]; omega

def fillWith (value : String → Option String) (text : String) : String :=
  String.ofList (fillChars value none text.toList)

abbrev Filling := List (String × Int)

def fill (f : Filling) (text : String) : String :=
  fillWith (fun h => (f.lookup h).map toString) text

def zeros (holes : List String) : Filling :=
  holes.map fun h => (h, 0)

/-- A filling for some holes, and zero for the others. -/
def complete (f : Filling) (holes : List String) : Filling :=
  f ++ zeros (holes.filter fun h => (f.lookup h).isNone)

def Filling.same (f g : Filling) : Bool :=
  f.length == g.length && f.all fun (h, n) => g.lookup h == some n

mutual

def fillTree (f : Filling) : Tree Label → Tree Label
  | .node r ts =>
    if r.isWord "id" then
      match ts with
      | .node name us :: rest =>
        match name.text?.bind fun x => f.lookup x with
        | some n => .node (.word "num") (.node (.num n) us :: rest)
        | none => .node r ts
      | [] => .node r ts
    else .node r (fillTrees f ts)

def fillTrees (f : Filling) : List (Tree Label) → List (Tree Label)
  | [] => []
  | t :: ts => fillTree f t :: fillTrees f ts

end

end WhileSketch.Holes
