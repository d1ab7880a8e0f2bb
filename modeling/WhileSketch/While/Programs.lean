import WhileSketch.Fault
import WhileSketch.Tree.Basic

/-! The variables of a program, loops replaced by a bounded number of conditional steps, and programs
without their assertions. -/

namespace WhileSketch.While

mutual

/-- The names of variables in a program, as often as they occur. -/
def occurrences : Tree Label → Except Fault (List Label)
  | .node r ts => do
    let own ← if r.isWord "id" then do
        match (← itemAt ts 0).root with
        | .splice => throw (.notAKey "list")
        | name => pure [name]
      else pure []
    return own ++ (← occurrencesEach ts)

def occurrencesEach : List (Tree Label) → Except Fault (List Label)
  | [] => .ok []
  | t :: ts => do
    let first ← occurrences t
    return first ++ (← occurrencesEach ts)

end

def nameBefore (a b : Label) : Bool :=
  match a, b with
  | .num m, .num n => m ≤ n
  | a, b => a.plain ≤ b.plain

def insertName (a : Label) : List Label → List Label
  | [] => [a]
  | b :: rest => if nameBefore a b then a :: b :: rest else b :: insertName a rest

/-- Names, each once and in order. -/
def sortNames (names : List Label) : List Label :=
  names.eraseDups.foldr insertName []

def variableLabels (t : Tree Label) : Except Fault (List Label) := do
  return sortNames (← occurrences t)

def variableNames (t : Tree Label) : Except Fault (List String) := do
  return (← variableLabels t).map Label.plain

def unrolledStep (condition body : Tree Label) : Tree Label :=
  Tree.word "if_unrolled" [condition, body, Tree.word "skip" []]

/-- The given number of conditional steps of a loop, at least one, followed by the claim that the
loop has come to its end. -/
def unrolledLoop (limit : Int) (condition body : Tree Label) : Tree Label :=
  let step := unrolledStep condition body
  let steps := (List.replicate (limit - 1).toNat step).foldl
    (fun t u => Tree.word ";" [t, u]) step
  Tree.word ";" [steps, Tree.word "assert_unrolled" [condition]]

mutual

def unroll (limit : Int) : Tree Label → Except Fault (Tree Label)
  | .node r ts =>
    if r.isWord "while" then do
      return unrolledLoop limit (← itemAt ts 0) (← itemAt ts 1)
    else do
      return .node r (← unrollEach limit ts)

def unrollEach (limit : Int) : List (Tree Label) → Except Fault (List (Tree Label))
  | [] => .ok []
  | t :: ts => do
    let first ← unroll limit t
    return first :: (← unrollEach limit ts)

end

mutual

/-- What is left of a program without its assertions. A sequence of which one part is left is that
part. -/
def withoutAssertions : Tree Label → Option (Tree Label)
  | .node r ts =>
    if r.isWord "assert" then none
    else
      let rest := withoutAssertionsEach ts
      match r.isWord ";", rest with
      | true, [] => none
      | true, [t] => some t
      | _, _ => some (.node r rest)

def withoutAssertionsEach : List (Tree Label) → List (Tree Label)
  | [] => []
  | t :: ts => (withoutAssertions t).toList ++ withoutAssertionsEach ts

end

/-- A program of which the assertions have been taken out, in its own place. -/
def strippedInPlace : Tree Label → Tree Label
  | .node r ts => if r.isWord "assert" then .node r ts else .node r (withoutAssertionsEach ts)

end WhileSketch.While
