import WhileSketch.Grammar.Derivation

/-! Lambda terms whose parameters may have types. -/

namespace WhileSketch.Lambda.Typed

def language : Language where
  classes := [
    ⟨.keyword ["let", "in"], none⟩,
    ⟨.name, some "id"⟩,
    ⟨.numeral false, some "num"⟩,
    ⟨.spelling ["\\", ".", "(", ")", "=", ":"], none⟩,
    ⟨.spelling ["->"], none⟩]
  grammar := ⟨
    Rule.family "E" [["\\."], ["let_"], ["E1"], ["E1'"]] ++
    Rule.family "E1" [["@"], ["E0"]] ++
    Rule.family "E1'" [["@'"], ["E0"]] ++
    Rule.family "E0" [["id"], ["num"], ["(", "E", ")"]] ++
    Rule.family "\\." [["\\", "A", ".", "E"]] ++
    Rule.family "@" [["E1", "E0"]] ++
    Rule.family "@'" [["E1", "\\."]] ++
    Rule.family "A" [["L:T"], ["A1"]] ++
    Rule.family "A1" [["(", "L:T", ")", "A0"], ["id", "A0"]] ++
    Rule.family "A0" [["A1"], []] ++
    Rule.family "L" [["id", "L"], []] ++
    Rule.family "T" [["T>"], ["T1"]] ++
    Rule.family "T>" [["T1", "->", "T"]] ++
    Rule.family "T1" [["id"], ["(", "T", ")"]] ++
    Rule.family "L:T" [["L", ":", "T"]] ++
    Rule.family "let_" [["let", "id", "=", "E", "in", "E"], ["let", "id:T", "=", "E", "in", "E"]] ++
    Rule.family "id:T" [["id", ":", "T"]]⟩

def isLevel (r : Label) : Bool :=
  ["γ", "E", "E0", "E1", "E1'", "A", "T", "T1"].any r.isWord

def isBracketed (r : Label) (ts : List (Tree Label)) : Except Fault Bool :=
  if ["E0", "T1"].any r.isWord then (itemAt ts 0).map (·.root.isWord "(") else .ok false

/-- The term in a derivation, of at most a given depth: levels and brackets are left out, an
abstraction over several parameters becomes one abstraction for each, and a type given to several
names is given to each. -/
def condenseWithin : Nat → Tree Label → Except Fault (Tree Label)
  | 0, _ => .error .endless
  | fuel + 1, .node r ts => do
    if isLevel r && ts.length == 1 then
      condenseWithin fuel (← itemAt ts 0)
    else if ← isBracketed r ts then
      condenseWithin fuel (← itemAt ts 1)
    else if r.isWord "\\." then
      let parameters := (← condenseWithin fuel (← itemAt ts 1)).split none
      let body ← itemAt ts 3
      if parameters.isEmpty then
        return .node body.root (← body.subtrees.mapM (condenseWithin fuel))
      let parameters ← parameters.mapM (condenseWithin fuel)
      return parameters.foldr (fun p t => Tree.word "\\" [p, t]) (← condenseWithin fuel body)
    else if r.isWord "@'" then
      return Tree.word "@" (← ts.mapM (condenseWithin fuel))
    else if r.isWord "L" || r.isWord "A0" then
      return Tree.word "." (← ((Tree.node r ts).split none).mapM (condenseWithin fuel))
    else if r.isWord "A1" then
      let parts ← ts.mapM (condenseWithin fuel)
      let first ← itemAt parts 0
      if first.root.isWord "id" then
        return Tree.word "." parts
      else if first.root.isWord "(" then
        return Tree.word "." ((← itemAt parts 1).subtrees ++ parts.drop 3)
      else
        return .node r parts
    else if r.isWord "L:T" then
      let parts ← ts.mapM (condenseWithin fuel)
      let names ← itemAt parts 0
      let type ← itemAt parts 2
      let sign ← itemAt parts 1
      return Tree.word "." ((names.split none).map fun a => .node sign.root [a, type])
    else if r.isWord "id:T" || r.isWord "T>" then
      let sign ← itemAt ts 1
      let left ← itemAt ts 0
      let right ← itemAt ts 2
      return .node sign.root [← condenseWithin fuel left, ← condenseWithin fuel right]
    else
      return .node r (← ts.mapM (condenseWithin fuel))

def condense (t : Tree Label) : Except Fault (Tree Label) :=
  condenseWithin (2 * t.size) t

def parse (text : String) : Except Fault (Option (Tree Label)) :=
  (language.derive? text).mapM condense

/-- The type that a text denotes: that of the parameter of an identity function. -/
def parseType (text : String) : Except Fault (Tree Label) := do
  match ← parse ("\\x: " ++ text ++ ". x") with
  | none => throw .noSubtrees
  | some t => itemAt (← itemAt t.subtrees 0).subtrees 1

end WhileSketch.Lambda.Typed
