import WhileSketch.Grammar.Derivation

/-! Lambda terms without types. -/

namespace WhileSketch.Lambda.Pure

def language : Language where
  classes := [
    ⟨.keyword ["let", "in"], none⟩,
    ⟨.name, some "id"⟩,
    ⟨.numeral false, some "num"⟩,
    ⟨.spelling ["\\", ".", "(", ")", "="], none⟩]
  grammar := ⟨
    Rule.family "E" [["\\."], ["let_"], ["E1"], ["E1'"]] ++
    Rule.family "E1" [["@"], ["E0"]] ++
    Rule.family "E1'" [["@'"], ["E0"]] ++
    Rule.family "E0" [["id"], ["num"], ["(", "E", ")"]] ++
    Rule.family "\\." [["\\", "L", ".", "E"]] ++
    Rule.family "@" [["E1", "E0"]] ++
    Rule.family "@'" [["E1", "\\."]] ++
    Rule.family "L" [["id", "L"], []] ++
    Rule.family "let_" [["let", "id", "=", "E", "in", "E"]]⟩

/-- Symbols whose only purpose is the order of binding. -/
def isLevel (r : Label) : Bool :=
  ["γ", "E", "E0", "E1", "E1'"].any r.isWord

/-- Whether a node stands for a pair of brackets and what is between them. -/
def isBracketed (r : Label) (ts : List (Tree Label)) : Except Fault Bool :=
  if ["E0"].any r.isWord then (itemAt ts 0).map (·.root.isWord "(") else .ok false

/-- The term in a derivation, of at most a given depth: levels and brackets are left out, and an
abstraction over several names becomes one abstraction for each. -/
def condenseWithin : Nat → Tree Label → Except Fault (Tree Label)
  | 0, _ => .error .endless
  | fuel + 1, .node r ts => do
    if isLevel r && ts.length == 1 then
      condenseWithin fuel (← itemAt ts 0)
    else if ← isBracketed r ts then
      condenseWithin fuel (← itemAt ts 1)
    else if r.isWord "\\." then
      let parameters := (← itemAt ts 1).split none
      let body ← itemAt ts 3
      if parameters.isEmpty then
        return .node body.root (← body.subtrees.mapM (condenseWithin fuel))
      let parameters ← parameters.mapM (condenseWithin fuel)
      return parameters.foldr (fun p t => Tree.word "\\" [p, t]) (← condenseWithin fuel body)
    else if r.isWord "@'" then
      return Tree.word "@" (← ts.mapM (condenseWithin fuel))
    else if r.isWord "L" then
      return Tree.word "." (← ((Tree.node r ts).split none).mapM (condenseWithin fuel))
    else
      return .node r (← ts.mapM (condenseWithin fuel))

def condense (t : Tree Label) : Except Fault (Tree Label) :=
  condenseWithin t.size t

/-- The term that a text denotes, if any. -/
def parse (text : String) : Except Fault (Option (Tree Label)) :=
  (language.derive? text).mapM condense

end WhileSketch.Lambda.Pure
