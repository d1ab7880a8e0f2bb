import WhileSketch.Grammar.Recognition
import WhileSketch.Tree.Basic

/-! Trees of the sentences that a grammar recognises, and languages given by token classes and a
grammar. -/

namespace WhileSketch

namespace Row

/-- The trees of the symbols that a row has read. A symbol that a rule without symbols has read
is a leaf. -/
def derived : Row → List (Tree Label)
  | fresh i => (i.last?.map fun s => Tree.word s []).toList
  | advanced i previous completing =>
    previous.derived ++
      [if completing.item.rule.length = 0 then Tree.word (i.last?.getD "") []
       else Tree.word completing.item.rule.lhs completing.derived]

def tree (r : Row) : Tree Label :=
  Tree.word r.item.rule.lhs r.derived

end Row

namespace Grammar

def trees (g : Grammar) (s : Sentence) : List (Tree Label) :=
  (Recognition.completeRows (Recognition.charts g s)).map Row.tree

def renderTrees (ts : List (Tree Label)) : String :=
  "<Parse Trees>\n" ++ "\n".intercalate (ts.zipIdx.map fun (t, i) =>
    "Parse tree #" ++ toString (i + 1) ++ ":\n" ++ t.plain ++ "\n\n") ++ "</Parse Trees>"

end Grammar

/-- The tokens and the grammar of a language. -/
structure Language where
  classes : List Lexing.TokenClass
  grammar : Grammar

namespace Language

def tokens (l : Language) (text : String) : List Word :=
  Lexing.tokens l.classes text

/-- The tree of a text, with all symbols of the grammar in it. -/
def derive? (l : Language) (text : String) : Option (Tree Label) :=
  (l.grammar.trees ⟨l.tokens text⟩).head?

end Language

def Rule.family (lhs : String) (outcomes : List (List String)) : List Rule :=
  outcomes.map fun rhs => ⟨lhs, rhs⟩

end WhileSketch
