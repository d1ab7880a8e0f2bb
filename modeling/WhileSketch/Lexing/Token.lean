import WhileSketch.Fault
import WhileSketch.Text.Word
import WhileSketch.Tree.Basic

/-! Tokens: cutting a text into words by an ordered list of token classes, and a row of tokens as
trees, by a pair of bracket tokens. -/

namespace WhileSketch

structure Word where
  text : String
  tags : List String

def Word.render (w : Word) : String :=
  w.text ++ "<" ++ ",".intercalate w.tags ++ ">"

namespace Lexing

inductive Shape where
  /-- One of the given words, not followed by a further word character. -/
  | keyword (words : List String)
  | name
  | numeral (signed : Bool)
  /-- The first of the given texts with which the input starts. -/
  | spelling (texts : List String)
  | run (c : Char)

/-- A form of texts and the tag of its tokens. Without a tag, each token is its own tag. -/
structure TokenClass where
  shape : Shape
  tag : Option String

def digitCount (cs : List Char) : Nat :=
  (cs.takeWhile Text.isDigit).length

/-- The length of the text of a given form with which a list of characters starts, or zero. -/
def Shape.reach : Shape → List Char → Nat
  | keyword words, cs =>
    let w := cs.takeWhile Text.isWordChar
    if words.contains (String.ofList w) then w.length else 0
  | name, cs =>
    match cs with
    | c :: _ => if Text.isNameStart c then (cs.takeWhile Text.isWordChar).length else 0
    | [] => 0
  | numeral signed, cs =>
    match cs with
    | c :: rest =>
      if signed && (c == '+' || c == '-') then
        let n := digitCount rest
        if n = 0 then 0 else n + 1
      else digitCount cs
    | [] => 0
  | spelling texts, cs =>
    match texts.find? fun s => s.toList.isPrefixOf cs with
    | some s => s.length
    | none => 0
  | run c, cs => (cs.takeWhile (· == c)).length

inductive Piece where
  | gap
  | token (w : Word)

/-- The text that a piece shows. What is skipped is not shown. -/
def Piece.text : Piece → String
  | gap => ""
  | token w => w.text

/-- The length and the tag of the token with which a list of characters starts, by the first
class that has one. -/
def firstToken (classes : List TokenClass) (cs : List Char) : Option (Nat × Option String) :=
  classes.findSome? fun k =>
    let n := k.shape.reach cs
    if n = 0 then none else some (n, k.tag)

/-- The pieces of a list of characters. A gap stands in front of a token that does not follow the
one before it at once; what follows the last token leaves no trace. -/
def scan (classes : List TokenClass) (skipped : Bool) : List Char → List Piece
  | [] => []
  | c :: cs =>
    match firstToken classes (c :: cs) with
    | none => scan classes true cs
    | some (n, tag) =>
      let text := String.ofList (c :: cs.take (n - 1))
      let token := Piece.token ⟨text, [tag.getD text]⟩
      let rest := scan classes false (cs.drop (n - 1))
      if skipped then .gap :: token :: rest else token :: rest
termination_by cs => cs.length
decreasing_by
  · simp
  · simp only [List.length_drop, List.length_cons]; omega

def pieces (classes : List TokenClass) (text : String) : List Piece :=
  scan classes false text.toList

def tokens (classes : List TokenClass) (text : String) : List Word :=
  (pieces classes text).filterMap fun
    | .token w => some w
    | .gap => none

/-- The token class written as a text: a character and a plus sign stand for the rows of that
character, any other text for itself. -/
def TokenClass.ofNotation (s : String) : TokenClass :=
  match s.toList with
  | [c, '+'] => ⟨.run c, none⟩
  | _ => ⟨.spelling [s], none⟩

def TokenClass.alternatives (s : String) : List TokenClass :=
  (Text.splitAt '|' s).map ofNotation

structure Brackets where
  opening : String
  closing : String

namespace Brackets

/-- How a token changes the number of brackets that are open. -/
def weight (b : Brackets) (token : String) : Int :=
  if token = b.opening then 1 else if token = b.closing then -1 else 0

/-- The number of tokens after which as many brackets are closed as are open. -/
def closingDistance (b : Brackets) (balance : Int) : List String → Option Nat
  | [] => if balance = 0 then some 0 else none
  | t :: ts =>
    if balance = 0 then some 0
    else (b.closingDistance (balance + b.weight t) ts).map (· + 1)

/-- The trees of a row of tokens: a token outside brackets is a leaf, a pair of brackets a node
named by its second bracket above what stands inside. -/
def blocks (b : Brackets) : List String → Except Fault (List (Tree Label))
  | [] => .ok []
  | t :: ts =>
    match b.closingDistance (b.weight t) ts with
    | none => .error (.unbalanced b.opening b.closing)
    | some n => do
      let inner ← b.blocks (ts.take n).dropLast
      let rest ← b.blocks (ts.drop n)
      return Tree.word ((t :: ts.take n).getLastD t) inner :: rest
termination_by ts => ts.length
decreasing_by
  · simp only [List.length_dropLast, List.length_take, List.length_cons]; omega
  · simp only [List.length_drop, List.length_cons]; omega

end Brackets

end Lexing

end WhileSketch
