import WhileSketch.Fault
import WhileSketch.Lexing.Token

/-! Grammars, which are rules from a symbol to a row of symbols, and sentences, which are words with
their categories, and how both are written. -/

namespace WhileSketch

/-- A symbol and a row of symbols that may stand in its place. -/
structure Rule where
  lhs : String
  rhs : List String
  deriving DecidableEq

def Rule.length (r : Rule) : Nat :=
  r.rhs.length

def Rule.render (r : Rule) : String :=
  "<Rule " ++ r.lhs ++ " -> " ++ " ".intercalate r.rhs ++ ">"

structure Grammar where
  rules : List Rule

namespace Grammar

def start? (g : Grammar) : Option String :=
  g.rules.head?.map Rule.lhs

/-- The symbol of a whole sentence: that of the first rule, and S where there is none or it is the
empty text. -/
def start (g : Grammar) : String :=
  (g.start?.filter (· != "")).getD "S"

def rulesFor (g : Grammar) (symbol : String) : List Rule :=
  g.rules.filter (·.lhs == symbol)

def symbols (g : Grammar) : List String :=
  (g.rules.map Rule.lhs).eraseDups

def render (g : Grammar) : String :=
  "<Grammar>\n" ++ String.join ((g.symbols.flatMap g.rulesFor).map fun r => "\t" ++ r.render ++ "\n")
    ++ "</Grammar>"

/-- The text in front of the first arrow and the text behind it. -/
def splitArrow (before : List Char) : List Char → Option (String × String)
  | '-' :: '>' :: rest => some (String.ofList before.reverse, String.ofList rest)
  | c :: rest => splitArrow (c :: before) rest
  | [] => none

/-- The symbols of one alternative; symbols are set apart by single blanks. -/
def readSymbols (text : String) : List String :=
  let text := Text.trim text
  if text = "" then [] else Text.splitAt ' ' text

/-- The rules on a line. What follows a number sign is a comment. -/
def readLine (line : String) : Except Fault (List Rule) :=
  let line := Text.trim (String.ofList (line.toList.takeWhile (· != '#')))
  if line = "" then .ok []
  else match splitArrow [] line.toList with
    | none => .error (.badRule line)
    | some (lhs, outcomes) =>
      .ok ((Text.splitAt '|' outcomes).map fun o => ⟨Text.trim lhs, readSymbols o⟩)

def ofLines (lines : List String) : Except Fault Grammar := do
  return ⟨(← lines.mapM readLine).flatten⟩

def ofText (text : String) : Except Fault Grammar :=
  ofLines (Text.lines text)

end Grammar

structure Sentence where
  words : List Word

namespace Sentence

def length (s : Sentence) : Nat :=
  s.words.length

def render (s : Sentence) : String :=
  " ".intercalate (s.words.map Word.render)

def word? (s : Sentence) (i : Int) : Option Word :=
  if i < 0 then none else s.words[i.toNat]?

/-- The categories in an annotation: behind each slash, what the next pair of angle brackets
encloses. -/
def readTags : List Char → List String
  | [] => []
  | '/' :: cs =>
    let inside := (cs.dropWhile (· != '<')).drop 1
    let tag := inside.takeWhile (· != '>')
    if (inside.drop tag.length).isEmpty then readTags cs
    else String.ofList tag :: readTags (inside.drop (tag.length + 1))
  | _ :: cs => readTags cs
termination_by cs => cs.length
decreasing_by
  · simp
  · have h := (List.dropWhile_suffix (l := cs) (· != '<')).length_le
    simp only [List.length_drop, List.length_cons]
    omega
  · simp

def readWord (text : String) : Word :=
  ⟨String.ofList (text.toList.takeWhile (· != '/')), readTags text.toList⟩

/-- The sentence in a text, whose words are set apart by single blanks. -/
def ofText (text : String) : Sentence :=
  ⟨(Text.splitAt ' ' (Text.trim text)).map readWord⟩

end Sentence

end WhileSketch
