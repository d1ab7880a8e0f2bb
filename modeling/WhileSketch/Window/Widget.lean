/-! Message boxes with their colours, and windows that are opened and closed. -/

namespace WhileSketch

inductive Colour where
  | gray
  | green
  | red
  | brightRed
  | yellow
  deriving DecidableEq

def Colour.name : Colour → String
  | gray => "lightgray"
  | green => "lightgreen"
  | red => "red"
  | brightRed => "red2"
  | yellow => "yellow"

/-- A message and the colour in which its box has last lit up. -/
structure Notice where
  text : String
  colour : Colour

namespace Notice

def blank : Notice := ⟨"", .gray⟩

def clear (n : Notice) : Notice := { n with text := "" }

def success (text : String) : Notice := ⟨text, .green⟩

def failure (text : String) : Notice := ⟨text, .red⟩

end Notice

/-- A window and what is in it. A closed window keeps what was last in it. -/
inductive Pane (α : Type) where
  | unopened
  | shown (content : α)
  | closed (content : α)

namespace Pane

variable {α : Type}

def content? : Pane α → Option α
  | shown a => some a
  | _ => none

def last? : Pane α → Option α
  | unopened => none
  | shown a => some a
  | closed a => some a

def close : Pane α → Pane α
  | shown a => closed a
  | p => p

def openWith (p : Pane α) (fresh : α) : Pane α :=
  match p with
  | shown a => shown a
  | _ => shown fresh

def modify (f : α → α) : Pane α → Pane α
  | shown a => shown (f a)
  | p => p

end Pane

end WhileSketch
