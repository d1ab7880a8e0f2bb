import WhileSketch.Grammar.Basic

/-! Charts: rules that have been read up to some point, and where their reading began. -/

namespace WhileSketch

/-- A rule, the number of its symbols that have been read, and the place where reading it began. -/
structure Item where
  rule : Rule
  dot : Nat
  start : Nat
  deriving DecidableEq

namespace Item

def isComplete (i : Item) : Bool :=
  i.rule.length == i.dot

def next? (i : Item) : Option String :=
  i.rule.rhs[i.dot]?

def last? (i : Item) : Option String :=
  if i.dot = 0 then none else i.rule.rhs[i.dot - 1]?

/-- The symbol read last, which an item whose dot is beyond the end of its rule does not have. -/
def checkedLast (i : Item) : Except Fault (Option String) :=
  if i.rule.length < i.dot then .error .noSuchItem else .ok i.last?

def advance (i : Item) : Item :=
  { i with dot := i.dot + 1 }

/-- The rule with a dot between what has been read and what has not. -/
def renderRule (i : Item) : String :=
  i.rule.lhs ++ " -> " ++ " ".intercalate (i.rule.rhs.take i.dot ++ "." :: i.rule.rhs.drop i.dot)

def render (i : Item) : String :=
  i.renderRule ++ " [" ++ toString i.start ++ "]"

end Item

inductive Row where
  | fresh (item : Item)
  /-- An item that comes from `previous`, by a symbol that `completing` has read. -/
  | advanced (item : Item) (previous completing : Row)

namespace Row

def item : Row → Item
  | fresh i => i
  | advanced i _ _ => i

def render : Row → String
  | fresh i => show_ i "None" "None"
  | advanced i previous completing => show_ i completing.render previous.render
where
  show_ (i : Item) (completing previous : String) : String :=
    "<Row [" ++ i.renderRule ++ "] [" ++ toString i.start ++ "]> completes (" ++ completing
      ++ ") follows (" ++ previous ++ ")"

end Row

/-- Rows with different items, in the order in which they were added. -/
structure Chart where
  rows : Array Row

namespace Chart

def empty : Chart := ⟨#[]⟩

def size (c : Chart) : Nat :=
  c.rows.size

def contains (c : Chart) (i : Item) : Bool :=
  c.rows.any fun r => r.item.dot == i.dot && r.item.start == i.start && r.item.rule == i.rule

def add (c : Chart) (r : Row) : Chart :=
  if c.contains r.item then c else ⟨c.rows.push r⟩

def render (c : Chart) : String :=
  "<Chart>\n\t" ++ "\n\t".intercalate (c.rows.toList.map Row.render) ++ "\n</Chart>"

end Chart

end WhileSketch
