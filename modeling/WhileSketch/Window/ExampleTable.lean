import WhileSketch.Synthesis.Examples
import WhileSketch.Text.Numeral
import WhileSketch.Window.Widget

/-! The table in which examples are typed, and the examples that have been saved. -/

namespace WhileSketch

/-- The texts that are typed for one variable. An empty text says nothing. -/
structure Cell where
  input : String
  output : String
  deriving DecidableEq

def Cell.blank : Cell := ⟨"", ""⟩

abbrev TypedExample := List (String × Cell)

namespace TypedExample

def isNumber (s : String) : Bool :=
  (Text.readInt s).isOk

def isEntry (s : String) : Bool :=
  s.isEmpty || isNumber s

def misfit? (e : TypedExample) : List String → Except Fault (Option String)
  | [] => .ok none
  | x :: xs =>
    match e.reverse.lookup x with
    | none => .error (.noSuchKey (Text.quoted x))
    | some c => if isEntry c.input && isEntry c.output then misfit? e xs else .ok (some x)

/-- What is wrong with the first example that is not made of numbers; the examples are counted from
the given number on. -/
def complaint? (vars : List String) : Nat → List TypedExample → Except Fault (Option String)
  | _, [] => .ok none
  | n, e :: es => do
    match ← misfit? e vars with
    | some x =>
      return some ("Input value for parameter '" ++ x ++ "', in example '" ++ toString n
        ++ "' is not a number or an empty string.")
    | none => complaint? vars (n + 1) es

def values (text : Cell → String) (e : TypedExample) : Except Fault Settings := do
  let given := e.filter fun (_, c) => !(text c).isEmpty
  given.mapM fun (x, c) => do
    return (x, ← (Text.readInt (text c)).mapError (Fault.ofNumeral (text c)))

def inputs (es : List TypedExample) : Except Fault (List Settings) :=
  es.mapM (values Cell.input)

def outputs (es : List TypedExample) : Except Fault (List Settings) :=
  es.mapM (values Cell.output)

end TypedExample

/-- A row of the table. Rows are told apart by numbers. -/
structure ExampleRow where
  id : Nat
  cells : TypedExample

structure ExampleTable where
  vars : List String
  rows : List ExampleRow
  next : Nat

namespace ExampleTable

/-- The example that says what another one says about the given variables. -/
def restrict (vars : List String) (e : TypedExample) : TypedExample :=
  vars.map fun x => (x, (e.lookup x).getD .blank)

def add (t : ExampleTable) (e : TypedExample) : ExampleTable :=
  ⟨t.vars, t.rows ++ [⟨t.next, restrict t.vars e⟩], t.next + 1⟩

/-- The table for the given variables and examples. Without examples it has an empty row. -/
def ofExamples (vars : List String) (es : List TypedExample) : ExampleTable :=
  let empty : ExampleTable := ⟨vars, [], 0⟩
  if es.isEmpty then empty.add [] else es.foldl add empty

def delete (t : ExampleTable) (row : Nat) : ExampleTable :=
  { t with rows := t.rows.eraseIdx row }

def type (t : ExampleTable) (row column : Nat) (isOutput : Bool) (text : String) : ExampleTable :=
  let change := fun (c : Cell) =>
    if isOutput then { c with output := text } else { c with input := text }
  { t with rows := t.rows.modify row fun r =>
      { r with cells := r.cells.modify column fun (x, c) => (x, change c) } }

def examples (t : ExampleTable) : List TypedExample :=
  t.rows.map ExampleRow.cells

end ExampleTable

/-- The variables of the program for which examples are given, the examples that were saved last,
and the values in them. -/
structure ExampleStore where
  vars : List String
  saved : List TypedExample
  inputs : List Settings
  outputs : List Settings

namespace ExampleStore

def empty : ExampleStore := ⟨[], [], [], []⟩

/-- Drops the saved examples if they are about other variables. -/
def retarget (s : ExampleStore) (vars : List String) : ExampleStore :=
  if vars = s.vars then s else { s with vars := vars, saved := [] }

def save (s : ExampleStore) (t : ExampleTable) : Except Fault (ExampleStore × Notice) := do
  match ← TypedExample.complaint? t.vars 1 t.examples with
  | some complaint => return (s, .failure ("Error: " ++ complaint))
  | none =>
    return (⟨s.vars, t.examples, ← TypedExample.inputs t.examples,
      ← TypedExample.outputs t.examples⟩, .success "Examples saved successfully.")

end ExampleStore

end WhileSketch
