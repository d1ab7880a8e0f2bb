import WhileSketch.Logic.Condition
import WhileSketch.Fault

/-! Examples of inputs and outputs, one entry for each variable of a program. -/

namespace WhileSketch

/-- The values of the variables, in order, as far as they are given. -/
abbrev Entries := List (Option Int)

abbrev Settings := List (String × Int)

def Settings.render (s : Settings) : String :=
  "\x7b" ++ ", ".intercalate (s.map fun (x, n) => Text.quoted x ++ ": " ++ toString n) ++ "\x7d"

structure Examples where
  inputs : List Entries
  outputs : List Entries

namespace Examples

def empty : Examples := ⟨[], []⟩

def add (e : Examples) (input output : Entries) : Examples :=
  ⟨e.inputs ++ [input], e.outputs ++ [output]⟩

/-- The entries for the variables of a program; nothing if a name is not one of them. -/
def entries? (vars : List String) (settings : Settings) : Option Entries :=
  if settings.all fun (x, _) => vars.contains x then
    some (vars.map fun x => settings.reverse.lookup x)
  else none

/-- Adds an example that is given by names, unless it says nothing or names a variable that is
not there. -/
def addNamed (e : Examples) (vars : List String) (inputs outputs : Settings) :
    Transcript Examples := do
  if vars.isEmpty then
    Transcript.say "Error: no vars in the program"
    return e
  Transcript.say ("pvars:  " ++ Text.quotedList vars)
  if inputs.isEmpty && outputs.isEmpty then return e
  match entries? vars inputs, entries? vars outputs with
  | some i, some o => return e.add i o
  | _, _ =>
    Transcript.say "Error: input/output variable not found in program"
    return e

/-- The settings of the variables that have an entry. -/
def settings (vars : List String) (entries : Entries) : Settings :=
  (vars.zip entries).filterMap fun (x, n?) => n?.map fun n => (x, n)

def holds (settings : Settings) : Assertion := fun env =>
  settings.foldlM (fun v (x, n) => do
    Value.conj [v, ← Value.operate .eq (← env.get x) (.int n)]) (.bool true)

structure Requirement where
  inputs : Settings
  outputs : Settings

def reportSettings (heading : String) (settings : Settings) : Transcript Unit := do
  Transcript.say ("\nadding conditions to " ++ heading ++ ":")
  settings.forM fun (x, n) => Transcript.say ("var = " ++ x ++ ", value = " ++ toString n)

def requirements (e : Examples) (vars : List String) : Transcript (List Requirement) :=
  (e.inputs.zip e.outputs).mapM fun (i, o) => do
    let r : Requirement := ⟨settings vars i, settings vars o⟩
    reportSettings "P" r.inputs
    reportSettings "Q" r.outputs
    Transcript.say "\n"
    return r

end Examples

end WhileSketch
