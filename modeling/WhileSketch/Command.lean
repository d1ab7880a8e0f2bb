import WhileSketch.Grammar.Derivation
import WhileSketch.Samples
import WhileSketch.Tree.Tour
import WhileSketch.Tree.Spec
import WhileSketch.Tree.Walk

/-! The command that reads a sentence by the grammar in a file, and the commands that can be given in
a line of words. -/

namespace WhileSketch

structure RunResult where
  stdout : String
  stderr : String
  exitCode : Nat

namespace RunResult

def success (stdout : String) : RunResult := ⟨stdout, "", 0⟩

def failure (stderr : String) : RunResult := ⟨"", stderr, 1⟩

end RunResult

namespace Grammar

def fileLines (contents : String) : List String :=
  (Text.splitAt '\n' contents).flatMap (Text.splitAt '\r')

/-- What is printed about a sentence, with all charts if asked for. -/
def report (g : Grammar) (s : Sentence) (showCharts : Bool) : String :=
  let charts := Recognition.charts g s
  let rows := Recognition.completeRows charts
  (if showCharts then Recognition.renderCharts charts else "") ++
    if rows.isEmpty then "==> Sentence is invalid.\n"
    else "==> Sentence is valid.\nValid parse trees:\n" ++ renderTrees (rows.map Row.tree) ++ "\n"

/-- Runs the command with the given arguments, where `readFile` gives the contents of a file that
exists. -/
def command (readFile : String → Option String) (args : List String) : Except Fault RunResult :=
  match args with
  | file :: sentence :: rest =>
    match readFile file with
    | none => .ok (.failure ("Error reading file " ++ file
        ++ ": [Errno 2] No such file or directory: " ++ Text.quoted file ++ "\n"))
    | some contents => do
      let g ← Grammar.ofLines (fileLines contents)
      return .success (g.report (Sentence.ofText sentence) (rest == ["--debug"]))
  | _ => .ok (.failure "Usage: earley.py <grammar.cfg> <sentence> [--debug]\n")

end Grammar

inductive Command where
  | sentence
  | sample
  | samples
  | walk
  | scan
  /-- Selects a suite of checks; there is none to select. -/
  | suite
  | idle
  | silent

namespace Command

def walked : Spec :=
  .tuple [.num 1, .list [.tuple [.num 2, .list [.num 3, .num 4, .num 5]],
    .tuple [.num 6, .list [.tuple [.num 7, .list [.num 8]], .num 9]]]]

def scanned : Spec :=
  .tuple [.num 1, .list [.num 2, .num 3]]

def walkText (t : Tree Label) : String :=
  t.plain ++ "\n[" ++ ", ".intercalate (t.labels.map Label.quoted) ++ "]\n"

def run (solver : Solver) (readFile : String → Option String) (args : List String) :
    Command → Except Fault RunResult
  | sentence => Grammar.command readFile args
  | sample => do return .success (">> Valid program.\n" ++ (← Sample.divisor.report solver))
  | samples => do
    let reports ← [Sample.counters, .sum, .subtraction].mapM (Sample.report solver)
    return .success (String.join reports)
  | walk => do return .success (walkText (← walked.build))
  | scan => do
    let paths ← (← scanned.build).scan .value
    return .success ("[" ++ ", ".intercalate (paths.map Path.render) ++ "]\n")
  | suite =>
    .ok (.success (if args.isEmpty then
      "No arguments were passed. Please provide some arguments.\n"
      else "Invalid case selected.\n"))
  | idle => .ok (.success "Nothing to do here :)\n")
  | silent => .ok (.success "")

def ofName? : String → Option Command
  | "sentence" => some sentence
  | "sample" => some sample
  | "samples" => some samples
  | "walk" => some walk
  | "scan" => some scan
  | "suite" => some suite
  | "idle" => some idle
  | _ => none

end Command

end WhileSketch
