import WhileSketch.Lambda.Printing
import WhileSketch.Lambda.Pure
import WhileSketch.Lambda.Typed
import WhileSketch.Lexing.Token
import WhileSketch.Main
import WhileSketch.Tree.Relabel
import WhileSketch.Tree.Substitution
import WhileSketch.Tree.Tour
import WhileSketch.Window.Application
import WhileSketch.Proofs.Logic.Meaning
import WhileSketch.Proofs.While.Execution
import WhileSketch.Proofs.While.Weakest
import WhileSketch.Proofs.While.Programs
import WhileSketch.Proofs.Failure
import WhileSketch.Proofs.While.Verification
import WhileSketch.Proofs.While.Quotients
import WhileSketch.Proofs.Grammar.Derivations
import WhileSketch.Proofs.Lexing.Scanning
import WhileSketch.Proofs.Lexing.Segments
import WhileSketch.Proofs.Lexing.Respacing
import WhileSketch.Proofs.Lexing.Bracketing
import WhileSketch.Proofs.While.Tokens
import WhileSketch.Proofs.While.ConcreteSyntax
import WhileSketch.Proofs.While.Derivations
import WhileSketch.Proofs.While.Layout
import WhileSketch.Proofs.While.RoundTrip
import WhileSketch.Proofs.Synthesis.Filling
import WhileSketch.Proofs.Synthesis.FilledText
import WhileSketch.Proofs.Synthesis.FilledWeakest
import WhileSketch.Proofs.Synthesis.Questions
import WhileSketch.Proofs.Synthesis.ByExample
import WhileSketch.Proofs.Synthesis.FullExamples
import WhileSketch.Proofs.While.Unrolling
import WhileSketch.Proofs.While.Quiet
import WhileSketch.Proofs.Synthesis.Preparation
import WhileSketch.Proofs.Synthesis.Refinement
import WhileSketch.Proofs.Synthesis.Refutation
import WhileSketch.Proofs.Grammar.Recognition
import WhileSketch.Proofs.Text.Words
import WhileSketch.Proofs.While.Succession
import WhileSketch.Proofs.While.Legibility
import WhileSketch.Proofs.While.Limits
import WhileSketch.Proofs.While.Invariants
import WhileSketch.Proofs.Logic.Occurrences
import WhileSketch.Proofs.While.Rereading
import WhileSketch.Proofs.Synthesis.Naming
import WhileSketch.Proofs.Synthesis.FilledProgram
import WhileSketch.Proofs.Synthesis.Candidates
import WhileSketch.Proofs.Synthesis.History
import WhileSketch.Proofs.Synthesis.Agreement
import WhileSketch.Proofs.While.Liveness
import WhileSketch.Proofs.Synthesis.Lessons
import WhileSketch.Proofs.Synthesis.Protocol
import WhileSketch.Proofs.Grammar.Lookahead
import WhileSketch.Proofs.Grammar.SingleTree
import WhileSketch.Proofs.Grammar.Termination
import WhileSketch.Proofs.Tree.Nodes
import WhileSketch.Proofs.Tree.Walks
import WhileSketch.Proofs.While.RemainingLoops
import WhileSketch.Proofs.While.Atoms
import WhileSketch.Proofs.While.Assertions
import WhileSketch.Proofs.Lambda.Terms
import WhileSketch.Proofs.Lambda.Derivations
import WhileSketch.Proofs.Lambda.Parameters
import WhileSketch.Proofs.Lambda.Spines
import WhileSketch.Proofs.Lambda.Parsing
import WhileSketch.Proofs.Lambda.RoundTrip
import WhileSketch.Proofs.Window.Actions
import WhileSketch.Proofs.Window.SavedExamples
import WhileSketch.Proofs.Window.OutputBox
import WhileSketch.Proofs.Synthesis.NamedProgram
import WhileSketch.Proofs.Synthesis.Separation
import WhileSketch.Proofs.Synthesis.FilledPrint
import WhileSketch.Proofs.Synthesis.Widening
import WhileSketch.Proofs.Window.SearchWindow
import WhileSketch.Proofs.Tree.Matching
import WhileSketch.Proofs.Tree.Templates
import WhileSketch.Proofs.Tree.Cells
import WhileSketch.Proofs.Tree.Splicing
import WhileSketch.Proofs.Tree.InPlace
import WhileSketch.Proofs.Lambda.Ambiguity
import WhileSketch.Proofs.Lambda.PrintedWords
import WhileSketch.Proofs.Lambda.Recovery
import WhileSketch.Proofs.Lambda.TypedRoundTrip
import WhileSketch.Proofs.Arithmetic.Feasibility
import WhileSketch.Proofs.Logic.Bounds
import WhileSketch.Proofs.Logic.Polynomials
import WhileSketch.Proofs.Logic.Search
import WhileSketch.Proofs.Logic.Decision
import WhileSketch.Proofs.Tree.Mirrors
import WhileSketch.Proofs.Tree.SureRules
import WhileSketch.Proofs.Tree.Rules
