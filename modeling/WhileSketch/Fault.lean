import WhileSketch.Tree.Label
import WhileSketch.Text.Numeral

/-! Everything that can go wrong, as causes, the words in which each is reported, and computations
that report their progress in lines of text. -/

namespace WhileSketch

inductive Kind where
  | int
  | bool
  | intTerm
  | boolTerm
  deriving DecidableEq

def Kind.name : Kind → String
  | int => "int"
  | bool => "bool"
  | intTerm => "ArithRef"
  | boolTerm => "BoolRef"

/-- A cause for which an operation gives no result. -/
inductive Fault where
  | noTree
  | noSubtrees
  | noSuchItem
  | noSuchSlot
  | noSuchKey (key : String)
  /-- A pattern or a walk without a rule of its own. -/
  | noRule
  | manyEllipses
  | pathMember
  | prunedTwice
  /-- A collecting walk was asked for its result. -/
  | collectorArity
  | notAPair (length : Nat)
  | notIterable (kind : String)
  | notAPattern (kind condition : String)
  | noPattern
  | noAttribute (kind part : String)
  | noLength (kind : String)
  | notAKey (kind : String)
  | endless
  | badRule (line : String)
  | badTokens
  | badNumeral (text : String)
  | longNumeral (digits : Nat)
  | unbalanced (left right : String)
  | fewParts
  | manyParts
  | notAText (index : Nat) (kind : String)
  | notANumber (kind : String)
  | unknownExpr (label : String)
  | unknownStmt (label : String)
  | noArith (op : String) (left right : Kind)
  | noCompare (op : String) (left right : Kind)
  | divisionByZero
  | notBool (n : Int)
  | termNotBool
  | sortMismatch (connective : String)
  | noBoundVars
  | programNotValid
  | programHasNoHoles
  | noExamples
  | notVerified
  | notVerifiedForExamples
  | noInput
  | invalidVarName (name : String)
  | noText
  | unclosedBracket (bracket : Char)
  | unopenedBracket (bracket : Char)
  | badCondition
  deriving Inhabited

def Fault.message : Fault → String
  | noTree => "'NoneType' object has no attribute 'root'"
  | noSubtrees => "'NoneType' object has no attribute 'subtrees'"
  | noSuchItem => "list index out of range"
  | noSuchSlot => "list assignment index out of range"
  | noSuchKey key => key
  | noRule => ""
  | manyEllipses => "more than one ellipsis child"
  | pathMember => "'super' object is not subscriptable"
  | prunedTwice => "pop from empty list"
  | collectorArity => "CollectVisitor.done() takes 1 positional argument but 3 were given"
  | notAPair n =>
    if n < 2 then "not enough values to unpack (expected 2, got " ++ toString n ++ ")"
    else "too many values to unpack (expected 2)"
  | notIterable kind => "'" ++ kind ++ "' object is not iterable"
  | notAPattern kind condition =>
    "unsupported operand type(s) for &: '" ++ kind ++ "' and '" ++ condition ++ "'"
  | noPattern => "'dict' object has no attribute 'groups'"
  | noAttribute kind part =>
    "'" ++ kind ++ "' object has no attribute '" ++ part ++ "'"
  | noLength kind => "object of type '" ++ kind ++ "' has no len()"
  | notAKey kind => "unhashable type: '" ++ kind ++ "'"
  | endless => "maximum recursion depth exceeded"
  | badRule line => "invalid grammar format: '" ++ line ++ "'"
  | badTokens => "invalid token specification"
  | badNumeral text => "invalid literal for int() with base 10: " ++ Text.quoted text
  | longNumeral digits =>
    "Exceeds the limit (" ++ toString Text.maxDigits ++ " digits) for integer string conversion: value has "
      ++ toString digits ++ " digits; use sys.set_int_max_str_digits() to increase the limit"
  | unbalanced left right => "unbalanced '" ++ left ++ "' and '" ++ right ++ "'"
  | fewParts => "not enough arguments for format string"
  | manyParts => "not all arguments converted during string formatting"
  | notAText index kind =>
    "sequence item " ++ toString index ++ ": expected str instance, " ++ kind ++ " found"
  | notANumber kind =>
    "int() argument must be a string, a bytes-like object or a real number, not '" ++ kind ++ "'"
  | unknownExpr label => "Unknown expression type: " ++ label
  | unknownStmt label => "Unknown statement type: " ++ label
  | noArith op left right =>
    "unsupported operand type(s) for " ++ op ++ ": '" ++ left.name ++ "' and '" ++ right.name ++ "'"
  | noCompare op left right =>
    "'" ++ op ++ "' not supported between instances of '" ++ left.name ++ "' and '"
      ++ right.name ++ "'"
  | divisionByZero => "integer division or modulo by zero"
  | notBool n =>
    "True, False or Z3 Boolean expression expected. Received " ++ toString n
      ++ " of type <class 'int'>"
  | termNotBool => "Value cannot be converted into a Z3 Boolean value"
  | sortMismatch connective =>
    "b'Sort mismatch at argument #1 for function (declare-fun " ++ connective
      ++ " (Bool Bool) Bool) supplied sort is Int'"
  | noBoundVars => "Invalid bounded variable(s)"
  | programNotValid => "The given program can't be parsed"
  | programHasNoHoles => "The given program has no holes in it"
  | noExamples => "No input-output examples has been provided"
  | notVerified => "The given program can't be verified for all possible inputs"
  | notVerifiedForExamples =>
    "The given program can't be verified for the given input-output examples"
  | noInput => "The given program has no input which can satisfy the conditions"
  | invalidVarName name => name
  | noText => "expected string or bytes-like object, got 'NoneType'"
  | unclosedBracket c => "'" ++ c.toString ++ "' was never closed (<string>, line 1)"
  | unopenedBracket c => "unmatched '" ++ c.toString ++ "' (<string>, line 1)"
  | badCondition => "invalid syntax (<string>, line 1)"

def Fault.ofNumeral (text : String) : Text.NumeralFault → Fault
  | .malformed => .badNumeral text
  | .tooLong digits => .longNumeral digits

def itemAt {α : Type} (xs : List α) (i : Nat) : Except Fault α :=
  match xs[i]? with
  | some x => .ok x
  | none => .error .noSuchItem

/-- A computation that may fail, and the text it has reported so far. -/
abbrev Transcript := ExceptT Fault (StateM String)

namespace Transcript

def say (line : String) : Transcript Unit :=
  modify (· ++ line ++ "\n")

def outcome {α : Type} (t : Transcript α) : Except Fault α × String :=
  StateT.run (ExceptT.run t) ""

def result {α : Type} (t : Transcript α) : Except Fault α :=
  t.outcome.1

end Transcript

end WhileSketch
