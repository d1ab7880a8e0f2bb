import WhileSketch.Logic.Condition
import WhileSketch.Text.Numeral
import WhileSketch.Text.Word

/-! Conditions read from their text. -/

namespace WhileSketch.ConditionText

inductive Part where
  | bracket (c : Char)
  | comma
  | name (s : String)
  | numeral (n : Nat)
  | text (s : String)
  | sign (op : Operator)

def hexChar (digits : Nat) (cs : List Char) : Char :=
  Char.ofNat ((cs.take digits).foldl (fun n c =>
    16 * n + if c.isDigit then c.toNat - '0'.toNat else c.toNat - 'a'.toNat + 10) 0)

/-- What stands between quotes, with escapes resolved, and what follows the closing quote. The
first number counts the characters that belong to an escape and are passed over. -/
def unquote (quote : Char) : Nat → List Char → Option (List Char × List Char)
  | _, [] => none
  | skip + 1, _ :: cs => unquote quote skip cs
  | 0, '\\' :: c :: cs =>
    let (resolved, skip) := match c with
      | 'n' => ('\n', 0)
      | 't' => ('\t', 0)
      | 'r' => ('\r', 0)
      | 'x' => (hexChar 2 cs, 2)
      | 'u' => (hexChar 4 cs, 4)
      | 'U' => (hexChar 8 cs, 8)
      | c => (c, 0)
    (unquote quote skip cs).map fun (s, rest) => (resolved :: s, rest)
  | 0, c :: cs =>
    if c = quote then some ([], cs)
    else (unquote quote 0 cs).map fun (s, rest) => (c :: s, rest)

def operator? (cs : List Char) : Option Operator :=
  (Operator.ofSign? (String.ofList (cs.take 2))).or (Operator.ofSign? (String.ofList (cs.take 1)))

def firstPart : List Char → Option (Part × List Char)
  | [] => none
  | c :: cs =>
    if ['(', ')', '[', ']'].contains c then some (.bracket c, cs)
    else if c = ',' then some (.comma, cs)
    else if c = '\'' || c = '"' then
      (unquote c 0 cs).map fun (s, rest) => (.text (String.ofList s), rest)
    else if c.isDigit then
      let digits := (c :: cs).takeWhile Char.isDigit
      some (.numeral (Text.ofDigits (digits.map fun d => d.toNat - '0'.toNat)),
        (c :: cs).drop digits.length)
    else if Text.isNameStart c then
      let name := (c :: cs).takeWhile Text.isWordChar
      some (.name (String.ofList name), (c :: cs).drop name.length)
    else
      (operator? (c :: cs)).map fun op => (.sign op, (c :: cs).drop op.sign.length)

def partsWithin : Nat → List Char → Option (List Part)
  | 0, cs => if cs.all Text.isBlank then some [] else none
  | fuel + 1, cs =>
    match cs.dropWhile Text.isBlank with
    | [] => some []
    | c :: cs => do
      let (p, rest) ← firstPart (c :: cs)
      return p :: (← partsWithin fuel rest)

def parts (s : String) : Option (List Part) :=
  partsWithin s.length s.toList

/-- The cause why the brackets among parts do not match, where `unclosed` are those that are not
yet closed, the innermost one first. -/
def bracketFault? (unclosed : List Char) : List Part → Option Fault
  | [] => unclosed.head?.map .unclosedBracket
  | .bracket c :: ps =>
    if c = '(' || c = '[' then bracketFault? (c :: unclosed) ps
    else match unclosed with
      | [] => some (.unopenedBracket c)
      | _ :: outer => bracketFault? outer ps
  | _ :: ps => bracketFault? unclosed ps

def level : Operator → Nat
  | .mul | .div => 2
  | .add | .sub => 1
  | _ => 0

mutual

/-- Reads an expression whose operators bind at least as strongly as a level says. -/
def expression : Nat → Nat → List Part → Option (Condition × List Part)
  | 0, _, _ => none
  | fuel + 1, lev, ps =>
    if lev = 3 then atom fuel ps
    else do
      let (a, rest) ← expression fuel (lev + 1) ps
      continued fuel lev a rest

/-- Reads what follows the first operand of an expression. Comparisons do not follow each other. -/
def continued : Nat → Nat → Condition → List Part → Option (Condition × List Part)
  | fuel + 1, lev, a, .sign op :: ps =>
    if level op = lev then do
      let (b, rest) ← expression fuel (lev + 1) ps
      if lev = 0 then return (.operate op a b, rest)
      else continued fuel lev (.operate op a b) rest
    else some (a, .sign op :: ps)
  | _, _, a, ps => some (a, ps)

def atom : Nat → List Part → Option (Condition × List Part)
  | _, .numeral n :: rest => some (.int n, rest)
  | _, .sign .sub :: .numeral n :: rest => some (.int (-n), rest)
  | _, .name "True" :: rest => some (.bool true, rest)
  | _, .name "False" :: rest => some (.bool false, rest)
  | _, .name "d" :: .bracket '[' :: .text s :: .bracket ']' :: rest => some (.var s, rest)
  | fuel + 1, .bracket '(' :: ps => do
    let (a, rest) ← expression fuel 0 ps
    match rest with
    | .bracket ')' :: rest => return (a, rest)
    | _ => none
  | fuel + 1, .name f :: .bracket '(' :: ps => do
    let (args, rest) ← arguments fuel ps
    match f, args with
    | "And", cs => return (.all cs, rest)
    | "Or", cs => return (.any cs, rest)
    | "Not", [a] => return (.not a, rest)
    | "Implies", [a, b] => return (.implies a b, rest)
    | _, _ => none
  | _, _ => none

def arguments : Nat → List Part → Option (List Condition × List Part)
  | _, .bracket ')' :: rest => some ([], rest)
  | 0, _ => none
  | fuel + 1, ps => do
    let (a, rest) ← expression fuel 0 ps
    match rest with
    | .comma :: rest =>
      let (args, rest) ← arguments fuel rest
      return (a :: args, rest)
    | .bracket ')' :: rest => return ([a], rest)
    | _ => none

end

def read (s : String) : Except Fault Condition :=
  match parts s with
  | none => .error .badCondition
  | some ps =>
    match bracketFault? [] ps, expression (8 * ps.length + 8) 0 ps with
    | some f, _ => .error f
    | none, some (c, []) => .ok c
    | none, _ => .error .badCondition

end WhileSketch.ConditionText
