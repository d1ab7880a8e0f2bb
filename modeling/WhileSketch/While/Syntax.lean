import WhileSketch.Logic.Value
import WhileSketch.Tree.Basic

/-! Statements and expressions of While programs. -/

namespace WhileSketch.While

inductive Expr where
  | var (name : String)
  | num (n : Int)
  | operate (op : Operator) (a b : Expr)
  | invalid (fault : Fault)

inductive Stmt where
  | skip
  | assign (name : String) (e : Expr)
  | seq (a b : Stmt)
  | ite (c : Expr) (a b : Stmt)
  /-- A conditional step of a loop that has been unrolled. -/
  | step (c : Expr) (a b : Stmt)
  | loop (c : Expr) (body : Stmt)
  | assert (c : Expr)
  /-- The claim that a loop that has been unrolled is at its end. -/
  | exit (c : Expr)
  | invalid (fault : Fault)

def Expr.ofParts (r : Label) (ts : List (Tree Label)) (operands : List Expr) : Expr :=
  let operand := fun i => operands.getD i (.invalid .noSuchItem)
  if r.isWord "id" then
    match ts.head?.map Tree.root with
    | none => .invalid .noSuchItem
    | some .splice => .invalid (.notAKey "list")
    | some name => .var name.plain
  else if r.isWord "num" then
    match ts.head?.map Tree.root with
    | none => .invalid .noSuchItem
    | some (.num n) => .num n
    | some l => .invalid (.unknownExpr l.plain)
  else match r.text?.bind Operator.ofProgramSign? with
    | some op => .operate op (operand 0) (operand 1)
    | none => .invalid (if r.isSplice then .notAKey "list" else .unknownExpr r.plain)

mutual

def Expr.ofTree : Tree Label → Expr
  | .node r ts => Expr.ofParts r ts (Expr.ofTrees ts)

def Expr.ofTrees : List (Tree Label) → List Expr
  | [] => []
  | t :: ts => Expr.ofTree t :: Expr.ofTrees ts

end

def Stmt.ofParts (r : Label) (ts : List (Tree Label)) (parts : List Stmt) : Stmt :=
  let conditions := ts.map Expr.ofTree
  if r.isWord "skip" then .skip
  else if r.isWord ":=" then
    match ts with
    | .node _ (name :: _) :: e :: _ => .assign name.root.plain (Expr.ofTree e)
    | _ => .invalid .noSuchItem
  else if r.isWord ";" then
    match parts with
    | a :: b :: _ => .seq a b
    | _ => .invalid .noSuchItem
  else if r.isWord "if" || r.isWord "if_unrolled" then
    match conditions, parts with
    | c :: _, _ :: a :: b :: _ => if r.isWord "if" then .ite c a b else .step c a b
    | _, _ => .invalid .noSuchItem
  else if r.isWord "while" then
    match conditions, parts with
    | c :: _, _ :: body :: _ => .loop c body
    | _, _ => .invalid .noSuchItem
  else if r.isWord "assert" || r.isWord "assert_unrolled" then
    match conditions with
    | c :: _ => if r.isWord "assert" then .assert c else .exit c
    | _ => .invalid .noSuchItem
  else .invalid (.unknownStmt r.plain)

mutual

def Stmt.ofTree : Tree Label → Stmt
  | .node r ts => Stmt.ofParts r ts (Stmt.ofTrees ts)

def Stmt.ofTrees : List (Tree Label) → List Stmt
  | [] => []
  | t :: ts => Stmt.ofTree t :: Stmt.ofTrees ts

end

end WhileSketch.While
