import WhileSketch.Tree.Forest

/-! Patterns that trees are matched against, and the groups that a match binds. -/

namespace WhileSketch

inductive Binding (τ : Type) where
  | tree (t : τ)
  | trees (ts : List τ)
  | root (l : Label)

namespace Binding

def value {m : Type → Type} [Monad m] {τ : Type} (F : Forest m τ) :
    Binding τ → m (Binding (Tree Label))
  | tree t => return .tree (← F.value t)
  | trees ts => return .trees (← ts.mapM F.value)
  | root l => return .root l

def quoted : Binding (Tree Label) → String
  | tree t => t.quoted
  | trees ts => "[" ++ ", ".intercalate (ts.map Tree.quoted) ++ "]"
  | root l => l.quoted

def agrees : Binding (Tree Label) → Binding (Tree Label) → Bool
  | tree t, tree u => t.agrees u
  | trees ts, trees us => Tree.sameList Label.agrees ts us
  | root l, root m => l.agrees m
  | _, _ => false

def kind {τ : Type} : Binding τ → String
  | tree _ => "Tree"
  | trees _ => "list"
  | root (.num _) => "int"
  | root .splice => "list"
  | root _ => "str"

end Binding

/-- The groups of a match in the order in which their names first came up. -/
abbrev Groups (τ : Type) : Type := List (Label × Binding τ)

namespace Groups

variable {τ : Type}

def find? (g : Groups τ) (key : Label) : Option (Binding τ) :=
  (List.find? (fun e => e.1.agrees key) g).map Prod.snd

def get {m : Type → Type} [Monad m] [MonadExceptOf Fault m] (g : Groups τ) (key : Label) :
    m (Binding τ) :=
  match g.find? key with
  | some b => return b
  | none => throw (.noSuchKey key.quoted)

/-- Binds a name; a name that is bound already keeps its place. -/
def set (g : Groups τ) (key : Label) (b : Binding τ) : Groups τ :=
  match g with
  | [] => [(key, b)]
  | e :: rest => if e.1.agrees key then (e.1, b) :: rest else e :: set rest key b

def update (g h : Groups τ) : Groups τ :=
  h.foldl (fun acc e => acc.set e.1 e.2) g

def quoted (g : Groups (Tree Label)) : String :=
  "\x7b" ++ ", ".intercalate (g.map fun e => e.1.quoted ++ ": " ++ e.2.quoted) ++ "\x7d"

end Groups

inductive RootTest where
  | isNum
  | isWord
  | isSomething
  | never

def RootTest.holds : RootTest → Label → Bool
  | isNum, .num _ => true
  | isNum, _ => false
  | isWord, l => l.text?.isSome
  | isSomething, l => l.isSomething
  | never, _ => false

inductive Guard where
  | has (key : Label)
  | same (key key' : Label)
  | root (key value : Label)
  | not (g : Guard)
  deriving Inhabited

namespace Guard

def render : Guard → String
  | has k => "has " ++ k.plain
  | same k k' => "same " ++ k.plain ++ " " ++ k'.plain
  | root k v => "root " ++ k.plain ++ " " ++ v.plain
  | not g => "not " ++ g.render

def holds {m : Type → Type} [Monad m] [MonadExceptOf Fault m] {τ : Type} (F : Forest m τ)
    (groups : Groups τ) : Guard → m Bool
  | has k => return (groups.find? k).isSome
  | same k k' => do
    let a ← groups.get k
    let b ← groups.get k'
    return (← a.value F).agrees (← b.value F)
  | root k v => do
    match ← groups.get k with
    | .tree t => return (← F.root t).agrees v
    | b => throw (.noAttribute b.kind "root")
  | not g => do return !(← g.holds F groups)

def kind : Guard → String
  | not _ => "ConditionComplement"
  | _ => "FunctorCondition"

end Guard

inductive Pattern where
  | base
  | root (symbol : Label) (fan : Option Int)
  | criterion (test : RootTest) (fan : Option Int)
  | top (template : Tree Label)
  | guarded (p : Pattern) (g : Guard)
  /-- A condition on no pattern. -/
  | unfounded (g : Guard)

namespace Pattern

/-- A label that stands for any tree. -/
def isTreePlaceholder (l : Label) : Bool :=
  match l.text? with
  | some s => s.startsWith "$"
  | none => false

/-- A label that stands for any label. -/
def isRootPlaceholder (l : Label) : Bool :=
  match l.text? with
  | some s => s.startsWith "?"
  | none => false

/-- A label that stands for any number of trees. -/
def isListPlaceholder (l : Label) : Bool :=
  match l.text? with
  | some s => s.startsWith "$" && s.endsWith "..."
  | none => false

def numeral (i : Nat) : Label :=
  .word ("$" ++ toString (i + 1))

section Matching

variable {m : Type → Type} [Monad m] [MonadExceptOf Fault m] {τ : Type}

def childGroups (ts : List τ) : Groups τ :=
  ts.mapIdx fun i t => (numeral i, Binding.tree t)

def fanFits (fan : Option Int) (ts : List τ) : Bool :=
  match fan with
  | none => true
  | some n => n == ts.length

/-- What one part of a template makes of a tree: a failure, no match, or groups. -/
abbrev Matcher (m : Type → Type) (τ : Type) : Type := τ → m (Option (Groups τ))

/-- Matches parts and trees pairwise, adding up the groups. -/
def matchInTurn : List (Matcher m τ) → List τ → Groups τ → m (Option (Groups τ))
  | m :: ms, t :: ts, acc => do
    match ← m t with
    | none => return none
    | some g => matchInTurn ms ts (acc.update g)
  | _, _, acc => return some acc

/-- Matches the children of a template node, given their labels and what each makes of a tree.
Without a list placeholder the numbers of children agree and they match in turn. Around a single
list placeholder the children in front match from the left, those behind it from the right, and
the placeholder takes what lies between. -/
def matchChildren (parts : List (Label × Matcher m τ)) (ts : List τ) (acc : Groups τ) :
    m (Option (Groups τ)) :=
  match parts.filter fun part => isListPlaceholder part.1 with
  | [] =>
    if parts.length = ts.length then matchInTurn (parts.map Prod.snd) ts acc else return none
  | [(key, _)] => do
    if ts.length + 1 < parts.length then return none
    let front := parts.takeWhile fun part => !isListPlaceholder part.1
    let back := parts.drop (front.length + 1)
    match ← matchInTurn (front.map Prod.snd) ts acc with
    | none => return none
    | some g =>
      match ← matchInTurn (back.map Prod.snd).reverse ts.reverse g with
      | none => return none
      | some g =>
        let taken := ts.length - front.length - back.length
        return some (g.set key (.trees ((ts.drop front.length).take taken)))
  | ellipses =>
    if parts.length ≤ ts.length + ellipses.length then throw .manyEllipses else return none

mutual

def matchTemplate (F : Forest m τ) : Tree Label → Matcher m τ
  | .node p ps, t => do
    if isTreePlaceholder p then return some [(p, .tree t)]
    let r ← F.root t
    if isRootPlaceholder p then
      matchChildren (matchTemplates F ps) (← F.subtrees t) [(p, .root r)]
    else if p.agrees r then matchChildren (matchTemplates F ps) (← F.subtrees t) []
    else return none

def matchTemplates (F : Forest m τ) : List (Tree Label) → List (Label × Matcher m τ)
  | [] => []
  | p :: ps => (p.root, matchTemplate F p) :: matchTemplates F ps

end

def matchIn (F : Forest m τ) : Pattern → Matcher m τ
  | base, _ => throw .noRule
  | root symbol fan, t => do
    let r ← F.root t
    let ts ← F.subtrees t
    return if r.agrees symbol && fanFits fan ts then some (childGroups ts) else none
  | criterion test fan, t => do
    let r ← F.root t
    let ts ← F.subtrees t
    return if test.holds r && fanFits fan ts then
        some ((childGroups ts).set (.word "$0") (.root r))
      else none
  | top template, t => matchTemplate F template t
  | guarded p g, t => do
    match ← p.matchIn F t with
    | none => return none
    | some groups => return if ← g.holds F groups then some groups else none
  | unfounded _, _ => throw .noPattern

end Matching

def matchTree (p : Pattern) (t : Tree Label) : Except Fault (Option (Groups (Tree Label))) :=
  p.matchIn Tree.forest t

def render : Pattern → String
  | top template => template.quoted
  | guarded p g => p.render ++ " if " ++ g.render
  | unfounded g => Text.quoted "_" ++ " if " ++ g.render
  | _ => ""

end Pattern

end WhileSketch
