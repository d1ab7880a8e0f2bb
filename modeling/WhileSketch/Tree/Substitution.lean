import WhileSketch.Tree.Edit
import WhileSketch.Tree.Pattern
import WhileSketch.Tree.Walk

/-! Substitutions: transformations that put labels, trees or lists of trees in place of labels,
trees, or whatever matches a pattern. -/

namespace WhileSketch

inductive Target where
  | label (l : Label)
  | tree (t : Tree Label)

def Target.isRoot : Target → Label → Bool
  | label l, r => r.agrees l
  | tree _, _ => false

/-- The tree that is looked for; a label stands for a single node. -/
def Target.asTree : Target → Tree Label
  | label l => .leaf l
  | tree t => t

def Target.isKey : Target → Target → Bool
  | .label l, .label m => l.agrees m
  | .tree t, .tree u => t.agrees u
  | _, _ => false

/-- Whether a target may be a key: the list mark may not. -/
def Target.mayBeKey : Target → Bool
  | .label l => !l.isSplice
  | .tree t => !(t.labels.any Label.isSplice)

namespace Substitution

section Generic

variable {m : Type → Type} [Monad m] {τ : Type}

inductive Supply (m : Type → Type) (τ : Type) where
  /-- A tree, always the same one. -/
  | tree (t : τ)
  | trees (make : m τ)
  | root (l : Label)

def Supply.ofBinding (F : Forest m τ) : Binding τ → Supply m τ
  | .tree t => .tree t
  | .trees ts => .trees (F.make .splice ts)
  | .root l => .root l

def Supply.asTree (F : Forest m τ) : Supply m τ → m τ
  | .tree t => return t
  | .trees make => make
  | .root l => F.make l []

/-- Puts what is supplied in the place of a target. A label or a list takes the place of a root
with the label looked for, whatever is below it; a tree takes the place of the very tree looked
for. -/
def transformer (F : Forest m τ) (what : Target) (supply : Supply m τ) : Transformer m τ :=
  fun t => do
    let r ← F.root t
    match supply, what.isRoot r with
    | .root l, true => return some (.relabel l)
    | .trees make, true => return some (.replace (← make))
    | _, _ =>
      if !r.agrees what.asTree.root then return none
      if (← F.value t).agrees what.asTree then return some (.replace (← supply.asTree F))
      return none

def simple (F : Forest m τ) (subs : List (Target × Supply m τ)) : Transform m τ where
  transformers := subs.map fun s => transformer F s.1 s.2
  direction := .topDown
  recurse := false
  descending := false
  relabel := fun _ => return none

end Generic

/-- Adds a pair; a target that is there already keeps its place. -/
def insertPair {α : Type} (what : Target) (binding : α) :
    List (Target × α) → List (Target × α)
  | [] => [(what, binding)]
  | e :: rest =>
    if what.isKey e.1 then (e.1, binding) :: rest else e :: insertPair what binding rest

/-- Pairs of which a later one overrides an earlier one with the same target. -/
def checkPairs {α : Type} (pairs : List (Target × α)) : Except Fault (List (Target × α)) := do
  unless pairs.all (fun p => Target.mayBeKey p.1) do throw (.notAKey "list")
  return pairs.foldl (fun acc p => insertPair p.1 p.2 acc) []

def ofPairs (pairs : List (Target × Binding (Tree Label))) :
    Except Fault (Transform (Except Fault) (Tree Label)) := do
  return simple Tree.forest ((← checkPairs pairs).map fun p => (p.1, .ofBinding Tree.forest p.2))

/-- Supplies nodes with the labels of a value: a tree or a list is there once, and the same one is
put in each place. -/
def Supply.ofValue : Binding (Tree Label) → StoreM (Supply StoreM Nat)
  | .tree t => return .tree (← Store.forest.plant t)
  | .trees ts => do
    let l ← Store.allocate (.list (← Store.forest.plantAll ts))
    return .trees (Store.allocate (.node .splice l))
  | .root l => return .root l

def ofPairsInStore (pairs : List (Target × Binding (Tree Label))) :
    StoreM (Transform StoreM Nat) := do
  return simple Store.forest
    (← (← checkPairs pairs).mapM fun p => return (p.1, ← Supply.ofValue p.2))

section Generic

variable {m : Type → Type} [Monad m] [MonadExceptOf Fault m] {τ : Type} (F : Forest m τ)

def ofRenaming (pairs : List (Label × Label)) : Transform m τ where
  transformers := []
  direction := .topDown
  recurse := false
  descending := false
  relabel := fun l =>
    if l.isSplice then throw (.notAKey "list")
    else return (pairs.reverse.find? fun p => p.1.agrees l).map Prod.snd

/-- The template with the groups of a match put in place of their names. -/
def instantiate (groups : Groups τ) (template : Tree Label) : m τ := do
  let tf := simple F (groups.map fun e => (.label e.1, .ofBinding F e.2))
  tf.applyWithin F template.size (← F.plant template)

inductive Augment where
  | tree (t : Tree Label)
  | copy (key : Label)
  | root (key : Label)
  | count (key : Label)

def Augment.binding (groups : Groups τ) : Augment → m (Binding τ)
  | tree t => return .tree (← F.plant t)
  | copy k => groups.get k
  | root k => do
    match ← groups.get k with
    | .tree t => return .root (← F.root t)
    | b => throw (.noAttribute b.kind "root")
  | count k => do
    match ← groups.get k with
    | .trees ts => return .root (.num ts.length)
    | .tree _ => throw (.noLength "Tree")
    | .root (.num _) => throw (.noLength "int")
    | .root l => return .root (.num l.plain.length)

/-- A rule: what to look for, what to put there, and groups to compute in between. -/
structure Rule where
  pattern : Pattern
  template : Tree Label
  augment : Option (List (Label × Augment))

def Rule.augmented (rule : Rule) (groups : Groups τ) : m (Groups τ) :=
  (rule.augment.getD []).foldlM (fun g e => return g.set e.1 (← e.2.binding F g)) groups

/-- Puts the template of a rule in place of what its pattern matches. -/
def Rule.transformer (rule : Rule) : Transformer m τ := fun t => do
  match ← rule.pattern.matchIn F t with
  | none => return none
  | some groups =>
    return some (.replace (← instantiate F (← rule.augmented F groups) rule.template))

def Rule.render (rule : Rule) : String :=
  match rule.augment with
  | none => rule.template.quoted
  | some augment =>
    rule.template.quoted ++ "; (aug. " ++ ",".intercalate (augment.map fun e => e.1.quoted) ++ ")"

def ofRules (rules : List Rule) : Transform m τ where
  transformers := rules.map (Rule.transformer F)
  direction := .topDown
  recurse := false
  descending := false
  relabel := fun _ => return none

end Generic

end Substitution

end WhileSketch
