import WhileSketch.Tree.Forest

/-! Transformations of trees by lists of transformers, into a new tree. -/

namespace WhileSketch

inductive Outcome (τ : Type) where
  | relabel (l : Label)
  | replace (t : τ)

/-- A transformer applies to some trees and leaves others alone. -/
abbrev Transformer (m : Type → Type) (τ : Type) : Type := τ → m (Option (Outcome τ))

inductive Direction where
  | topDown
  | bottomUp
  deriving DecidableEq

/-- A transformation: the first transformer that applies to a node decides. -/
structure Transform (m : Type → Type) (τ : Type) where
  transformers : List (Transformer m τ)
  direction : Direction
  /-- Whether the whole transformation is applied again to what replaces a node. -/
  recurse : Bool
  /-- Whether what replaces a node is transformed once more, by the other transformers. -/
  descending : Bool
  relabel : Label → m (Option Label)

namespace Transform

variable {m : Type → Type} [Monad m] {τ : Type}

def firstOutcome (transformers : List (Transformer m τ)) (t : τ) : m (Option (Nat × Outcome τ)) :=
  go 0 transformers
where
  go (i : Nat) : List (Transformer m τ) → m (Option (Nat × Outcome τ))
    | [] => return none
    | f :: rest => do
      match ← f t with
      | some o => return some (i, o)
      | none => go (i + 1) rest

def without (tf : Transform m τ) (i : Nat) : Transform m τ :=
  { tf with transformers := tf.transformers.eraseIdx i }

/-- Treats what replaces a node, where the transformer at a position has put it there: `run`
applies a transformation to a whole tree, and `runTop` to one whose subtrees are done. -/
def reapply (F : Forest m τ) (run runTop : Transform m τ → τ → m τ) (tf : Transform m τ) (i : Nat)
    (t : τ) : m τ :=
  if tf.recurse then run tf t
  else if tf.descending then do
    let us ← (← F.subtrees t).mapM (run tf)
    runTop (tf.without i) (← F.setSubtrees t us)
  else return t

def atRoot (F : Forest m τ) (again : Nat → τ → m τ) (tf : Transform m τ) (t : τ) :
    m (Label ⊕ τ) := do
  match ← firstOutcome tf.transformers t with
  | some (_, .relabel l) => return .inl l
  | some (i, .replace u) => return .inr (← again i (← F.inPlaceOf (← F.root t) u))
  | none =>
    let r ← F.root t
    match ← tf.relabel r with
    | some l => return .inl (if l.isSomething then l else r)
    | none => return .inl r

/-- Applies a transformation, where at most so many applications are one inside the other. -/
def applyWithin [MonadExceptOf Fault m] (F : Forest m τ) : Nat → Transform m τ → τ → m τ
  | 0, _, _ => throw .endless
  | depth + 1, tf, t => do
    let run := applyWithin F depth
    let again := tf.reapply F run run
    let below := do F.splice (← (← F.subtrees t).mapM (run tf))
    let r ← F.root t
    match tf.direction with
    | .topDown =>
      match ← tf.atRoot F again t with
      | .inr u => F.inPlaceOf r u
      | .inl l => F.inPlaceOf r (← F.make l (← below))
    | .bottomUp =>
      let u ← F.make r (← below)
      match ← tf.atRoot F again u with
      | .inr u => F.inPlaceOf r u
      | .inl l => F.inPlaceOf r (← F.make l (← F.subtrees u))

/-- How often a transformation may be applied to its own results, one inside the other. -/
def maxNesting : Nat := 1000

def apply (tf : Transform (Except Fault) (Tree Label)) (t : Tree Label) :
    Except Fault (Tree Label) :=
  applyWithin Tree.forest (maxNesting + t.size) tf t

end Transform

end WhileSketch
