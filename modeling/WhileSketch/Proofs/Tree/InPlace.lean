import Mathlib
import WhileSketch.Proofs.Failure
import WhileSketch.Proofs.Tree.Cells
import WhileSketch.Proofs.Tree.Matching
import WhileSketch.Tree.Substitution

/-! Transformations in place give the tree that transformations into a new tree give, as long as
what replaces a node shares no node that is still to be changed. -/

namespace WhileSketch

namespace Label

/-- Whether a label stays around what replaces its node. -/
def isPinned : Label → Bool
  | pinned _ => true
  | _ => false

variable {m : Type → Type} [Monad m] {τ : Type} {r : Label}

theorem inPlaceOf_eq (hr : r.isPinned = false) (l : Label) : r.inPlaceOf l = l := by
  cases r with
  | pinned w => simp [isPinned] at hr
  | _ => rfl

theorem forest_inPlaceOf_eq (hr : r.isPinned = false) (F : Forest m τ) (t : τ) :
    F.inPlaceOf r t = pure t := by
  cases r with
  | pinned w => simp [isPinned] at hr
  | _ => rfl

end Label

namespace Tree

variable {r : Label} {ts : List (Tree Label)}

def AllLabels (Q : Label → Prop) (t : Tree Label) : Prop :=
  ∀ l ∈ t.labels, Q l

variable {Q : Label → Prop}

theorem allLabels_node : (node r ts).AllLabels Q ↔ Q r ∧ ∀ t ∈ ts, t.AllLabels Q := by
  simp only [AllLabels, labels_node, List.forall_mem_cons, List.forall_mem_flatMap]

theorem allLabels_spliceAll (h : ∀ t ∈ ts, t.AllLabels Q) : ∀ t ∈ spliceAll ts, t.AllLabels Q := by
  fun_induction spliceAll ts with
  | case1 => exact h
  | case2 t ts ht ih =>
    obtain ⟨r, us⟩ := t
    simp only [List.forall_mem_cons, allLabels_node] at h
    exact ih (List.forall_mem_append.mpr ⟨h.1.2, h.2⟩)
  | case3 t ts ht ih =>
    simp only [List.forall_mem_cons] at h ⊢
    exact ⟨h.1, ih h.2⟩

def Unpinned (t : Tree Label) : Prop :=
  ∀ l ∈ t.labels, l.isPinned = false

theorem unpinned_node :
    (node r ts).Unpinned ↔ r.isPinned = false ∧ ∀ t ∈ ts, t.Unpinned :=
  allLabels_node

theorem unpinned_spliceAll (h : ∀ t ∈ ts, t.Unpinned) : ∀ t ∈ spliceAll ts, t.Unpinned :=
  allLabels_spliceAll h

end Tree

/-- What a transformer does that looks at nothing but the tree. -/
abbrev Rewrite : Type := Tree Label → Option (Outcome (Tree Label))

namespace Rewrite

def transformer (f : Rewrite) : Transformer (Except Fault) (Tree Label) :=
  fun t => .ok (f t)

def first (fs : List Rewrite) : Rewrite :=
  fun t => fs.findSome? fun f => f t

def atRoot (fs : List Rewrite) (t : Tree Label) : Label ⊕ Tree Label :=
  match first fs t with
  | none => .inl t.root
  | some (.relabel l) => .inl l
  | some (.replace u) => .inr u

def KeepsUnpinned (f : Rewrite) : Prop :=
  ∀ t, t.Unpinned → (∀ l, f t = some (.relabel l) → l.isPinned = false) ∧
    ∀ u, f t = some (.replace u) → u.Unpinned

variable {fs : List Rewrite} {t : Tree Label}

theorem isPinned_of_atRoot (hfs : ∀ f ∈ fs, f.KeepsUnpinned) (ht : t.Unpinned) {l : Label}
    (h : atRoot fs t = .inl l) : l.isPinned = false := by
  rw [atRoot] at h
  split at h
  · cases h
    obtain ⟨r, ts⟩ := t
    exact (Tree.unpinned_node.mp ht).1
  · next hfirst =>
    cases h
    obtain ⟨f, hf, hft⟩ := List.exists_of_findSome?_eq_some hfirst
    exact (hfs f hf t ht).1 _ hft
  · cases h

theorem unpinned_of_atRoot (hfs : ∀ f ∈ fs, f.KeepsUnpinned) (ht : t.Unpinned) {u : Tree Label}
    (h : atRoot fs t = .inr u) : u.Unpinned := by
  rw [atRoot] at h
  split at h
  · cases h
  · cases h
  · next hfirst =>
    cases h
    obtain ⟨f, hf, hft⟩ := List.exists_of_findSome?_eq_some hfirst
    exact (hfs f hf t ht).2 _ hft

/-- The transformer of nodes that reads a tree, and puts a new one in its place. -/
def onCopies (f : Rewrite) : Transformer StoreM Nat := fun a => do
  match f (← Store.value a) with
  | none => return none
  | some (.relabel l) => return some (.relabel l)
  | some (.replace u) => return some (.replace (← Store.forest.plant u))

def doubling : Rewrite
  | .node (.word "d") [u] => some (.replace (.node (.word "w") [u, u]))
  | _ => none

def renamed : Rewrite
  | .node (.word "a") _ => some (.relabel (.word "b"))
  | _ => none

theorem keepsUnpinned_doubling : doubling.KeepsUnpinned := by
  intro t ht
  fun_cases doubling t with
  | case1 u =>
    rw [Tree.unpinned_node] at ht
    refine ⟨by simp, ?_⟩
    rintro _ ⟨⟩
    exact Tree.unpinned_node.mpr ⟨rfl, by simpa using ht.2⟩
  | case2 => simp

theorem keepsUnpinned_renamed : renamed.KeepsUnpinned := by
  intro t _
  fun_cases renamed t with
  | case1 ts =>
    refine ⟨?_, by simp⟩
    rintro _ ⟨⟩
    rfl
  | case2 => simp

end Rewrite

namespace Transform

variable {m : Type → Type} [Monad m] {τ : Type}

/-- A transformation that does nothing but what its transformers say. -/
def bare (transformers : List (Transformer m τ)) (direction : Direction) (recurse : Bool) :
    Transform m τ where
  transformers := transformers
  direction := direction
  recurse := recurse
  descending := false
  relabel := fun _ => return none

/-! ### Into a new tree -/

section Copying

variable {fs : List Rewrite} {direction : Direction} {recurse : Bool} {depth : Nat} {r : Label}
  {t u : Tree Label} {ts us : List (Tree Label)}

def copying (fs : List Rewrite) (direction : Direction) (recurse : Bool) :
    Transform (Except Fault) (Tree Label) :=
  bare (fs.map Rewrite.transformer) direction recurse

theorem firstOutcome_go_eq (fs : List Rewrite) (t : Tree Label) (i : Nat) :
    ∃ j, firstOutcome.go t i (fs.map Rewrite.transformer) =
      .ok ((Rewrite.first fs t).map (j, ·)) := by
  induction fs generalizing i with
  | nil => exact ⟨0, rfl⟩
  | cons f fs ih =>
    simp only [List.map_cons, firstOutcome.go, Rewrite.transformer, ok_bind, Rewrite.first,
      List.findSome?_cons]
    cases hf : f t with
    | none => exact ih (i + 1)
    | some o => exact ⟨i, rfl⟩

def again (fs : List Rewrite) (direction : Direction) (recurse : Bool) (depth : Nat)
    (u : Tree Label) : Except Fault (Tree Label) :=
  if recurse then applyWithin Tree.forest depth (copying fs direction recurse) u else .ok u

theorem atRoot_eq (hr : t.root.isPinned = false) (depth : Nat) :
    (copying fs direction recurse).atRoot Tree.forest
        ((copying fs direction recurse).reapply Tree.forest (applyWithin Tree.forest depth)
          (applyWithin Tree.forest depth)) t =
      (Rewrite.atRoot fs t).elim (fun l => .ok (.inl l))
        fun u => Sum.inr <$> again fs direction recurse depth u := by
  obtain ⟨i, hi⟩ := firstOutcome_go_eq fs t 0
  have hfirst : firstOutcome (copying fs direction recurse).transformers t =
      .ok ((Rewrite.first fs t).map (i, ·)) := hi
  simp only [atRoot, hfirst, ok_bind, Rewrite.atRoot]
  cases hf : Rewrite.first fs t with
  | none => rfl
  | some o =>
    cases o with
    | relabel l => rfl
    | replace u =>
      simp only [Option.map_some, Tree.forest_root, ok_bind, Label.forest_inPlaceOf_eq hr,
        Sum.elim_inr, map_eq_pure_bind]
      cases recurse <;> rfl

theorem applyWithin_topDown (hr : r.isPinned = false) (depth : Nat) :
    applyWithin Tree.forest (depth + 1) (copying fs .topDown recurse) (.node r ts) =
      (Rewrite.atRoot fs (.node r ts)).elim
        (fun l => do
          let us ← ts.mapM (applyWithin Tree.forest depth (copying fs .topDown recurse))
          return .node l (Tree.spliceAll us))
        (again fs .topDown recurse depth) := by
  have hdir : (copying fs .topDown recurse).direction = .topDown := rfl
  simp only [applyWithin, hdir, Tree.forest_root, Tree.root, ok_bind,
    atRoot_eq (t := .node r ts) hr]
  cases Rewrite.atRoot fs (.node r ts) with
  | inl l =>
    simp only [Sum.elim_inl, ok_bind, Tree.forest_subtrees, Tree.subtrees, Tree.forest_splice,
      bind_assoc, Tree.forest_make, Label.forest_inPlaceOf_eq hr]
  | inr u =>
    simp only [Sum.elim_inr, map_eq_pure_bind, bind_assoc, pure_bind,
      Label.forest_inPlaceOf_eq hr]
    exact bind_pure _

theorem applyWithin_bottomUp (hr : r.isPinned = false) (depth : Nat) :
    applyWithin Tree.forest (depth + 1) (copying fs .bottomUp recurse) (.node r ts) = (do
      let us ← ts.mapM (applyWithin Tree.forest depth (copying fs .bottomUp recurse))
      (Rewrite.atRoot fs (.node r (Tree.spliceAll us))).elim
        (fun l => .ok (.node l (Tree.spliceAll us))) (again fs .bottomUp recurse depth)) := by
  have hdir : (copying fs .bottomUp recurse).direction = .bottomUp := rfl
  simp only [applyWithin, hdir, Tree.forest_root, Tree.root, ok_bind, Tree.forest_subtrees,
    Tree.subtrees, Tree.forest_splice, bind_assoc, Tree.forest_make]
  refine bind_congr fun us => ?_
  rw [atRoot_eq (t := .node r (Tree.spliceAll us)) hr]
  cases Rewrite.atRoot fs (.node r (Tree.spliceAll us)) with
  | inl l =>
    simp only [Sum.elim_inl, ok_bind, Label.forest_inPlaceOf_eq hr]
    rfl
  | inr u =>
    simp only [Sum.elim_inr, map_eq_pure_bind, bind_assoc, pure_bind,
      Label.forest_inPlaceOf_eq hr]
    exact bind_pure _

/-- Without a second application the depth of the tree bounds that of the transformation. -/
theorem succeeds_applyWithin (ht : t.Unpinned) (hdepth : t.size ≤ depth) :
    Succeeds (applyWithin Tree.forest depth (copying fs direction false) t) := by
  induction depth generalizing t with
  | zero =>
    rw [Tree.size_eq] at hdepth
    omega
  | succ depth ih =>
    obtain ⟨r, ts⟩ := t
    obtain ⟨hr, hts⟩ := Tree.unpinned_node.mp ht
    have hbelow : Succeeds (ts.mapM (applyWithin Tree.forest depth (copying fs direction false))) :=
      .mapM fun u hu => ih (hts u hu) (by
        have := Tree.size_le_sizeList hu
        rw [Tree.size] at hdepth
        omega)
    obtain ⟨us, hus⟩ := hbelow
    cases direction with
    | topDown =>
      rw [applyWithin_topDown hr]
      cases Rewrite.atRoot fs (.node r ts) with
      | inl l => exact ⟨_, by rw [Sum.elim_inl, hus]; rfl⟩
      | inr u => exact ⟨u, rfl⟩
    | bottomUp =>
      rw [applyWithin_bottomUp hr, hus, ok_bind]
      cases Rewrite.atRoot fs (.node r (Tree.spliceAll us)) with
      | inl l => exact ⟨_, rfl⟩
      | inr u => exact ⟨u, rfl⟩

end Copying

/-! ### In place -/

section Editing

open Store

variable {fs : List Rewrite} {es : List (Transformer StoreM Nat)} {direction : Direction}
  {recurse : Bool} {s₀ s s' : Store} {F₀ F G H : List Nat} {a l p : Nat} {r : Label}
  {t u : Tree Label} {ts us : List (Tree Label)}

/-- The cells that what replaces a node may have in common with the node alone: if the
transformation is applied to it again, all that are there, and else those of the whole tree. -/
def Taken (recurse : Bool) (F₀ : List Nat) (s : Store) (p : Nat) : Prop :=
  if recurse then p < s.cells.size else p ∈ F₀

/-- The cells of what comes of a tree: they are its own, or ones that are not taken. If the
transformation is applied again, no node is shared. -/
structure Yields (recurse : Bool) (F₀ : List Nat) (s : Store) (F G : List Nat) : Prop where
  apart : ∀ p ∈ G, p ∈ F ∨ ¬ Taken recurse F₀ s p
  nodup : recurse = true → F.Nodup → G.Nodup

inductive Agrees (recurse : Bool) (F₀ : List Nat) (s : Store) (F : List Nat) (s' : Store) :
    Option (Outcome (Tree Label)) → Option (Outcome Nat) → Prop where
  | none : Agrees recurse F₀ s F s' none none
  | relabel (l : Label) : Agrees recurse F₀ s F s' (some (.relabel l)) (some (.relabel l))
  | replace {u : Tree Label} {b : Nat} {G : List Nat} (h : Reads s' b u G)
      (hG : Yields recurse F₀ s F G) :
      Agrees recurse F₀ s F s' (some (.replace u)) (some (.replace b))

/-- A transformer of nodes performs one of values on what has become of a tree: it changes no cell
that is there. -/
def Performs (recurse : Bool) (s₀ : Store) (F₀ : List Nat) (f : Rewrite)
    (e : Transformer StoreM Nat) : Prop :=
  ∀ s a t F, Frame s₀ F₀ s → Reads s a t F →
    ∃ o s', e a s = .ok (o, s') ∧ Frame s [] s' ∧ Agrees recurse F₀ s F s' (f t) o

/-- The cells are those of the tree, or came later. -/
def Own (recurse : Bool) (s₀ : Store) (F₀ F : List Nat) : Prop :=
  ∀ p ∈ F, p ∈ F₀ ∨ (recurse = true ∧ s₀.cells.size ≤ p)

theorem Taken.mono (h : Taken recurse F₀ s p) (hs : s.cells.size ≤ s'.cells.size) :
    Taken recurse F₀ s' p := by
  cases recurse with
  | false => exact h
  | true => exact lt_of_lt_of_le h hs

theorem Own.taken (h : Own recurse s₀ F₀ F) (hF : ∀ p ∈ F, p < s.cells.size) :
    ∀ p ∈ F, Taken recurse F₀ s p := by
  intro p hp
  cases recurse with
  | false => exact (h p hp).elim id fun h => absurd h.1 (by simp)
  | true => exact hF p hp

theorem Own.frame (h : Own recurse s₀ F₀ F) (hs : Frame s₀ F₀ s) (hs' : Frame s F s') :
    Frame s₀ F₀ s' :=
  hs.trans hs' (fun _ hp => hp) fun p hp => (h p hp).imp_right And.right

namespace Yields

theorem refl (s : Store) (F : List Nat) : Yields recurse F₀ s F F :=
  ⟨fun _ hp => .inl hp, fun _ h => h⟩

theorem trans (h : Yields recurse F₀ s F G) (h' : Yields recurse F₀ s' G H)
    (hs : s.cells.size ≤ s'.cells.size) : Yields recurse F₀ s F H where
  apart := by
    intro p hp
    obtain hp | hp := h'.apart p hp
    · exact h.apart p hp
    · exact .inr fun hs' => hp (hs'.mono hs)
  nodup := fun hrec hF => h'.nodup hrec (h.nodup hrec hF)

theorem of_later (h : Yields recurse F₀ s' F G) (hs : s.cells.size ≤ s'.cells.size) :
    Yields recurse F₀ s F G :=
  (refl s F).trans h hs

/-- What comes of a tree has no cell in common with other trees. -/
theorem not_mem (h : Yields recurse F₀ s F G) (hH : ∀ p ∈ H, Taken recurse F₀ s p)
    (hF : ∀ p ∈ H, p ∉ F) : ∀ p ∈ G, p ∉ H :=
  fun p hG hp => (h.apart p hG).elim (hF p hp) fun hn => hn (hH p hp)

theorem append {F' G' : List Nat} (h : Yields recurse F₀ s F F')
    (h' : Yields recurse F₀ s' G G') (hs : s.cells.size ≤ s'.cells.size)
    (hlt : ∀ p ∈ F', p < s'.cells.size) (hG : ∀ p ∈ F', p ∉ G) :
    Yields recurse F₀ s (F ++ G) (F' ++ G') where
  apart := by
    intro p hp
    simp only [List.mem_append] at hp ⊢
    obtain hp | hp := hp
    · exact (h.apart p hp).imp_left .inl
    · exact ((h'.of_later hs).apart p hp).imp_left .inr
  nodup := by
    intro hrec hFG
    obtain ⟨hF, hG'', _⟩ := List.nodup_append.mp hFG
    refine List.nodup_append.mpr ⟨h.nodup hrec hF, h'.nodup hrec hG'', ?_⟩
    rintro p hp _ hq rfl
    subst hrec
    exact (h'.apart p hq).elim (hG p hp) fun hn => hn (hlt p hp)

theorem own (h : Yields recurse F₀ s F G) (hrec : recurse = true) (hF : Own recurse s₀ F₀ F)
    (hs : s₀.cells.size ≤ s.cells.size) : Own recurse s₀ F₀ G := by
  intro p hp
  subst hrec
  obtain hp | hp := h.apart p hp
  · exact hF p hp
  · exact .inr ⟨rfl, hs.trans (not_lt.mp hp)⟩

end Yields

theorem Agrees.of_later {o : Option (Outcome (Tree Label))} {o' : Option (Outcome Nat)} {s₁ : Store}
    (h : Agrees recurse F₀ s₁ F s' o o') (hs : s.cells.size ≤ s₁.cells.size) :
    Agrees recurse F₀ s F s' o o' := by
  cases h with
  | none => exact .none
  | relabel l => exact .relabel l
  | replace h hG => exact .replace h (hG.of_later hs)

theorem firstOutcome_go_run (hes : List.Forall₂ (Performs recurse s₀ F₀) fs es)
    (hs : Frame s₀ F₀ s) (h : Reads s a t F) (i : Nat) :
    ∃ j o s', firstOutcome.go a i es s = .ok (o.map (j, ·), s') ∧ Frame s [] s' ∧
      Agrees recurse F₀ s F s' (Rewrite.first fs t) o := by
  induction hes generalizing s i with
  | nil => exact ⟨i, none, s, rfl, .refl s [], .none⟩
  | @cons f e fs es hf _ ih =>
    obtain ⟨o, s₁, hrun, hf₁, ho⟩ := hf s a t F hs h
    rw [firstOutcome.go, bind_run hrun, Rewrite.first, List.findSome?_cons]
    generalize f t = v at ho
    cases ho with
    | none =>
      obtain ⟨j, o, s₂, hrun₂, hf₂, ho₂⟩ :=
        ih (hs.trans_nil hf₁) (hf₁.reads h (by simp)) (i + 1)
      exact ⟨j, o, s₂, hrun₂, hf₁.trans_nil hf₂, ho₂.of_later hf₁.size_le⟩
    | relabel l => exact ⟨i, _, s₁, rfl, hf₁, .relabel l⟩
    | replace h hG => exact ⟨i, _, s₁, rfl, hf₁, .replace h hG⟩

def editAgain (es : List (Transformer StoreM Nat)) (direction : Direction) (recurse : Bool)
    (depth : Nat) : Nat → Nat → StoreM Nat :=
  (bare es direction recurse).reapply Store.forest
    (fun tf a => Prod.fst <$> editWithin depth true tf a)
    (fun tf a => Prod.fst <$> editWithin depth false tf a)

/-- Where the root of a node is all that changes, the node stays where it is. -/
theorem exists_editRoot_run_of_inl {l : Label}
    (hes : List.Forall₂ (Performs recurse s₀ F₀) fs es) (hs : Frame s₀ F₀ s)
    (h : Reads s a (.node r ts) F) (hr : r.isPinned = false)
    (hroot : Rewrite.atRoot fs (.node r ts) = .inl l) (direction : Direction)
    (again : Nat → Nat → StoreM Nat) :
    ∃ changes s', (bare es direction recurse).editRoot again a s = .ok ((none, changes), s') ∧
      Frame s [a] s' ∧ Reads s' a (.node l ts) F := by
  obtain ⟨i, o, s₁, hrun, hf₁, ho⟩ := firstOutcome_go_run hes hs h 0
  have hfirst : firstOutcome (bare es direction recurse).transformers a s =
      .ok (o.map (i, ·), s₁) := hrun
  have h₁ := hf₁.reads h (by simp)
  rw [Rewrite.atRoot] at hroot
  rw [editRoot, bind_run hfirst]
  generalize Rewrite.first fs (.node r ts) = v at ho hroot
  cases ho with
  | none =>
    cases hroot
    obtain ⟨k, s₂, hnode, -⟩ := h₁.exists_write_run r
    refine ⟨[], s₁, ?_, hf₁.mono (by simp), h₁⟩
    simp only [Option.map_none, bind_run hnode]
    rfl
  | relabel l =>
    cases hroot
    obtain ⟨k, s₂, hnode, hwrite, hf₂, h₂⟩ := h₁.exists_write_run l
    refine ⟨[.label r l], s₂, ?_, hf₁.trans hf₂ (by simp) (fun _ hp => .inl hp), h₂⟩
    simp only [Option.map_some, bind_run hnode, Label.inPlaceOf_eq hr,
      bind_run hwrite]
    rfl
  | replace h hG => cases hroot

/-- The edit in place at a depth gives what the transformation into a new tree gives. -/
def Simulates (recurse : Bool) (s₀ : Store) (F₀ : List Nat) (fs : List Rewrite)
    (es : List (Transformer StoreM Nat)) (direction : Direction) (depth : Nat) : Prop :=
  ∀ s a t F v, Frame s₀ F₀ s → Own recurse s₀ F₀ F → F.Nodup → Reads s a t F → t.Unpinned →
    applyWithin Tree.forest depth (copying fs direction recurse) t = .ok v →
    v.Unpinned ∧ ∃ b changes s' G,
      editWithin depth true (bare es direction recurse) a s = .ok ((b, changes), s') ∧
      Frame s F s' ∧ Reads s' b v G ∧ Yields recurse F₀ s F G

def touched (recurse : Bool) (F : List Nat) : List Nat :=
  if recurse then F else []

theorem Yields.frame {s₁ s₂ : Store} (h : Yields recurse F₀ s F G) (hs : Frame s F s₁)
    (hs' : Frame s₁ (touched recurse G) s₂) : Frame s F s₂ := by
  refine hs.trans hs' (fun _ hp => hp) fun p hp => ?_
  cases recurse with
  | false => simp [touched] at hp
  | true => exact (h.apart p hp).imp_right not_lt.mp

variable {depth : Nat}

/-- Where a node is replaced, the transformation goes on with the replacement or is done. -/
theorem exists_editRoot_run_of_inr {v : Tree Label}
    (hes : List.Forall₂ (Performs recurse s₀ F₀) fs es) (hs : Frame s₀ F₀ s)
    (h : Reads s a (.node r ts) F) (hr : r.isPinned = false)
    (hF : recurse = true → Own recurse s₀ F₀ F ∧ F.Nodup)
    (hsim : Simulates recurse s₀ F₀ fs es direction depth)
    (hroot : Rewrite.atRoot fs (.node r ts) = .inr u) (hu : u.Unpinned)
    (hv : again fs direction recurse depth u = .ok v) :
    v.Unpinned ∧ ∃ b changes s' G,
      (bare es direction recurse).editRoot (editAgain es direction recurse depth) a s =
        .ok ((some b, changes), s') ∧
      Frame s (touched recurse F) s' ∧ Reads s' b v G ∧ Yields recurse F₀ s F G := by
  obtain ⟨i, o, s₁, hrun, hf₁, ho⟩ := firstOutcome_go_run hes hs h 0
  have hfirst : firstOutcome (bare es direction recurse).transformers a s =
      .ok (o.map (i, ·), s₁) := hrun
  rw [Rewrite.atRoot] at hroot
  rw [editRoot, bind_run hfirst]
  generalize Rewrite.first fs (.node r ts) = w at ho hroot
  cases ho with
  | none => cases hroot
  | relabel l => cases hroot
  | @replace u b G hb hG =>
    cases hroot
    obtain ⟨ha, hl, _⟩ := hf₁.reads h (by simp)
    simp only [Option.map_some, bind_run (root_run ha), Label.forest_inPlaceOf_eq hr, pure_bind,
      editAgain, reapply]
    cases recurse with
    | false =>
      cases hv
      exact ⟨hu, b, _, s₁, G, rfl, hf₁, hb, hG⟩
    | true =>
      obtain ⟨hown, hnodup⟩ := hF rfl
      obtain ⟨hvu, c, changes, s₂, G', hrun₂, hf₂, hc, hG'⟩ := hsim s₁ b u G v
        (hs.trans_nil hf₁) (hG.own rfl hown hs.size_le) (hG.nodup rfl hnodup) hb hu hv
      refine ⟨hvu, c, [.tree a b], s₂, G', ?_, hG.frame (hf₁.mono (by simp)) hf₂, hc,
        hG.trans hG' hf₁.size_le⟩
      have hedit := map_run hrun₂ Prod.fst
      simp only [bare] at hedit ⊢
      simp only [if_true, bind_run hedit]
      rfl

theorem itemAt_run {xs : List Nat} {i b : Nat} (h : xs[i]? = some b) (s : Store) :
    (liftM (itemAt xs i) : StoreM Nat) s = .ok (b, s) := by
  rw [itemAt_eq_ok.mpr h]
  rfl

theorem editSlots_succ (edit : Nat → StoreM (Nat × List (Change Nat))) (a i n : Nat) :
    editSlots edit a i (n + 1) = (do
      let b ← itemAt (← subtrees a) i
      let x ← edit b
      (if x.1 ≠ b then setSlot a i x.1 else pure ()) >>= fun _ =>
        (x.2 ++ ·) <$> editSlots edit a (i + 1) n) := by
  rw [editSlots]
  refine bind_congr fun bs => bind_congr fun b => bind_congr fun x => ?_
  by_cases hx : x.1 = b <;> simp [hx]

/-- A slot is written only if another node is to stand there. -/
theorem exists_setSlot_run {done as : List Nat} {b : Nat} (ha : s.cells[a]? = some (.node r l))
    (hl : s.cells[l]? = some (.list (done ++ b :: as))) (c : Nat) :
    ∃ s', (if c ≠ b then setSlot a done.length c else pure ()) s = .ok ((), s') ∧
      s'.cells[l]? = some (.list (done ++ c :: as)) ∧ Frame s [l] s' := by
  by_cases hc : c = b
  · subst hc
    exact ⟨s, by simp only [ne_eq, not_true, if_false]; rfl, hl, .refl _ _⟩
  · obtain ⟨s', hwrite, hl', hf⟩ := exists_write_run hl (.list (done ++ c :: as))
    refine ⟨s', ?_, hl', hf⟩
    have hlt : done.length < (done ++ b :: as).length := by simp
    have hset : (done ++ b :: as).set done.length c = done ++ c :: as := by simp
    rw [if_pos hc, setSlot, bind_run (node_run ha)]
    simp only [bind_run (members_run hl), if_pos hlt, hset]
    exact hwrite

/-- One slot of a list is edited and then the others: the list holds what has come of its members,
each in its own cells. -/
theorem exists_editSlots_run (hsim : Simulates recurse s₀ F₀ fs es direction depth) {as : List Nat}
    (done : List Nat) (hs : Frame s₀ F₀ s) (hown : Own recurse s₀ F₀ (l :: F))
    (hnodup : (a :: l :: F).Nodup) (ha : s.cells[a]? = some (.node r l))
    (hl : s.cells[l]? = some (.list (done ++ as))) (h : ReadsAll s as ts F)
    (hts : ∀ t ∈ ts, t.Unpinned)
    (hus : ts.mapM (applyWithin Tree.forest depth (copying fs direction recurse)) = .ok us) :
    (∀ u ∈ us, u.Unpinned) ∧ ∃ changes s' bs G,
      editSlots (editWithin depth true (bare es direction recurse)) a done.length as.length s =
        .ok (changes, s') ∧
      s'.cells[l]? = some (.list (done ++ bs)) ∧ Frame s (l :: F) s' ∧ ReadsAll s' bs us G ∧
      Yields recurse F₀ s F G := by
  induction as generalizing s F ts us done with
  | nil =>
    cases h
    cases hus
    exact ⟨by simp, [], s, [], [], rfl, hl, .refl _ _, .nil, .refl s []⟩
  | cons b as ih =>
    cases h with
    | @cons _ t _ ts F G hb hbs =>
      rw [List.mapM_cons] at hus
      obtain ⟨v, hv, hus⟩ := bind_eq_ok.mp hus
      obtain ⟨vs, hvs, hus⟩ := bind_eq_ok.mp hus
      cases hus
      obtain ⟨ht, hts⟩ := List.forall_mem_cons.mp hts
      simp only [List.nodup_cons, List.nodup_append, List.mem_cons, List.mem_append,
        not_or] at hnodup
      obtain ⟨⟨hal, haF, haG⟩, ⟨hlF, hlG⟩, hF, hG, hFG⟩ := hnodup
      have hlF' : ∀ p ∈ l :: G, p ∉ F := List.forall_mem_cons.mpr
        ⟨hlF, fun p hp hmem => hFG p hmem p hp rfl⟩
      have hownF : Own recurse s₀ F₀ F := fun p hp => hown p (by simp [hp])
      have hownG : Own recurse s₀ F₀ (l :: G) := fun p hp => hown p (by grind)
      obtain ⟨hvu, c, ch, s₁, F', hedit, hf₁, hc, hF'⟩ := hsim s b t F v hs hownF hF hb ht hv
      obtain ⟨s₂, hset, hl₂, hf₂⟩ := exists_setSlot_run (hf₁.get_of_not_mem ha haF)
        (hf₁.get_of_not_mem hl hlF) c
      have hf : Frame s (l :: F) s₂ :=
        hf₁.trans hf₂ (fun p hp => List.mem_cons_of_mem l hp) (by simp)
      have htaken : ∀ p ∈ l :: G, Taken recurse F₀ s p := hownG.taken <| List.forall_mem_cons.mpr
        ⟨(Array.getElem?_eq_some_iff.mp hl).1, hbs.lt_size⟩
      have hdisj : ∀ p ∈ F', p ∉ l :: G := hF'.not_mem htaken hlF'
      have hc₂ : Reads s₂ c v F' := hf₂.reads hc fun p hp hmem =>
        hdisj p hp (List.mem_cons.mpr (.inl (List.mem_singleton.mp hmem)))
      obtain ⟨hvsu, chs, s₃, cs, G', hedits, hl₃, hf₃, hcs, hG'⟩ := ih (done ++ [c])
        (Own.frame (F := l :: F) (fun p hp => hown p (by grind)) hs hf) hownG
        (by simp only [List.nodup_cons, List.mem_cons, not_or]; exact ⟨⟨hal, haG⟩, hlG, hG⟩)
        (hf.get_of_not_mem ha (by simp [hal, haF])) (by simpa using hl₂)
        (hf.readsAll hbs fun p hp hmem => by
          obtain rfl | hmem := List.mem_cons.mp hmem
          · exact hlG hp
          · exact hFG p hmem p hp rfl) hts hvs
      refine ⟨List.forall_mem_cons.mpr ⟨hvu, hvsu⟩, ch ++ chs, s₃, c :: cs, F' ++ G', ?_,
        by simpa using hl₃, ?_, .cons (hf₃.reads hc₂ hdisj) hcs, ?_⟩
      · have hitem : (done ++ b :: as)[done.length]? = some b := by simp
        rw [List.length_append, List.length_singleton] at hedits
        rw [List.length_cons, editSlots_succ, bind_run (subtrees_run ha hl),
          bind_run (itemAt_run hitem s), bind_run hedit, bind_run hset]
        exact map_run hedits _
      · exact hf.trans hf₃ (by grind) (by grind)
      · exact hF'.append hG' hf.size_le hc₂.lt_size fun p hp hmem => hdisj p hp (by simp [hmem])

theorem exists_editBelow_run (hsim : Simulates recurse s₀ F₀ fs es direction depth)
    (hs : Frame s₀ F₀ s) (hown : Own recurse s₀ F₀ F) (hnodup : F.Nodup)
    (h : Reads s a (.node r ts) F) (hts : ∀ t ∈ ts, t.Unpinned)
    (hus : ts.mapM (applyWithin Tree.forest depth (copying fs direction recurse)) = .ok us) :
    (∀ u ∈ Tree.spliceAll us, u.Unpinned) ∧ ∃ changes s' G,
      editBelow (editWithin depth true (bare es direction recurse)) true a s =
        .ok (changes, s') ∧
      Frame s F s' ∧ Reads s' a (.node r (Tree.spliceAll us)) G ∧ Yields recurse F₀ s F G := by
  have hlt := h.lt_size
  cases h with
  | @node _ l _ as _ F ha hl h =>
    obtain ⟨hus', changes, s₁, bs, G, hslots, hl₁, hf₁, hbs, hG⟩ :=
      exists_editSlots_run hsim [] hs (fun p hp => hown p (by grind)) hnodup ha hl h hts hus
    have hal : a ∉ l :: F := (List.nodup_cons.mp hnodup).1
    have hlF : (l :: F).Nodup := (List.nodup_cons.mp hnodup).2
    obtain ⟨cs, G', hsplice, hcs, hG'⟩ := hbs.exists_splice_run
    obtain ⟨s₂, hwrite, hl₂, hf₂⟩ := exists_write_run hl₁ (.list cs)
    have ha₁ := hf₁.get_of_not_mem ha hal
    -- No cell of a new child is that of the node or of its list of children, so writing the list
    -- leaves the children as they are.
    have hdisj : ∀ p ∈ G', p ∉ [a, l] := fun p hp => hG.not_mem
      (H := [a, l]) (fun q hq => hown.taken hlt q (by grind)) (by grind) p (hG'.subset hp)
    refine ⟨Tree.unpinned_spliceAll hus', changes, s₂, a :: l :: G', ?_, ?_, ?_, ?_, ?_⟩
    · rw [List.length_nil] at hslots
      simp only [editBelow, if_true]
      rw [bind_run (subtrees_run ha hl), bind_run hslots, bind_run (node_run ha₁)]
      simp only [bind_run (members_run hl₁), List.nil_append, bind_run hsplice, bind_run hwrite]
      rfl
    · exact hf₁.trans hf₂ (by grind) (by grind)
    · exact .node (hf₂.get_of_not_mem ha₁ (by grind)) hl₂ (hf₂.readsAll hcs (by grind))
    · intro p hp
      simp only [List.mem_cons] at hp ⊢
      obtain rfl | rfl | hp := hp
      · exact .inl (.inl rfl)
      · exact .inl (.inr (.inl rfl))
      · exact (hG.apart p (hG'.subset hp)).imp_left fun hp => .inr (.inr hp)
    · intro hrec _
      have hnodup' : G'.Nodup := hG'.nodup (hG.nodup hrec (List.nodup_cons.mp hlF).2)
      grind

theorem editWithin_topDown (es : List (Transformer StoreM Nat)) (recurse : Bool) (depth a : Nat) :
    editWithin (depth + 1) true (bare es .topDown recurse) a = (do
      let x ← (bare es .topDown recurse).editRoot (editAgain es .topDown recurse depth) a
      x.1.elim
        ((fun changes => (a, x.2 ++ changes)) <$>
          editBelow (editWithin depth true (bare es .topDown recurse)) true a)
        fun b => return (b, x.2)) := by
  refine bind_congr fun x => ?_
  obtain ⟨b, changes⟩ := x
  cases b with
  | none => exact (map_eq_pure_bind _ _).symm
  | some b => rfl

theorem editWithin_bottomUp (es : List (Transformer StoreM Nat)) (recurse : Bool) (depth a : Nat) :
    editWithin (depth + 1) true (bare es .bottomUp recurse) a = (do
      let changes ← editBelow (editWithin depth true (bare es .bottomUp recurse)) true a
      (fun x => (x.1.getD a, changes ++ x.2)) <$>
        (bare es .bottomUp recurse).editRoot (editAgain es .bottomUp recurse depth) a) :=
  bind_congr fun _ => (map_eq_pure_bind _ _).symm

theorem touched_subset (recurse : Bool) (F : List Nat) : ∀ p ∈ touched recurse F, p ∈ F := by
  cases recurse <;> simp [touched]

theorem simulates_topDown (hes : List.Forall₂ (Performs recurse s₀ F₀) fs es)
    (hfs : ∀ f ∈ fs, f.KeepsUnpinned) (ih : Simulates recurse s₀ F₀ fs es .topDown depth) :
    Simulates recurse s₀ F₀ fs es .topDown (depth + 1) := by
  intro s a t F v hs hown hnodup h ht hv
  obtain ⟨r, ts⟩ := t
  obtain ⟨hr, hts⟩ := Tree.unpinned_node.mp ht
  rw [applyWithin_topDown hr] at hv
  cases hroot : Rewrite.atRoot fs (.node r ts) with
  | inl l =>
    rw [hroot, Sum.elim_inl] at hv
    obtain ⟨us, hus, hv⟩ := bind_eq_ok.mp hv
    cases hv
    obtain ⟨ch, s₁, hedit, hf₁, h₁⟩ := exists_editRoot_run_of_inl hes hs h hr hroot .topDown
      (editAgain es .topDown recurse depth)
    have hf₁ : Frame s F s₁ := hf₁.mono fun p hp => by
      cases h
      simp_all
    obtain ⟨husu, ch', s₂, G, hbelow, hf₂, h₂, hG⟩ :=
      exists_editBelow_run ih (hown.frame hs hf₁) hown hnodup h₁ hts hus
    refine ⟨Tree.unpinned_node.mpr ⟨Rewrite.isPinned_of_atRoot hfs ht hroot, husu⟩, a, ch ++ ch',
      s₂, G, ?_, hf₁.trans hf₂ (fun _ hp => hp) (fun _ hp => .inl hp), h₂,
      hG.of_later hf₁.size_le⟩
    rw [editWithin_topDown, bind_run hedit]
    exact map_run hbelow _
  | inr u =>
    rw [hroot, Sum.elim_inr] at hv
    obtain ⟨hvu, b, ch, s₁, G, hedit, hf₁, hb, hG⟩ := exists_editRoot_run_of_inr hes hs h hr
      (fun _ => ⟨hown, hnodup⟩) ih hroot (Rewrite.unpinned_of_atRoot hfs ht hroot) hv
    refine ⟨hvu, b, ch, s₁, G, ?_, hf₁.mono (touched_subset recurse F), hb, hG⟩
    rw [editWithin_topDown, bind_run hedit]
    rfl

theorem simulates_bottomUp (hes : List.Forall₂ (Performs recurse s₀ F₀) fs es)
    (hfs : ∀ f ∈ fs, f.KeepsUnpinned) (ih : Simulates recurse s₀ F₀ fs es .bottomUp depth) :
    Simulates recurse s₀ F₀ fs es .bottomUp (depth + 1) := by
  intro s a t F v hs hown hnodup h ht hv
  obtain ⟨r, ts⟩ := t
  obtain ⟨hr, hts⟩ := Tree.unpinned_node.mp ht
  rw [applyWithin_bottomUp hr] at hv
  obtain ⟨us, hus, hv⟩ := bind_eq_ok.mp hv
  obtain ⟨husu, ch, s₁, G, hbelow, hf₁, h₁, hG⟩ :=
    exists_editBelow_run ih hs hown hnodup h hts hus
  have hs₁ := hown.frame hs hf₁
  have ht₁ : (Tree.node r (Tree.spliceAll us)).Unpinned := Tree.unpinned_node.mpr ⟨hr, husu⟩
  cases hroot : Rewrite.atRoot fs (.node r (Tree.spliceAll us)) with
  | inl l =>
    rw [hroot, Sum.elim_inl] at hv
    cases hv
    obtain ⟨ch', s₂, hedit, hf₂, h₂⟩ := exists_editRoot_run_of_inl hes hs₁ h₁ hr hroot
      .bottomUp (editAgain es .bottomUp recurse depth)
    refine ⟨Tree.unpinned_node.mpr ⟨Rewrite.isPinned_of_atRoot hfs ht₁ hroot, husu⟩, a, ch ++ ch',
      s₂, G, ?_, hf₁.trans hf₂ (fun _ hp => hp) (fun p hp => .inl ?_), h₂, hG⟩
    · rw [editWithin_bottomUp, bind_run hbelow]
      exact map_run hedit _
    · cases h
      simp_all
  | inr u =>
    rw [hroot, Sum.elim_inr] at hv
    obtain ⟨hvu, b, ch', s₂, G', hedit, hf₂, hb, hG'⟩ := exists_editRoot_run_of_inr hes hs₁ h₁ hr
      (fun hrec => ⟨hG.own hrec hown hs.size_le, hG.nodup hrec hnodup⟩) ih hroot
      (Rewrite.unpinned_of_atRoot hfs ht₁ hroot) hv
    refine ⟨hvu, b, ch ++ ch', s₂, G', ?_, hG.frame hf₁ hf₂, hb, hG.trans hG' hf₁.size_le⟩
    rw [editWithin_bottomUp, bind_run hbelow]
    exact map_run hedit _

theorem simulates (hes : List.Forall₂ (Performs recurse s₀ F₀) fs es)
    (hfs : ∀ f ∈ fs, f.KeepsUnpinned) (direction : Direction) (depth : Nat) :
    Simulates recurse s₀ F₀ fs es direction depth := by
  induction depth with
  | zero =>
    intro s a t F v _ _ _ _ _ hv
    cases hv
  | succ depth ih =>
    cases direction with
    | topDown => exact simulates_topDown hes hfs ih
    | bottomUp => exact simulates_bottomUp hes hfs ih

/-- Let transformers of nodes perform transformers of trees, and let a tree share no nodes. Then
what is made of it in place is what is made of it as a value, whenever that is made of it; it is,
unless the transformation is applied again to its own results. -/
theorem editWithin_eq_applyWithin (hes : List.Forall₂ (Performs recurse s F) fs es)
    (hfs : ∀ f ∈ fs, f.KeepsUnpinned) (h : Reads s a t F) (hF : F.Nodup) (ht : t.Unpinned)
    (direction : Direction) :
    (∀ depth u, applyWithin Tree.forest depth (copying fs direction recurse) t = .ok u →
      ∃ b changes s', editWithin depth true (bare es direction recurse) a s =
        .ok ((b, changes), s') ∧ value b s' = .ok (u, s')) ∧
    (recurse = false → ∀ depth, t.size ≤ depth →
      ∃ u, applyWithin Tree.forest depth (copying fs direction recurse) t = .ok u) := by
  refine ⟨fun depth u hu => ?_, ?_⟩
  · obtain ⟨-, b, changes, s', G, hrun, -, hb, -⟩ := simulates hes hfs direction depth s a t F u
      (.refl s F) (fun p hp => .inl hp) hF h ht hu
    exact ⟨b, changes, s', hrun, hb.value_run⟩
  · rintro rfl depth hdepth
    exact succeeds_applyWithin ht hdepth

theorem performs_onCopies (hF₀ : ∀ p ∈ F₀, p < s₀.cells.size) (f : Rewrite) :
    Performs recurse s₀ F₀ f f.onCopies := by
  intro s a t F hs h
  rw [Rewrite.onCopies, bind_run h.value_run]
  cases hf : f t with
  | none => exact ⟨none, s, rfl, .refl s [], .none⟩
  | some o =>
    cases o with
    | relabel l => exact ⟨_, s, rfl, .refl s [], .relabel l⟩
    | replace u =>
      obtain ⟨b, s', G, hrun, hf', hb, hG, hle⟩ := exists_plant_run u s
      refine ⟨some (.replace b), s', ?_, hf', .replace hb ⟨fun p hp => .inr ?_, fun _ _ => hG⟩⟩
      · simp only [bind_run hrun]
        rfl
      · have hp := hle p hp
        cases recurse with
        | true => exact not_lt.mpr hp
        | false =>
          intro hmem
          have := hF₀ p hmem
          have := hs.size_le
          omega

theorem editWithin_doubling : ∃ a s b changes s',
    Store.forest.plant (.node (.word "d") [.node (.word "f") [.leaf (.word "a")]]) Store.empty =
      .ok (a, s) ∧
    editWithin 9 true (bare [Rewrite.doubling.onCopies, Rewrite.renamed.onCopies] .topDown true) a
      s = .ok ((b, changes), s') ∧
    value b s' = .ok (.node (.word "w") [.node (.word "f") [.leaf (.word "b")],
      .node (.word "f") [.leaf (.word "b")]], s') := by
  obtain ⟨a, s, F, hplant, -, h, hF, -⟩ := exists_plant_run
    (.node (.word "d") [.node (.word "f") [.leaf (.word "a")]]) Store.empty
  have hperforms : ∀ f : Rewrite, Performs true s F f f.onCopies := performs_onCopies h.lt_size
  obtain ⟨b, changes, s', hedit, hvalue⟩ := (editWithin_eq_applyWithin
    (.cons (hperforms Rewrite.doubling) (.cons (hperforms Rewrite.renamed) .nil))
    (by simp [Rewrite.keepsUnpinned_doubling, Rewrite.keepsUnpinned_renamed]) h hF
    (by simp [Tree.Unpinned, Tree.labels_node, Tree.leaf, Label.isPinned]) .topDown).1 9
    (.node (.word "w") [.node (.word "f") [.leaf (.word "b")],
      .node (.word "f") [.leaf (.word "b")]]) (by cbv)
  exact ⟨a, s, b, changes, s', hplant, hedit, hvalue⟩

def sharingRules : List Substitution.Rule :=
  [⟨.top (.node (.word "d") [.leaf (.word "$1")]),
      .node (.word "w") [.leaf (.word "$1"), .leaf (.word "$1")], none⟩,
    ⟨.top (.leaf (.word "a")), .leaf (.word "b"), none⟩,
    ⟨.top (.node (.word "f") [.leaf (.word "b")]), .leaf (.word "g"), none⟩]

/-- A tree that a rule puts in two places is met in the second as it was left in the first. And a
pinned label stays around a new tree even where nothing replaces its node. -/
theorem edit_ne_apply :
    ((bare (sharingRules.map (Substitution.Rule.transformer Tree.forest)) .topDown true).apply
        (.node (.word "d") [.node (.word "f") [.leaf (.word "a")]]) =
      .ok (.node (.word "w") [.node (.word "f") [.leaf (.word "b")],
        .node (.word "f") [.leaf (.word "b")]]) ∧
    (edit (pure (bare (sharingRules.map (Substitution.Rule.transformer Store.forest)) .topDown
        true)) (.node (.word "d") [.node (.word "f") [.leaf (.word "a")]])).map Report.result =
      .ok (.node (.word "w") [.node (.word "f") [.leaf (.word "b")], .leaf (.word "g")])) ∧
    (bare [] .topDown false).apply (.leaf (.pinned "k")) =
      .ok (.node (.word "kept") [.leaf (.pinned "k")]) ∧
    (edit (pure (bare [] .topDown false)) (.leaf (.pinned "k"))).map Report.result =
      .ok (.leaf (.pinned "k")) := by
  refine ⟨⟨?_, ?_⟩, ?_, ?_⟩ <;> cbv

end Editing

end Transform

end WhileSketch
