import Mathlib
import WhileSketch.Proofs.Failure
import WhileSketch.Proofs.Tree.Cells
import WhileSketch.Proofs.Tree.Nodes

/-! The scan of a list that puts the trees below list marks in the place of these. It is stated
without a bound on its rounds, in which the list may grow while the index stands still; it always
comes to an end, with the list that recursion over the trees gives. -/

namespace WhileSketch

/-- What is below an item if it has the list mark. -/
def Forest.opened {m : Type → Type} [Monad m] {τ : Type} (F : Forest m τ) (x : τ) :
    m (Option (List τ)) := do
  if (← F.root x).isSplice then return some (← F.subtrees x) else return none

section Scans

variable {τ : Type} {opens : τ → Option (List τ) → Prop} {i : Nat} {x : τ}
  {xs ys xs' ys' below : List τ}

/-- A scan of a list from an index on: an item that opens gives way to what is below it, which is
scanned in its place, and any other item is passed. -/
inductive Scans (opens : τ → Option (List τ) → Prop) : Nat → List τ → List τ → Prop
  | done {i : Nat} {xs : List τ} : xs[i]? = none → Scans opens i xs xs
  | opened {i : Nat} {x : τ} {below xs ys : List τ} : xs[i]? = some x → opens x (some below) →
    Scans opens i (xs.take i ++ below ++ xs.drop (i + 1)) ys → Scans opens i xs ys
  | passed {i : Nat} {x : τ} {xs ys : List τ} : xs[i]? = some x → opens x none →
    Scans opens (i + 1) xs ys → Scans opens i xs ys

namespace Scans

theorem unique (hopens : ∀ {x o o'}, opens x o → opens x o' → o = o') (h : Scans opens i xs ys)
    (h' : Scans opens i xs ys') : ys = ys' := by
  induction h with
  | done hnone =>
    cases h' with
    | done _ => rfl
    | opened hsome => cases hnone.symm.trans hsome
    | passed hsome => cases hnone.symm.trans hsome
  | opened hsome hbelow _ ih =>
    cases h' with
    | done hnone => cases hnone.symm.trans hsome
    | opened hsome' hbelow' hrest =>
      obtain rfl := Option.some.inj (hsome.symm.trans hsome')
      obtain rfl := Option.some.inj (hopens hbelow hbelow')
      exact ih hrest
    | passed hsome' hclosed =>
      obtain rfl := Option.some.inj (hsome.symm.trans hsome')
      cases hopens hbelow hclosed
  | passed hsome hclosed _ ih =>
    cases h' with
    | done hnone => cases hnone.symm.trans hsome
    | opened hsome' hbelow =>
      obtain rfl := Option.some.inj (hsome.symm.trans hsome')
      cases hopens hbelow hclosed
    | passed hsome' _ hrest => exact ih hrest

end Scans

/-- Wherever the first list stands, a scan that comes to it goes on behind the second one, which it
leaves in its place. -/
def Finishes (opens : τ → Option (List τ) → Prop) (xs ys : List τ) : Prop :=
  ∀ before after out, Scans opens (before ++ ys).length (before ++ ys ++ after) out →
    Scans opens before.length (before ++ xs ++ after) out

namespace Finishes

theorem nil : Finishes opens [] [] := by
  intro before after out h
  simpa using h

theorem append (h : Finishes opens xs ys) (h' : Finishes opens xs' ys') :
    Finishes opens (xs ++ xs') (ys ++ ys') := by
  intro before after out hout
  rw [← List.append_assoc, List.append_assoc _ xs']
  refine h before (xs' ++ after) out ?_
  rw [← List.append_assoc]
  refine h' (before ++ ys) after out ?_
  rwa [List.append_assoc before]

theorem opened (hx : opens x (some below)) (h : Finishes opens below ys) :
    Finishes opens [x] ys := by
  intro before after out hout
  refine .opened (x := x) (by simp) hx ?_
  have htake : (before ++ [x] ++ after).take before.length = before := by simp
  have hdrop : (before ++ [x] ++ after).drop (before.length + 1) = after := by simp
  rw [htake, hdrop]
  exact h before after out hout

theorem passed (hx : opens x none) : Finishes opens [x] [x] := by
  intro before after out hout
  refine .passed (x := x) (by simp) hx ?_
  simpa using hout

theorem scans (h : Finishes opens xs ys) : Scans opens 0 xs ys := by
  have hend : Scans opens ([] ++ ys).length ([] ++ ys ++ []) ys := by
    rw [List.nil_append, List.append_nil]
    exact .done (List.getElem?_eq_none le_rfl)
  simpa using h [] [] ys hend

theorem flatMap {f : τ → List τ} (h : ∀ x ∈ xs, Finishes opens [x] (f x)) :
    Finishes opens xs (xs.flatMap f) := by
  induction xs with
  | nil => exact nil
  | cons x xs ih =>
    obtain ⟨hx, hxs⟩ := List.forall_mem_cons.mp h
    exact hx.append (ih hxs)

end Finishes

end Scans

namespace Tree

theorem splitBy_eq {α : Type} (p : α → Bool) (t : Tree α) :
    splitBy p t = if p t.root then t.subtrees.flatMap (splitBy p) else [t] := by
  obtain ⟨r, ts⟩ := t
  rw [splitBy, splitByList_eq_flatMap]
  rfl

theorem root_of_mem_splitBy {α : Type} {p : α → Bool} {t u : Tree α} (hu : u ∈ splitBy p t) :
    p u.root = false := by
  induction t using Tree.induction with
  | node r ts ih =>
    rw [splitBy_eq] at hu
    split_ifs at hu with hr
    · obtain ⟨t, ht, hu⟩ := List.mem_flatMap.mp hu
      exact ih t ht hu
    · rw [List.mem_singleton.mp hu]
      exact Bool.eq_false_iff.mpr hr

theorem spliceAll_eq_flatMap (ts : List (Tree Label)) :
    spliceAll ts = ts.flatMap (splitBy Label.isSplice) := by
  fun_induction spliceAll ts with
  | case1 => rfl
  | case2 t rest ht ih => rw [ih, List.flatMap_append, List.flatMap_cons, splitBy_eq _ t, if_pos ht]
  | case3 t rest ht ih => rw [ih, List.flatMap_cons, splitBy_eq _ t, if_neg ht, List.singleton_append]

def Opens (t : Tree Label) (o : Option (List (Tree Label))) : Prop :=
  forest.opened t = .ok o

theorem opens_of_isSplice {t : Tree Label} (h : t.root.isSplice = true) :
    t.Opens (some t.subtrees) := by
  simp [Opens, Forest.opened, h, bind, Except.bind, pure, Except.pure]

theorem opens_of_not_isSplice {t : Tree Label} (h : ¬ t.root.isSplice = true) : t.Opens none := by
  simp [Opens, Forest.opened, h, bind, Except.bind, pure, Except.pure]

theorem finishes_splitBy (t : Tree Label) : Finishes Opens [t] (splitBy Label.isSplice t) := by
  induction t using Tree.induction with
  | node r ts ih =>
    rw [splitBy_eq]
    split_ifs with hr
    · exact .opened (opens_of_isSplice hr) (.flatMap ih)
    · exact .passed (opens_of_not_isSplice hr)

end Tree

namespace Store

variable {s s' : Store} {n a : Nat} {as bs : List Nat}

def Opens (s : Store) (a : Nat) (o : Option (List Nat)) : Prop :=
  forest.opened a s = .ok (o, s)

theorem exists_of_bind_run {α β : Type} {x : StoreM α} {f : α → StoreM β} {v : β}
    (h : (x >>= f) s = .ok (v, s')) : ∃ u s₁, x s = .ok (u, s₁) ∧ f u s₁ = .ok (v, s') := by
  obtain ⟨⟨u, s₁⟩, hx, hf⟩ := bind_eq_ok.mp h
  exact ⟨u, s₁, hx, hf⟩

theorem eq_of_node_run {v : Label × Nat} (h : node a s = .ok (v, s')) : s = s' := by
  rw [node] at h
  split at h <;> cases h
  rfl

theorem eq_of_members_run (h : members a s = .ok (as, s')) : s = s' := by
  rw [members] at h
  split at h <;> cases h
  rfl

theorem eq_of_root_run {r : Label} (h : root a s = .ok (r, s')) : s = s' := by
  obtain ⟨v, s₁, hnode, hpure⟩ := exists_of_bind_run h
  cases hpure
  exact eq_of_node_run hnode

theorem eq_of_subtrees_run (h : subtrees a s = .ok (as, s')) : s = s' := by
  obtain ⟨v, s₁, hnode, hmembers⟩ := exists_of_bind_run h
  exact (eq_of_node_run hnode).trans (eq_of_members_run hmembers)

theorem opens_of_isSplice {r : Label} (hroot : root a s = .ok (r, s)) (hr : r.isSplice = true)
    (has : subtrees a s = .ok (as, s)) : s.Opens a (some as) := by
  rw [Opens, Forest.opened, bind_run (x := forest.root a) hroot]
  simp only [if_pos hr]
  exact bind_run has _

theorem opens_of_not_isSplice {r : Label} (hroot : root a s = .ok (r, s))
    (hr : ¬ r.isSplice = true) : s.Opens a none := by
  rw [Opens, Forest.opened, bind_run (x := forest.root a) hroot]
  simp only [if_neg hr]
  rfl

/-- A splice that returns leaves the store as it is, and finishes its list as a scan does. -/
theorem finishes_of_spliceWithin_run (h : spliceWithin n as s = .ok (bs, s')) :
    s = s' ∧ Finishes s.Opens as bs := by
  induction n generalizing as bs s' with
  | zero => cases h
  | succ n ih =>
    induction as generalizing bs s' with
    | nil =>
      cases h
      exact ⟨rfl, .nil⟩
    | cons a as ih' =>
      rw [spliceWithin_cons] at h
      obtain ⟨r, s₁, hroot, hparts⟩ := exists_of_bind_run h
      obtain rfl := eq_of_root_run hroot
      by_cases hr : r.isSplice
      · simp only [if_pos hr] at hparts
        obtain ⟨part, s₂, hpart, hlast⟩ := exists_of_bind_run hparts
        obtain ⟨cs, s₃, hcs, hbelow⟩ := exists_of_bind_run hpart
        obtain rfl := eq_of_subtrees_run hcs
        obtain ⟨rfl, hfinish⟩ := ih hbelow
        obtain ⟨ds, s₄, hds, hpure⟩ := exists_of_bind_run hlast
        obtain ⟨rfl, hrest⟩ := ih' hds
        cases hpure
        exact ⟨rfl, (Finishes.opened (opens_of_isSplice hroot hr hcs) hfinish).append hrest⟩
      · simp only [if_neg hr, pure_bind] at hparts
        obtain ⟨ds, s₄, hds, hpure⟩ := exists_of_bind_run hparts
        obtain ⟨rfl, hrest⟩ := ih' hds
        cases hpure
        exact ⟨rfl, (Finishes.passed (opens_of_not_isSplice hroot hr)).append hrest⟩

end Store

/-- The scan of a list of trees ends with the list in which each tree under the list mark is replaced
by what recursion makes of its subtrees, and no tree of that list is under the list mark. The same
holds of nodes that trees are read from, however these share their cells. -/
theorem scans_iff_eq_splice (ts : List (Tree Label)) :
    (∀ us, Scans Tree.Opens 0 ts us ↔ us = Tree.splitByList Label.isSplice ts) ∧
      Tree.spliceAll ts = Tree.splitByList Label.isSplice ts ∧
      (∀ t ∈ Tree.splitByList Label.isSplice ts, t.root.isSplice = false) ∧
      ∀ s as F, Store.ReadsAll s as ts F → ∃ bs G, Store.splice as s = .ok (bs, s) ∧
        Store.ReadsAll s bs (Tree.splitByList Label.isSplice ts) G ∧
        ∀ cs, Scans s.Opens 0 as cs ↔ cs = bs := by
  rw [Tree.splitByList_eq_flatMap]
  have hscan := (Finishes.flatMap fun t _ => Tree.finishes_splitBy t : Finishes Tree.Opens ts _).scans
  refine ⟨fun us => ⟨fun h => ?_, fun h => h ▸ hscan⟩, Tree.spliceAll_eq_flatMap ts, ?_, ?_⟩
  · exact h.unique (fun h h' => Except.ok.inj (h.symm.trans h')) hscan
  · intro t ht
    obtain ⟨u, -, ht⟩ := List.mem_flatMap.mp ht
    exact Tree.root_of_mem_splitBy ht
  · intro s as F hreads
    obtain ⟨bs, G, hrun, hbs, -⟩ := hreads.exists_splice_run
    rw [Tree.spliceAll_eq_flatMap] at hbs
    have hwithin : Store.spliceWithin (s.cells.size + 1) as s = .ok (bs, s) := hrun
    have hnodes := (Store.finishes_of_spliceWithin_run hwithin).2.scans
    refine ⟨bs, G, hrun, hbs, fun cs => ⟨fun h => ?_, fun h => h ▸ hnodes⟩⟩
    exact h.unique (fun h h' => (Prod.mk.inj (Except.ok.inj (h.symm.trans h'))).1) hnodes

/-- A leaf, and list marks over it, of which one is empty, one nested and one used three times. -/
def sharedMarks : Store :=
  ⟨#[.list [], .node (.word "b") 0, .list [1], .node .splice 2, .list [], .node .splice 4,
    .list [3, 5, 3], .node .splice 6]⟩

def markedTrees : List (Tree Label) :=
  let b := Tree.word "b" []
  [b, .node .splice [.node .splice [b], .node .splice [], .node .splice [b]], .node .splice [b]]

theorem splice_sharedMarks : ∃ F, Store.ReadsAll sharedMarks [1, 7, 3] markedTrees F ∧
    ∃ bs G, Store.splice [1, 7, 3] sharedMarks = .ok (bs, sharedMarks) ∧
      Store.ReadsAll sharedMarks bs (List.replicate 4 (Tree.word "b" [])) G ∧
      ∀ cs, Scans sharedMarks.Opens 0 [1, 7, 3] cs ↔ cs = bs := by
  have hleaf : Store.Reads sharedMarks 1 (Tree.word "b" []) _ := .node rfl rfl .nil
  have hone : Store.Reads sharedMarks 3 (.node .splice [Tree.word "b" []]) _ :=
    .node rfl rfl (.cons hleaf .nil)
  have hreads : Store.ReadsAll sharedMarks [1, 7, 3] markedTrees _ :=
    .cons hleaf (.cons (.node rfl rfl (.cons hone (.cons (.node rfl rfl .nil) (.cons hone .nil))))
      (.cons hone .nil))
  exact ⟨_, hreads, (scans_iff_eq_splice markedTrees).2.2.2 _ _ _ hreads⟩

end WhileSketch
