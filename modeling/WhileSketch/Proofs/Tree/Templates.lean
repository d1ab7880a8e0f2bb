import Mathlib
import WhileSketch.Proofs.Tree.Matching
import WhileSketch.Tree.Substitution

/-! Matching a template against a tree and putting groups into a template undo each other. -/

namespace WhileSketch

open Pattern

namespace Tree

variable {t : Tree Label} {ts us : List (Tree Label)}

theorem spliceAll_cons_of_isPlain (ht : t.IsPlain) (us : List (Tree Label)) :
    spliceAll (t :: us) = t :: spliceAll us := by
  cases t with
  | node r ts =>
    exact spliceAll_cons_of_not_isSplice
      (by simp [Label.isSplice_eq_false (isPlain_node.mp ht).1]) us

theorem spliceAll_splice (us vs : List (Tree Label)) :
    spliceAll (node .splice us :: vs) = spliceAll (us ++ vs) :=
  spliceAll_cons_of_isSplice rfl vs

theorem spliceAll_append_of_isPlain (hts : ∀ t ∈ ts, t.IsPlain) (us : List (Tree Label)) :
    spliceAll (ts ++ us) = ts ++ spliceAll us := by
  induction ts with
  | nil => rfl
  | cons t ts ih =>
    simp only [List.forall_mem_cons] at hts
    rw [List.cons_append, spliceAll_cons_of_isPlain hts.1, ih hts.2, List.cons_append]

theorem exists_depth {r : Label} {depth : Nat} (h : (node r ts).size ≤ depth) :
    ∃ n, depth = n + 1 ∧ sizeList ts ≤ n := by
  rw [size] at h
  exact ⟨depth - 1, by omega, by omega⟩

mutual

theorem forest_plant : ∀ t : Tree Label, forest.plant t = .ok t
  | .node r ts => by rw [Forest.plant, forest_plantAll ts]; rfl

theorem forest_plantAll : ∀ ts : List (Tree Label), forest.plantAll ts = .ok ts
  | [] => rfl
  | t :: ts => by rw [Forest.plantAll, forest_plant t, forest_plantAll ts]; rfl

end

end Tree

namespace Substitution

variable {g : Groups (Tree Label)} {u : Tree Label}

def ofGroups (g : Groups (Tree Label)) : Transform (Except Fault) (Tree Label) :=
  simple Tree.forest (g.map fun e => (.label e.1, .ofBinding Tree.forest e.2))

theorem transformer_eq_none {k : Label} (h : u.root.agrees k = false)
    (s : Supply (Except Fault) (Tree Label)) :
    transformer Tree.forest (.label k) s u = .ok none := by
  have hroot : Target.isRoot (.label k) u.root = false := h
  have hleaf : u.root.agrees (Target.label k).asTree.root = false := h
  cases s <;> simp [transformer, ok_bind, hroot, hleaf] <;> rfl

/-- What a binding puts in the place of its name, where a tree takes that of a leaf only. -/
def outcome : Binding (Tree Label) → Outcome (Tree Label)
  | .tree t => .replace t
  | .trees ts => .replace (.node .splice ts)
  | .root l => .relabel l

theorem transformer_eq_outcome {k : Label} {b : Binding (Tree Label)} (hu : u.root = k)
    (hleaf : ∀ t, b = .tree t → u.subtrees = []) :
    transformer Tree.forest (.label k) (.ofBinding Tree.forest b) u = .ok (some (outcome b)) := by
  have hroot : Target.isRoot (.label k) u.root = true := by simp [hu, Target.isRoot, Label.agrees]
  cases b with
  | tree t =>
    obtain ⟨r, ts⟩ := u
    cases hu
    cases hleaf t rfl
    simp [transformer, ok_bind, Supply.ofBinding, Supply.asTree, Target.asTree, Tree.leaf,
      Tree.root, Label.agrees, Tree.agrees, Tree.same, Tree.sameList]
    rfl
  | trees ts => simp [transformer, ok_bind, Supply.ofBinding, hroot]; rfl
  | root l => simp [transformer, ok_bind, Supply.ofBinding, hroot]; rfl

theorem firstOutcome_eq_none (h : ∀ e ∈ g, u.root.agrees e.1 = false) :
    Transform.firstOutcome (ofGroups g).transformers u = .ok none := by
  suffices hgo : ∀ i, Transform.firstOutcome.go u i (ofGroups g).transformers = .ok none from hgo 0
  induction g with
  | nil => exact fun i => rfl
  | cons e g ih =>
    intro i
    simp only [List.forall_mem_cons] at h
    rw [← ih h.2 (i + 1)]
    simp only [ofGroups, simple, List.map_cons, Transform.firstOutcome.go,
      transformer_eq_none h.1, ok_bind]

theorem firstOutcome_eq_some {k : Label} {b : Binding (Tree Label)} (hb : (k, b) ∈ g)
    (hplain : ∀ k ∈ g.keys, k.isPlain = true) (hkeys : g.keys.Nodup) (hu : u.root = k)
    (hleaf : ∀ t, b = .tree t → u.subtrees = []) :
    ∃ i, Transform.firstOutcome (ofGroups g).transformers u = .ok (some (i, outcome b)) := by
  suffices hgo : ∀ i, ∃ j, Transform.firstOutcome.go u i (ofGroups g).transformers =
      .ok (some (j, outcome b)) from hgo 0
  induction g with
  | nil => simp at hb
  | cons e g ih =>
    intro i
    simp only [Groups.keys, List.map_cons, List.forall_mem_cons, List.nodup_cons] at hplain hkeys
    simp only [ofGroups, simple, List.map_cons, Transform.firstOutcome.go]
    obtain rfl | hb := List.mem_cons.mp hb
    · exact ⟨i, by simp only [transformer_eq_outcome hu hleaf, ok_bind]; rfl⟩
    · have hk : k ∈ g.map Prod.fst := List.mem_map_of_mem hb
      have hne : u.root.agrees e.1 = false := by
        rw [hu]
        refine Label.agrees_eq_false (hplain.2 k hk) hplain.1 ?_
        rintro rfl
        exact hkeys.1 hk
      obtain ⟨j, hj⟩ := ih hb hplain.2 hkeys.2 (i + 1)
      exact ⟨j, by simp only [transformer_eq_none hne, ok_bind]; exact hj⟩

variable {depth i : Nat} {l : Label} {v : Tree Label} {us : List (Tree Label)}

theorem forest_inPlaceOf (hl : l.isPlain = true) (t : Tree Label) :
    Tree.forest.inPlaceOf l t = .ok t := by
  cases l <;> simp_all [Label.isPlain, Forest.inPlaceOf] <;> rfl

variable {k : Label} {ps : List (Tree Label)}

theorem apply_replace (hk : k.isPlain = true)
    (ho : Transform.firstOutcome (ofGroups g).transformers (.node k ps) =
      .ok (some (i, .replace v))) (depth : Nat) :
    (ofGroups g).applyWithin Tree.forest (depth + 1) (.node k ps) = .ok v := by
  simp only [Transform.applyWithin, Tree.forest_root, ok_bind, Transform.atRoot, ho, Tree.root]
  simp [ofGroups, simple, Transform.reapply, forest_inPlaceOf hk, ok_bind]

theorem apply_relabel (hk : k.isPlain = true)
    (ho : Transform.firstOutcome (ofGroups g).transformers (.node k ps) =
      .ok (some (i, .relabel l)))
    (hus : ps.mapM ((ofGroups g).applyWithin Tree.forest depth) = .ok us) :
    (ofGroups g).applyWithin Tree.forest (depth + 1) (.node k ps) =
      .ok (.node l (Tree.spliceAll us)) := by
  simp only [Transform.applyWithin, Tree.forest_root, Tree.forest_subtrees, ok_bind,
    Transform.atRoot, ho, Tree.root, Tree.subtrees]
  have hdir : (ofGroups g).direction = .topDown := rfl
  simp [hdir, hus, ok_bind, forest_inPlaceOf hk]

theorem apply_keep (hk : k.isPlain = true)
    (ho : Transform.firstOutcome (ofGroups g).transformers (.node k ps) = .ok none)
    (hus : ps.mapM ((ofGroups g).applyWithin Tree.forest depth) = .ok us) :
    (ofGroups g).applyWithin Tree.forest (depth + 1) (.node k ps) =
      .ok (.node k (Tree.spliceAll us)) := by
  simp only [Transform.applyWithin, Tree.forest_root, Tree.forest_subtrees, ok_bind,
    Transform.atRoot, ho, Tree.root, Tree.subtrees]
  have hdir : (ofGroups g).direction = .topDown := rfl
  have hrelabel : (ofGroups g).relabel k = .ok none := rfl
  simp [hdir, hrelabel, hus, ok_bind, forest_inPlaceOf hk]

end Substitution

namespace Pattern

open Substitution

structure Names (g : Groups (Tree Label)) : Prop where
  plain : ∀ k ∈ g.keys, k.isPlain = true
  distinct : g.keys.Nodup
  placeholders : ∀ k ∈ g.keys, isPlaceholder k = true

theorem Names.firstOutcome {g : Groups (Tree Label)} (hg : Names g) {k : Label}
    {b : Binding (Tree Label)} (hb : (k, b) ∈ g) {ps : List (Tree Label)}
    (hleaf : ∀ t, b = .tree t → ps = []) :
    ∃ i, Transform.firstOutcome (ofGroups g).transformers (.node k ps) =
      .ok (some (i, outcome b)) :=
  firstOutcome_eq_some hb hg.plain hg.distinct rfl hleaf

theorem Names.firstOutcome_label {g : Groups (Tree Label)} (hg : Names g) {l : Label}
    (hl : l.isPlain = true) (hplace : isPlaceholder l = false) (ps : List (Tree Label)) :
    Transform.firstOutcome (ofGroups g).transformers (.node l ps) = .ok none := by
  refine firstOutcome_eq_none fun e he => Label.agrees_eq_false hl ?_ ?_
  · exact hg.plain _ (List.mem_map_of_mem he)
  · rintro rfl
    have hp := hg.placeholders _ (List.mem_map_of_mem he)
    simp [hplace] at hp

mutual

/-- Putting the groups in the place of their names gives back the tree that they were found in. -/
theorem Fits.apply {g : Groups (Tree Label)} (hg : Names g) {depth : Nat} {p t : Tree Label}
    {h : Groups (Tree Label)} (hp : p.IsPlain) (ht : t.IsPlain) (hsub : ∀ e ∈ h, e ∈ g)
    (hdepth : p.size ≤ depth) :
    Fits p t h → (ofGroups g).applyWithin Tree.forest depth p = .ok t
  | .tree hk t => by
    obtain ⟨i, ho⟩ := hg.firstOutcome (hsub _ List.mem_cons_self) fun _ _ => rfl
    obtain ⟨n, rfl, -⟩ := Tree.exists_depth hdepth
    exact apply_replace (Tree.isPlain_node.mp hp).1 ho n
  | @Fits.root k ps ts h' hk hr r hts => by
    rw [Tree.isPlain_node] at hp ht
    simp only [List.forall_mem_cons] at hsub
    obtain ⟨i, ho⟩ := hg.firstOutcome hsub.1 (by simp)
    obtain ⟨n, rfl, hn⟩ := Tree.exists_depth hdepth
    obtain ⟨us, hus, hsplice⟩ := hts.apply hg hp.2 ht.2 hsub.2 hn
    rw [apply_relabel hp.1 ho hus, hsplice]
  | @Fits.label k ps ts _ hk hts => by
    rw [Tree.isPlain_node] at hp ht
    obtain ⟨n, rfl, hn⟩ := Tree.exists_depth hdepth
    obtain ⟨us, hus, hsplice⟩ := hts.apply hg hp.2 ht.2 hsub hn
    rw [apply_keep hp.1 (hg.firstOutcome_label hp.1 hk _) hus, hsplice]

theorem FitsAll.apply {g : Groups (Tree Label)} (hg : Names g) {depth : Nat}
    {ps ts : List (Tree Label)} {h : Groups (Tree Label)} (hps : ∀ p ∈ ps, p.IsPlain)
    (hts : ∀ t ∈ ts, t.IsPlain) (hsub : ∀ e ∈ h, e ∈ g) (hdepth : Tree.sizeList ps ≤ depth) :
    FitsAll ps ts h → ∃ us, ps.mapM ((ofGroups g).applyWithin Tree.forest depth) = .ok us ∧
      Tree.spliceAll us = ts
  | .nil => ⟨[], rfl, by rw [Tree.spliceAll]⟩
  | .one hk ht hts' => by
    simp only [List.forall_mem_cons, List.forall_mem_append] at hps hts hsub
    rw [Tree.sizeList] at hdepth
    have hfirst := ht.apply hg hps.1 hts.1 hsub.1 (Nat.le_of_add_right_le hdepth)
    obtain ⟨us, hus, hsplice⟩ :=
      hts'.apply hg hps.2 hts.2 hsub.2 ((Nat.le_add_left _ _).trans hdepth)
    refine ⟨_ :: us, by simp only [List.mapM_cons, hfirst, hus, ok_bind]; rfl, ?_⟩
    rw [Tree.spliceAll_cons_of_isPlain hts.1, hsplice]
  | .many hk us hts' => by
    simp only [List.forall_mem_cons, List.forall_mem_append] at hps hts hsub
    rw [Tree.sizeList] at hdepth
    obtain ⟨vs, hvs, hsplice⟩ :=
      hts'.apply hg hps.2 hts.2 hsub.2 ((Nat.le_add_left _ _).trans hdepth)
    obtain ⟨i, ho⟩ := hg.firstOutcome hsub.1
      (fun _ _ => rfl : ∀ t, _ → ([] : List (Tree Label)) = [])
    obtain ⟨n, rfl, -⟩ := Tree.exists_depth (Nat.le_of_add_right_le hdepth)
    have hfirst := apply_replace (Tree.isPlain_node.mp hps.1).1 ho n
    refine ⟨_ :: vs, by simp only [List.mapM_cons, Tree.leaf, hfirst, hvs, ok_bind]; rfl, ?_⟩
    rw [Tree.spliceAll_splice, Tree.spliceAll_append_of_isPlain hts.1, hsplice]

end

end Pattern

/-- What a name of a template may be bound to: it stands for a tree, for a list or for a label. -/
def Binding.Suits (key : Label) : Binding (Tree Label) → Prop
  | .tree t => isTreePlaceholder key = true ∧ isListPlaceholder key = false ∧ t.IsPlain
  | .trees ts => isListPlaceholder key = true ∧ ∀ t ∈ ts, t.IsPlain
  | .root l => isTreePlaceholder key = false ∧ isRootPlaceholder key = true ∧ l.isPlain = true

/-- Groups that bind each name of a template, once and to what it stands for. -/
structure Groups.Suit (g : Groups (Tree Label)) (p : Tree Label) : Prop where
  keys : g.keys.Perm (placeholders p)
  bindings : ∀ e ∈ g, e.2.Suits e.1

namespace Pattern

open Substitution

variable {g : Groups (Tree Label)} {p t : Tree Label}

mutual

theorem Fits.suits {p t : Tree Label} {g : Groups (Tree Label)} (ht : t.IsPlain)
    (hlist : isListPlaceholder p.root = false) : Fits p t g → ∀ e ∈ g, e.2.Suits e.1
  | .tree hk t => by simpa [Binding.Suits] using ⟨hk, hlist, ht⟩
  | .root hk hr r hts => by
    rw [Tree.isPlain_node] at ht
    simpa [Binding.Suits, hk, hr, ht.1] using hts.suits ht.2
  | .label hk hts => hts.suits (Tree.isPlain_node.mp ht).2

theorem FitsAll.suits {ps ts : List (Tree Label)} {g : Groups (Tree Label)}
    (hts : ∀ t ∈ ts, t.IsPlain) : FitsAll ps ts g → ∀ e ∈ g, e.2.Suits e.1
  | .nil => by simp
  | .one hk ht hts' => by
    simp only [List.forall_mem_cons] at hts
    simpa only [List.forall_mem_append] using ⟨ht.suits hts.1 hk, hts'.suits hts.2⟩
  | .many hk us hts' => by
    simp only [List.forall_mem_append] at hts
    simpa only [List.forall_mem_cons] using ⟨⟨hk, hts.1⟩, hts'.suits hts.2⟩

end

theorem exists_fitsAll {ps : List (Tree Label)}
    (hleaf : ∀ c ∈ ps, isListPlaceholder c.root = true → c.subtrees = [])
    (hg : ∀ k ∈ ps.flatMap placeholders, ∃ b, (k, b) ∈ g ∧ b.Suits k)
    (hps : ∀ c ∈ ps, isListPlaceholder c.root = false →
      ∃ t h, Fits c t h ∧ t.IsPlain ∧ ∀ e ∈ h, e ∈ g) :
    ∃ ts h, FitsAll ps ts h ∧ (∀ t ∈ ts, t.IsPlain) ∧ ∀ e ∈ h, e ∈ g := by
  induction ps with
  | nil => exact ⟨[], [], .nil, by simp, by simp⟩
  | cons c ps ih =>
    simp only [List.forall_mem_cons, List.flatMap_cons, List.forall_mem_append] at hleaf hg hps
    obtain ⟨ts, h, hts, hplain, hsub⟩ := ih hleaf.2 hg.2 hps.2
    cases hc : isListPlaceholder c.root with
    | false =>
      obtain ⟨t, h', ht, htplain, htsub⟩ := hps.1 hc
      exact ⟨t :: ts, h' ++ h, .one hc ht hts, by simpa using ⟨htplain, hplain⟩,
        by simpa only [List.forall_mem_append] using ⟨htsub, hsub⟩⟩
    | true =>
      obtain ⟨k, cs⟩ := c
      cases hleaf.1 hc
      have htree : isTreePlaceholder k = true := isTreePlaceholder_of_isListPlaceholder hc
      obtain ⟨b, hb, hsuits⟩ := hg.1 k (by simp [placeholders_node, isPlaceholder, htree])
      cases b with
      | tree t => exact absurd hsuits.2.1 (by simp [show isListPlaceholder k = true from hc])
      | trees us =>
        exact ⟨us ++ ts, (k, .trees us) :: h, .many hc us hts,
          by simpa only [List.forall_mem_append] using ⟨hsuits.2, hplain⟩,
          by simpa only [List.forall_mem_cons] using ⟨hb, hsub⟩⟩
      | root l => exact absurd hsuits.1 (by simp [htree])

/-- A template has an instance for any bindings of its names to what these stand for. -/
theorem exists_fits (hp : IsTemplate p) (hlist : isListPlaceholder p.root = false)
    (hg : ∀ k ∈ placeholders p, ∃ b, (k, b) ∈ g ∧ b.Suits k) :
    ∃ t h, Fits p t h ∧ t.IsPlain ∧ ∀ e ∈ h, e ∈ g := by
  induction p using Tree.induction with
  | node k ps ih =>
    rw [placeholders_node] at hg
    have hbelow (hg : ∀ k ∈ ps.flatMap placeholders, ∃ b, (k, b) ∈ g ∧ b.Suits k) :
        ∃ ts h, FitsAll ps ts h ∧ (∀ t ∈ ts, t.IsPlain) ∧ ∀ e ∈ h, e ∈ g :=
      exists_fitsAll hp.leaf_of_list hg fun c hc hlist =>
        ih c hc (hp.child hc) hlist fun k hk => hg k (List.mem_flatMap.mpr ⟨c, hc, hk⟩)
    cases htree : isTreePlaceholder k with
    | true =>
      cases hp.leaves _ Tree.mem_nodes_self htree
      obtain ⟨b, hb, hsuits⟩ := hg k (by simp [isPlaceholder, htree])
      cases b with
      | tree t => exact ⟨t, _, .tree htree t, hsuits.2.2, by simpa using hb⟩
      | trees ts => exact absurd hsuits.1 (by simp [show isListPlaceholder k = false from hlist])
      | root l => exact absurd hsuits.1 (by simp [htree])
    | false =>
      cases hroot : isRootPlaceholder k with
      | true =>
        simp only [isPlaceholder, htree, hroot, Bool.or_true, if_true, List.forall_mem_cons] at hg
        obtain ⟨ts, h, hts, hplain, hsub⟩ := hbelow hg.2
        obtain ⟨b, hb, hsuits⟩ := hg.1
        cases b with
        | tree t => exact absurd hsuits.1 (by simp [htree])
        | trees ts =>
          exact absurd (isTreePlaceholder_of_isListPlaceholder hsuits.1) (by simp [htree])
        | root l =>
          exact ⟨.node l ts, _, .root htree hroot l hts, Tree.isPlain_node.mpr ⟨hsuits.2.2, hplain⟩,
            by simpa only [List.forall_mem_cons] using ⟨hb, hsub⟩⟩
      | false =>
        have hk : isPlaceholder k = false := by simp [isPlaceholder, htree, hroot]
        obtain ⟨ts, h, hts, hplain, hsub⟩ := hbelow (by simpa [hk] using hg)
        exact ⟨.node k ts, h, .label hk hts,
          Tree.isPlain_node.mpr ⟨(Tree.isPlain_node.mp hp.plain).1, hplain⟩, hsub⟩

theorem IsTemplate.names (hp : IsTemplate p) (hg : g.Suit p) : Names g where
  plain := fun k hk => hp.plain k (List.mem_of_mem_filter (hg.keys.mem_iff.mp hk))
  distinct := hg.keys.nodup_iff.mpr hp.distinct
  placeholders := fun _ hk => (List.mem_filter.mp (hg.keys.mem_iff.mp hk)).2

theorem exists_fits_perm (hp : IsTemplate p) (hlist : isListPlaceholder p.root = false)
    (hg : g.Suit p) : ∃ t h, Fits p t h ∧ t.IsPlain ∧ h.Perm g := by
  have hnames := hp.names hg
  obtain ⟨t, h, hfits, hplain, hsub⟩ := exists_fits hp hlist (g := g) fun _ hk => by
    obtain ⟨⟨_, b⟩, hb, rfl⟩ := List.mem_map.mp (hg.keys.mem_iff.mpr hk)
    exact ⟨b, hb, hg.bindings _ hb⟩
  have hkeys : h.keys.Nodup := hfits.keys_eq ▸ hp.distinct
  have hlen : g.length ≤ h.length := by
    have hperm := hg.keys.length_eq
    rw [← hfits.keys_eq, Groups.keys, Groups.keys, List.length_map, List.length_map] at hperm
    exact hperm.le
  exact ⟨t, h, hfits, hplain, ((List.Nodup.of_map _ hkeys).subperm hsub).perm_of_length_le hlen⟩

theorem instantiate_eq (g : Groups (Tree Label)) (p : Tree Label) :
    instantiate Tree.forest g p = (ofGroups g).applyWithin Tree.forest p.size p := by
  rw [instantiate, Tree.forest_plant]
  rfl

theorem Fits.instantiate_eq {h : Groups (Tree Label)} (hp : IsTemplate p) (ht : t.IsPlain)
    (hg : g.Suit p) (hperm : h.Perm g) (hfits : Fits p t h) :
    instantiate Tree.forest g p = .ok t := by
  rw [Pattern.instantiate_eq]
  exact hfits.apply (hp.names hg) hp.plain ht (fun e he => hperm.mem_iff.mp he) le_rfl

/-- Matching a template succeeds on the instances of the template and on no other trees, and finds
the groups of which a tree is the instance. -/
theorem matchTree_iff_instantiate (hp : IsTemplate p) (hlist : isListPlaceholder p.root = false)
    (ht : t.IsPlain) :
    ∃ o, matchTree (.top p) t = .ok o ∧ (∀ g' ∈ o, Groups.Suit g' p) ∧
      ∀ g, Groups.Suit g p → ((∃ g' ∈ o, g'.Perm g) ↔ instantiate Tree.forest g p = .ok t) := by
  obtain ⟨o, ho, hsound, hcomplete⟩ := finds_matchTemplate hp ht
  have hsuit : ∀ g' ∈ o, ∀ h, Fits p t h → g'.Perm h →
      Groups.Suit g' p := fun g' hg' h hfits hperm =>
    ⟨hfits.keys_eq ▸ hperm.map _, fun e he => hfits.suits ht hlist e (hperm.mem_iff.mp he)⟩
  refine ⟨o, ho, ?_, fun g hg => ⟨?_, ?_⟩⟩
  · intro g' hg'
    obtain ⟨h, hfits, hperm⟩ := hsound g' hg'
    exact hsuit g' hg' h hfits hperm
  · rintro ⟨g', hg', hperm⟩
    obtain ⟨h, hfits, hperm'⟩ := hsound g' hg'
    exact hfits.instantiate_eq hp ht hg (hperm'.symm.trans hperm)
  · intro hinst
    obtain ⟨u, h, hfits, hu, hperm⟩ := exists_fits_perm hp hlist hg
    rw [hfits.instantiate_eq hp hu hg hperm] at hinst
    cases hinst
    obtain ⟨g', hg', hperm'⟩ := hcomplete h hfits
    exact ⟨g', hg', hperm'.trans hperm⟩

def callTemplate : Tree Label :=
  .word "f" [.word "$x" [], .word "?g" [.word "$args..." [], .word "end" []]]

theorem isTemplate_callTemplate : IsTemplate callTemplate where
  plain := by simp [callTemplate, Tree.word, Tree.isPlain_node, Label.isPlain]
  distinct := by
    simp [callTemplate, Tree.word, placeholders_node]
    decide +kernel
  leaves := by
    simp [callTemplate, Tree.word, Tree.nodes_node]
    decide +kernel
  oneList := by
    simp [callTemplate, Tree.word, Tree.nodes_node]
    decide +kernel

def callGroups : Groups (Tree Label) :=
  [(.word "$args...", .trees [.word "a" [], .word "b" []]), (.word "?g", .root (.num 7)),
    (.word "$x", .tree (.word "c" [.word "d" []]))]

theorem suit_callGroups : callGroups.Suit callTemplate where
  keys := by
    have hkeys : placeholders callTemplate = [.word "$x", .word "?g", .word "$args..."] := by
      simp [callTemplate, Tree.word, placeholders_node]
      decide +kernel
    rw [hkeys]
    exact (List.reverse_perm _).symm
  bindings := by
    simp [callGroups, Binding.Suits, Tree.word, Tree.isPlain_node, Label.isPlain]
    decide +kernel

theorem matchTree_callTemplate : ∃ g', matchTree (.top callTemplate)
    (.word "f" [.word "c" [.word "d" []],
      .node (.num 7) [.word "a" [], .word "b" [], .word "end" []]]) =
      .ok (some g') ∧ g'.Perm callGroups := by
  obtain ⟨o, ho, -, hiff⟩ := matchTree_iff_instantiate isTemplate_callTemplate
    (t := .word "f" [.word "c" [.word "d" []],
      .node (.num 7) [.word "a" [], .word "b" [], .word "end" []]])
    (by decide +kernel) (by simp [Tree.word, Tree.isPlain_node, Label.isPlain])
  obtain ⟨g', hg', hperm⟩ := (hiff callGroups suit_callGroups).mpr (by cbv)
  exact ⟨g', by rw [ho, hg'], hperm⟩

end Pattern

end WhileSketch
