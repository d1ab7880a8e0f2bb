import Mathlib
import WhileSketch.Proofs.Tree.InPlace
import WhileSketch.Proofs.Tree.Templates

/-! Rules that never fail on trees: their pattern is matched without fail, and their template is filled
with what the tree has. No other labels come in. -/

namespace WhileSketch

variable {Q : Label → Prop}

def Binding.AllLabels (Q : Label → Prop) : Binding (Tree Label) → Prop
  | .tree t => t.AllLabels Q
  | .trees ts => ∀ t ∈ ts, t.AllLabels Q
  | .root l => Q l

def Groups.AllLabels (Q : Label → Prop) (g : Groups (Tree Label)) : Prop :=
  ∀ e ∈ g, e.2.AllLabels Q

section Groups

variable {g h : Groups (Tree Label)} {b : Binding (Tree Label)}

theorem Groups.AllLabels.set (hg : g.AllLabels Q) (hb : b.AllLabels Q) (key : Label) :
    (g.set key b).AllLabels Q := by
  induction g with
  | nil => exact List.forall_mem_singleton.mpr hb
  | cons e g ih =>
    obtain ⟨he, hg⟩ := List.forall_mem_cons.mp hg
    rw [Groups.set]
    split_ifs
    · exact List.forall_mem_cons.mpr ⟨hb, hg⟩
    · exact List.forall_mem_cons.mpr ⟨he, ih hg⟩

theorem Groups.AllLabels.update (hg : g.AllLabels Q) (hh : h.AllLabels Q) : (g.update h).AllLabels Q := by
  unfold Groups.update
  induction h generalizing g with
  | nil => exact hg
  | cons e h ih =>
    obtain ⟨he, hh⟩ := List.forall_mem_cons.mp hh
    exact ih (hg.set he e.1) hh

end Groups

namespace Pattern

abbrev FindsLabels (Q : Label → Prop) (x : Except Fault (Option (Groups (Tree Label)))) : Prop :=
  Gives (fun o => ∀ g ∈ o, g.AllLabels Q) x

variable {ts : List (Tree Label)} {g : Groups (Tree Label)}

theorem findsLabels_some (h : g.AllLabels Q) : FindsLabels Q (.ok (some g)) :=
  ⟨_, rfl, by simpa using h⟩

theorem findsLabels_none : FindsLabels Q (.ok none) :=
  ⟨_, rfl, by simp⟩

theorem findsLabels_matchInTurn {fs : List (Matcher (Except Fault) (Tree Label))}
    (hfs : ∀ f ∈ fs, ∀ t, t.AllLabels Q → FindsLabels Q (f t)) (hts : ∀ t ∈ ts, t.AllLabels Q)
    (hg : g.AllLabels Q) : FindsLabels Q (matchInTurn fs ts g) := by
  induction fs generalizing ts g with
  | nil => exact findsLabels_some hg
  | cons f fs ih =>
    obtain ⟨hf, hfs⟩ := List.forall_mem_cons.mp hfs
    cases ts with
    | nil => exact findsLabels_some hg
    | cons t ts =>
      obtain ⟨ht, hts⟩ := List.forall_mem_cons.mp hts
      rw [matchInTurn]
      refine (hf t ht).bind fun o ho => ?_
      cases o with
      | none => exact findsLabels_none
      | some h => exact ih hfs hts (hg.update (ho h rfl))

theorem findsLabels_matchChildren {parts : List (Label × Matcher (Except Fault) (Tree Label))}
    (hone : (parts.filter fun part => isListPlaceholder part.1).length ≤ 1)
    (hparts : ∀ part ∈ parts, ∀ t, t.AllLabels Q → FindsLabels Q (part.2 t))
    (hts : ∀ t ∈ ts, t.AllLabels Q) (hg : g.AllLabels Q) :
    FindsLabels Q (matchChildren parts ts g) := by
  have hsome : ∀ {qs : List (Label × Matcher (Except Fault) (Tree Label))}, (∀ q ∈ qs, q ∈ parts) →
      ∀ f ∈ qs.map Prod.snd, ∀ t, t.AllLabels Q → FindsLabels Q (f t) := by
    intro qs hqs f hf
    obtain ⟨q, hq, rfl⟩ := List.mem_map.mp hf
    exact hparts q (hqs q hq)
  unfold matchChildren
  split
  case h_1 =>
    split_ifs
    · exact findsLabels_matchInTurn (hsome fun q hq => hq) hts hg
    · exact findsLabels_none
  case h_2 key f hlist =>
    split_ifs
    · exact findsLabels_none
    · refine (findsLabels_matchInTurn (hsome fun q hq => (List.takeWhile_sublist _).subset hq) hts
        hg).bind fun o ho => ?_
      cases o with
      | none => exact findsLabels_none
      | some h =>
        refine (findsLabels_matchInTurn
          (fun f hf => hsome (fun q hq => List.mem_of_mem_drop hq) f (List.mem_reverse.mp hf))
          (fun t ht => hts t (List.mem_reverse.mp ht)) (ho h rfl)).bind fun o ho => ?_
        cases o with
        | none => exact findsLabels_none
        | some h =>
          refine findsLabels_some ((ho h rfl).set ?_ key)
          exact fun t ht => hts t (List.mem_of_mem_drop (List.mem_of_mem_take ht))
  case h_3 hnone hsingle =>
    cases hlists : parts.filter fun part => isListPlaceholder part.1 with
    | nil => exact absurd hlists hnone
    | cons e rest =>
      cases rest with
      | nil => exact absurd hlists (hsingle e.1 e.2)
      | cons d rest => simp [hlists] at hone

theorem findsLabels_matchTemplate {p : Tree Label}
    (hp : ∀ n ∈ p.nodes, (n.subtrees.countP fun c => isListPlaceholder c.root) ≤ 1) {t : Tree Label}
    (ht : t.AllLabels Q) : FindsLabels Q (matchTemplate Tree.forest p t) := by
  induction p using Tree.induction generalizing t with
  | node p ps ih =>
    obtain ⟨r, ts⟩ := t
    obtain ⟨hr, hts⟩ := Tree.allLabels_node.mp ht
    have hparts : ∀ part ∈ matchTemplates Tree.forest ps, ∀ t, t.AllLabels Q →
        FindsLabels Q (part.2 t) := by
      rw [matchTemplates_eq_map]
      intro part hpart t ht
      obtain ⟨c, hc, rfl⟩ := List.mem_map.mp hpart
      refine ih c hc (fun n hn => hp n ?_) ht
      rw [Tree.nodes_node]
      exact List.mem_cons_of_mem _ (List.mem_flatMap.mpr ⟨c, hc, hn⟩)
    have hone : ((matchTemplates Tree.forest ps).filter fun part =>
        isListPlaceholder part.1).length ≤ 1 := by
      rw [matchTemplates_eq_map, ← List.countP_eq_length_filter, List.countP_map]
      exact hp _ Tree.mem_nodes_self
    rw [matchTemplate_node]
    split_ifs
    · exact findsLabels_some (List.forall_mem_singleton.mpr ht)
    · exact findsLabels_matchChildren hone hparts hts (List.forall_mem_singleton.mpr hr)
    · exact findsLabels_matchChildren hone hparts hts (by simp [Groups.AllLabels])
    · exact findsLabels_none

/-- A pattern that is matched against trees without fail. -/
def IsSure : Pattern → Prop
  | root .. | criterion .. => True
  | top p => ∀ n ∈ p.nodes, (n.subtrees.countP fun c => isListPlaceholder c.root) ≤ 1
  | _ => False

theorem IsSure.findsLabels {p : Pattern} (hp : p.IsSure) {t : Tree Label} (ht : t.AllLabels Q) :
    FindsLabels Q (p.matchIn Tree.forest t) := by
  obtain ⟨r, ts⟩ := t
  obtain ⟨hr, hts⟩ := Tree.allLabels_node.mp ht
  have hchildren : (childGroups ts).AllLabels Q := by
    intro e he
    obtain ⟨i, hi, rfl⟩ := List.mem_mapIdx.mp he
    exact hts _ (List.getElem_mem hi)
  cases p with
  | base | guarded p guard | unfounded guard => exact hp.elim
  | root symbol fan =>
    show FindsLabels Q (pure (if _ then some (childGroups ts) else none))
    split_ifs
    · exact findsLabels_some hchildren
    · exact findsLabels_none
  | criterion test fan =>
    have hroot : ((childGroups ts).set (.word "$0") (.root r)).AllLabels Q := hchildren.set (b := .root r) hr _
    show FindsLabels Q (pure (if _ then some ((childGroups ts).set (.word "$0") (.root r)) else none))
    split_ifs
    · exact findsLabels_some hroot
    · exact findsLabels_none
  | top p => exact findsLabels_matchTemplate hp ht

end Pattern

def Outcome.AllLabels (Q : Label → Prop) : Outcome (Tree Label) → Prop
  | .relabel l => Q l
  | .replace u => u.AllLabels Q

namespace Rewrite

def ofTransformer (e : Transformer (Except Fault) (Tree Label)) : Rewrite :=
  fun t => (e t).toOption.join

/-- A transformer brings in no labels but those of a kind. -/
def Keeps (Q : Label → Prop) (f : Rewrite) : Prop :=
  ∀ t, t.AllLabels Q → ∀ o ∈ f t, o.AllLabels Q

variable {e : Transformer (Except Fault) (Tree Label)} {t : Tree Label} {fs : List Rewrite}

theorem eq_ok_ofTransformer (h : Succeeds (e t)) : e t = .ok (ofTransformer e t) := by
  obtain ⟨o, ho⟩ := h
  cases o <;> simp [ofTransformer, ho, Except.toOption]

theorem transformer_ofTransformer (h : ∀ t, Succeeds (e t)) : (ofTransformer e).transformer = e :=
  funext fun t => (eq_ok_ofTransformer (h t)).symm

theorem mem_ofTransformer {Q : Outcome (Tree Label) → Prop} (h : Gives (fun o => ∀ x ∈ o, Q x) (e t)) :
    ∀ o ∈ ofTransformer e t, Q o := by
  obtain ⟨o, ho, hQ⟩ := h
  have hsame : ofTransformer e t = o := by
    cases o <;> simp [ofTransformer, ho, Except.toOption]
  rwa [hsame]

theorem Keeps.keepsUnpinned {f : Rewrite} (hf : f.Keeps fun l => l.isPinned = false) :
    f.KeepsUnpinned :=
  fun t ht => ⟨fun l hl => hf t ht (.relabel l) hl, fun u hu => hf t ht (.replace u) hu⟩

theorem allLabels_first (hfs : ∀ f ∈ fs, f.Keeps Q) (ht : t.AllLabels Q) :
    ∀ o ∈ first fs t, o.AllLabels Q := by
  intro o ho
  obtain ⟨f, hf, hft⟩ := List.exists_of_findSome?_eq_some ho
  exact hfs f hf t ht o hft

end Rewrite

namespace Transform

variable {fs : List Rewrite} {t : Tree Label} {depth : Nat}

theorem gives_applyWithin (hfs : ∀ f ∈ fs, f.Keeps Q) (hpins : t.Unpinned) (ht : t.AllLabels Q)
    (hdepth : t.size ≤ depth) :
    Gives (Tree.AllLabels Q) (applyWithin Tree.forest depth (copying fs .topDown false) t) := by
  induction depth generalizing t with
  | zero =>
    rw [Tree.size_eq] at hdepth
    omega
  | succ depth ih =>
    obtain ⟨r, ts⟩ := t
    obtain ⟨hr, hpins⟩ := Tree.unpinned_node.mp hpins
    have hfirst := Rewrite.allLabels_first hfs ht
    obtain ⟨hroot, hts⟩ := Tree.allLabels_node.mp ht
    have hbelow : Gives (fun us => ∀ u ∈ us, u.AllLabels Q)
        (ts.mapM (applyWithin Tree.forest depth (copying fs .topDown false))) := by
      refine .mapM fun u hu => ih (hpins u hu) (hts u hu) ?_
      have := Tree.size_le_sizeList hu
      rw [Tree.size] at hdepth
      omega
    have hkeep : ∀ l, Q l → Gives (Tree.AllLabels Q) (do
        let us ← ts.mapM (applyWithin Tree.forest depth (copying fs .topDown false))
        return .node l (Tree.spliceAll us)) := fun l hl =>
      hbelow.bind fun us hus =>
        ⟨_, rfl, Tree.allLabels_node.mpr ⟨hl, Tree.allLabels_spliceAll hus⟩⟩
    rw [applyWithin_topDown hr, Rewrite.atRoot]
    cases hf : Rewrite.first fs (.node r ts) with
    | none => exact hkeep r hroot
    | some o =>
      have ho := hfirst o hf
      cases o with
      | relabel l => exact hkeep l ho
      | replace u => exact ⟨u, rfl, ho⟩

end Transform

namespace Substitution

variable {g : Groups (Tree Label)} {b : Binding (Tree Label)} {p : Tree Label}

/-- The transformer of a name puts what the name is bound to in the place of a tree, or leaves the tree
alone. -/
theorem transformer_eq_none_or (key : Label) (b : Binding (Tree Label)) (u : Tree Label) :
    transformer Tree.forest (.label key) (.ofBinding Tree.forest b) u = .ok none ∨
      transformer Tree.forest (.label key) (.ofBinding Tree.forest b) u = .ok (some (outcome b)) := by
  cases hkey : u.root.agrees key with
  | false => exact .inl (transformer_eq_none hkey _)
  | true =>
    have hroot : Target.isRoot (.label key) u.root = true := hkey
    have hleaf : u.root.agrees (Target.label key).asTree.root = true := hkey
    cases b with
    | tree t =>
      cases hvalue : u.agrees (Target.label key).asTree with
      | true =>
        right
        simp [transformer, ok_bind, Supply.ofBinding, hleaf, hvalue]
        rfl
      | false =>
        left
        simp [transformer, ok_bind, Supply.ofBinding, hvalue]
    | trees ts =>
      right
      simp [transformer, ok_bind, Supply.ofBinding, hroot]
      rfl
    | root l =>
      right
      simp [transformer, ok_bind, Supply.ofBinding, hroot]
      rfl

theorem allLabels_outcome (hsplice : Q .splice) (hb : b.AllLabels Q) : (outcome b).AllLabels Q := by
  cases b with
  | tree t => exact hb
  | trees ts => exact Tree.allLabels_node.mpr ⟨hsplice, hb⟩
  | root l => exact hb

def naming (e : Label × Binding (Tree Label)) : Rewrite :=
  .ofTransformer (transformer Tree.forest (.label e.1) (.ofBinding Tree.forest e.2))

theorem transformer_naming (e : Label × Binding (Tree Label)) :
    (naming e).transformer = transformer Tree.forest (.label e.1) (.ofBinding Tree.forest e.2) :=
  Rewrite.transformer_ofTransformer fun u => (transformer_eq_none_or e.1 e.2 u).elim (⟨_, ·⟩) (⟨_, ·⟩)

theorem keeps_naming (hsplice : Q .splice) {e : Label × Binding (Tree Label)} (he : e.2.AllLabels Q) :
    (naming e).Keeps Q := by
  intro u _
  refine Rewrite.mem_ofTransformer ?_
  obtain h | h := transformer_eq_none_or e.1 e.2 u
  · exact ⟨_, h, by simp⟩
  · exact ⟨_, h, by simpa using allLabels_outcome hsplice he⟩

theorem ofGroups_eq_copying (g : Groups (Tree Label)) :
    ofGroups g = Transform.copying (g.map naming) .topDown false := by
  have hmap : (g.map naming).map Rewrite.transformer =
      (g.map fun e => (Target.label e.1, Supply.ofBinding Tree.forest e.2)).map
        fun x => transformer Tree.forest x.1 x.2 := by
    rw [List.map_map, List.map_map]
    exact List.map_congr_left fun e _ => transformer_naming e
  rw [Transform.copying, hmap]
  rfl

/-- Groups are put into a template without fail. -/
theorem gives_instantiate (hsplice : Q .splice) (hg : g.AllLabels Q) (hpins : p.Unpinned)
    (hp : p.AllLabels Q) : Gives (Tree.AllLabels Q) (instantiate Tree.forest g p) := by
  rw [Pattern.instantiate_eq, ofGroups_eq_copying]
  refine Transform.gives_applyWithin (fun f hf => ?_) hpins hp le_rfl
  obtain ⟨e, he, rfl⟩ := List.mem_map.mp hf
  exact keeps_naming hsplice (hg e he)

/-- A rule that never fails on trees and brings in no pinned label. -/
structure Rule.IsSure (rule : Rule) : Prop where
  pattern : rule.pattern.IsSure
  template : rule.template.Unpinned
  augment : rule.augment = none

example : Rule.IsSure ⟨.top (.node (.word "d") [.leaf (.word "$1")]),
    .node (.word "w") [.leaf (.word "$1"), .leaf (.word "$1")], none⟩ where
  pattern := by
    simp [Pattern.IsSure, Tree.nodes_node, Tree.leaf]
    decide +kernel
  template := by simp [Tree.Unpinned, Tree.labels_node, Tree.leaf, Label.isPinned]
  augment := rfl

namespace Rule

variable {rule : Rule}

def rewrite (rule : Rule) : Rewrite :=
  .ofTransformer (rule.transformer Tree.forest)

theorem IsSure.gives (hrule : rule.IsSure) (hsplice : Q .splice) (hp : rule.template.AllLabels Q)
    {t : Tree Label} (ht : t.AllLabels Q) :
    Gives (fun o => ∀ x ∈ o, x.AllLabels Q) (rule.transformer Tree.forest t) := by
  rw [transformer]
  refine (hrule.pattern.findsLabels ht).bind fun o ho => ?_
  cases o with
  | none => exact ⟨none, rfl, by simp⟩
  | some g =>
    have hsame : rule.augmented Tree.forest g = .ok g := by
      rw [augmented, hrule.augment]
      rfl
    dsimp only
    rw [hsame, ok_bind]
    refine (gives_instantiate hsplice (ho g rfl) hrule.template hp).bind fun u hu => ?_
    have hreplace : (Outcome.replace u).AllLabels Q := hu
    exact ⟨_, rfl, by simpa using hreplace⟩

theorem IsSure.transformer_eq (hrule : rule.IsSure) (t : Tree Label) :
    rule.transformer Tree.forest t = .ok (rule.rewrite t) := by
  obtain ⟨o, ho, -⟩ := hrule.gives (Q := fun _ => True) trivial (fun _ _ => trivial) (t := t)
    fun _ _ => trivial
  exact Rewrite.eq_ok_ofTransformer ⟨o, ho⟩

theorem IsSure.keepsUnpinned (hrule : rule.IsSure) : rule.rewrite.KeepsUnpinned :=
  Rewrite.Keeps.keepsUnpinned fun _ ht => Rewrite.mem_ofTransformer
    (hrule.gives (Q := fun l => l.isPinned = false) rfl hrule.template ht)

end Rule

end Substitution

end WhileSketch
