import Mathlib
import WhileSketch.Proofs.Tree.Mirrors
import WhileSketch.Proofs.Tree.SureRules

/-! Substitutions and rules work on nodes as they work on values. What a rule puts in the place of a node
is in new cells or in cells of the node itself, so that rules can be applied in place. -/

namespace WhileSketch

open Store Substitution Transform

variable {s s' : Store} {P : Nat → Prop} {t : Tree Label} {a : Nat}

section Transformers

/-- What a transformer makes of a node shows what it makes of a tree. -/
inductive ShowsOutcome (P : Nat → Prop) (s : Store) : Outcome (Tree Label) → Outcome Nat → Prop where
  | relabel (l : Label) : ShowsOutcome P s (.relabel l) (.relabel l)
  | replace {u : Tree Label} {b : Nat} (h : (Link.tree P).holds s u b) :
      ShowsOutcome P s (.replace u) (.replace b)

def Store.Link.outcome (P : Nat → Prop) : Link (Outcome (Tree Label)) (Outcome Nat) where
  holds := ShowsOutcome P
  later hs h := by
    cases h with
    | relabel l => exact .relabel l
    | replace h => exact .replace ((Link.tree P).later hs h)

def Store.Link.transformer (P : Nat → Prop) :
    Link (Transformer (Except Fault) (Tree Label)) (Transformer StoreM Nat) :=
  (Link.tree P).action (Link.outcome P).option

def Store.Link.run (P : Nat → Prop) :
    Link (Tree Label → Except Fault (Tree Label)) (Nat → StoreM Nat) :=
  (Link.tree P).action (Link.tree P)

variable {fs : List (Transformer (Except Fault) (Tree Label))} {es : List (Transformer StoreM Nat)}
  {direction : Direction} {recurse : Bool}

theorem mirrors_firstOutcome_go (hfs : (Link.transformer P).list.holds s fs es)
    (h : (Link.tree P).holds s t a) (i : Nat) :
    Mirrors ((Link.same Nat).pair (Link.outcome P)).option s (firstOutcome.go t i fs)
      (firstOutcome.go a i es) := by
  induction fs generalizing es s i with
  | nil =>
    cases hfs
    exact mirrors_pure .none
  | cons f fs ih =>
    cases hfs with
    | cons hf hfs =>
      rw [firstOutcome.go, firstOutcome.go]
      refine (hf s t a (.refl s []) h).bind fun hs ho => ?_
      cases ho with
      | none => exact ih ((Link.transformer P).list.later hs hfs) ((Link.tree P).later hs h) (i + 1)
      | some ho => exact mirrors_pure (.some ⟨rfl, ho⟩)

inductive ShowsRoot (P : Nat → Prop) (s : Store) : Label ⊕ Tree Label → Label ⊕ Nat → Prop where
  | inl (l : Label) : ShowsRoot P s (.inl l) (.inl l)
  | inr {u : Tree Label} {b : Nat} (h : (Link.tree P).holds s u b) : ShowsRoot P s (.inr u) (.inr b)

def Store.Link.atRoot (P : Nat → Prop) : Link (Label ⊕ Tree Label) (Label ⊕ Nat) where
  holds := ShowsRoot P
  later hs h := by
    cases h with
    | inl l => exact .inl l
    | inr h => exact .inr ((Link.tree P).later hs h)

theorem mirrors_atRoot {again : Nat → Tree Label → Except Fault (Tree Label)}
    {again' : Nat → Nat → StoreM Nat} (hP : Room P s) (hfs : (Link.transformer P).list.holds s fs es)
    (hagain : ∀ i, (Link.run P).holds s (again i) (again' i)) (h : (Link.tree P).holds s t a) :
    Mirrors (Link.atRoot P) s ((bare fs direction recurse).atRoot Tree.forest again t)
      ((bare es direction recurse).atRoot Store.forest again' a) := by
  rw [Transform.atRoot, Transform.atRoot]
  refine (mirrors_firstOutcome_go hfs h 0).bind fun {s₁ o o'} hs ho => ?_
  cases ho with
  | none =>
    refine (mirrors_root ((Link.tree P).later hs h)).bind fun {_ r _} _ hr => ?_
    cases hr
    exact mirrors_pure (.inl r)
  | @some x y hxy =>
    obtain ⟨i, o⟩ := x
    obtain ⟨j, o'⟩ := y
    obtain ⟨rfl, ho⟩ := hxy
    cases ho with
    | relabel l => exact mirrors_pure (.inl l)
    | replace hu =>
      refine (mirrors_root ((Link.tree P).later hs h)).bind fun {_ r _} hs' hr => ?_
      cases hr
      have hs₂ := hs.trans_nil hs'
      refine (mirrors_inPlaceOf (hP.later hs₂) r ((Link.tree P).later hs' hu)).bind fun hs'' hv => ?_
      exact (hagain i _ _ _ (hs₂.trans_nil hs'') hv).bind fun _ hw => mirrors_pure (.inr hw)

section Runs

variable {run : Transform (Except Fault) (Tree Label) → Tree Label → Except Fault (Tree Label)}
  {run' : Transform StoreM Nat → Nat → StoreM Nat}

theorem shows_reapply
    (hrun : (Link.run P).holds s (run (bare fs direction recurse)) (run' (bare es direction recurse)))
    (i : Nat) : (Link.run P).holds s ((bare fs direction recurse).reapply Tree.forest run run i)
      ((bare es direction recurse).reapply Store.forest run' run' i) := by
  cases recurse with
  | true => exact hrun
  | false => exact fun _ _ _ _ h => mirrors_pure h

theorem mirrors_below (h : (Link.tree P).holds s t a)
    (hrun : (Link.run P).holds s (run (bare fs direction recurse)) (run' (bare es direction recurse))) :
    Mirrors (Link.tree P).list s
      (do Tree.forest.splice (← (← Tree.forest.subtrees t).mapM (run (bare fs direction recurse))))
      (do Store.forest.splice (← (← Store.forest.subtrees a).mapM (run' (bare es direction recurse)))) := by
  refine (mirrors_subtrees h).bind fun hs hts => ?_
  exact (mirrors_mapM hts ((Link.run P).later hs hrun)).bind fun _ hus => mirrors_splice hus

end Runs

/-- A transformation that does nothing but what its transformers say works on nodes as it works on
values. -/
theorem mirrors_applyWithin (hP : Room P s) (hfs : (Link.transformer P).list.holds s fs es)
    (direction : Direction) (recurse : Bool) (depth : Nat) (h : (Link.tree P).holds s t a) :
    Mirrors (Link.tree P) s (applyWithin Tree.forest depth (bare fs direction recurse) t)
      (applyWithin Store.forest depth (bare es direction recurse) a) := by
  induction depth generalizing s t a with
  | zero => exact mirrors_throw _ _
  | succ depth ih =>
    have hrun : (Link.run P).holds s (applyWithin Tree.forest depth (bare fs direction recurse))
        (applyWithin Store.forest depth (bare es direction recurse)) := fun _ _ _ hs =>
      ih (hP.later hs) ((Link.transformer P).list.later hs hfs)
    rw [applyWithin, applyWithin]
    refine (mirrors_root h).bind fun {_ r _} hs hr => ?_
    cases hr
    replace h := (Link.tree P).later hs h
    replace hrun := (Link.run P).later hs hrun
    cases direction with
    | topDown =>
      refine (mirrors_atRoot (hP.later hs) ((Link.transformer P).list.later hs hfs) (shows_reapply hrun)
        h).bind fun hs' hroot => ?_
      have hP' := (hP.later hs).later hs'
      cases hroot with
      | inr hu => exact mirrors_inPlaceOf hP' r hu
      | inl l =>
        refine (mirrors_below ((Link.tree P).later hs' h) ((Link.run P).later hs' hrun)).bind
          fun hs₂ hus => ?_
        refine (mirrors_make (hP'.later hs₂) l hus).bind fun hs₃ hu => ?_
        exact mirrors_inPlaceOf ((hP'.later hs₂).later hs₃) r hu
    | bottomUp =>
      refine (mirrors_below h hrun).bind fun hs' hus => ?_
      refine (mirrors_make ((hP.later hs).later hs') r hus).bind fun hs'' hu => ?_
      have hs₁ := hs'.trans_nil hs''
      have hs₂ := hs.trans_nil hs₁
      refine (mirrors_atRoot (hP.later hs₂) ((Link.transformer P).list.later hs₂ hfs)
        (shows_reapply ((Link.run P).later hs₁ hrun)) hu).bind fun hs₃ hroot => ?_
      have hP' := hP.later (hs₂.trans_nil hs₃)
      cases hroot with
      | inr hv => exact mirrors_inPlaceOf hP' r hv
      | inl l =>
        refine (mirrors_subtrees ((Link.tree P).later hs₃ hu)).bind fun hs₄ hts => ?_
        refine (mirrors_make (hP'.later hs₄) l hts).bind fun hs₅ hv => ?_
        exact mirrors_inPlaceOf ((hP'.later hs₄).later hs₅) r hv

end Transformers

section Substitutions

inductive ShowsSupply (P : Nat → Prop) (s : Store) :
    Supply (Except Fault) (Tree Label) → Supply StoreM Nat → Prop where
  | tree {t : Tree Label} {a : Nat} (h : (Link.tree P).holds s t a) : ShowsSupply P s (.tree t) (.tree a)
  | trees {x : Except Fault (Tree Label)} {y : StoreM Nat} (h : Mirrors (Link.tree P) s x y) :
      ShowsSupply P s (.trees x) (.trees y)
  | root (l : Label) : ShowsSupply P s (.root l) (.root l)

variable {supply : Supply (Except Fault) (Tree Label)} {supply' : Supply StoreM Nat}

theorem ShowsSupply.later (h : ShowsSupply P s supply supply') (hs : Frame s [] s') :
    ShowsSupply P s' supply supply' := by
  cases h with
  | tree h => exact .tree ((Link.tree P).later hs h)
  | trees h => exact .trees (h.later hs)
  | root l => exact .root l

theorem mirrors_asTree (hP : Room P s) (h : ShowsSupply P s supply supply') :
    Mirrors (Link.tree P) s (supply.asTree Tree.forest) (supply'.asTree Store.forest) := by
  cases h with
  | tree h => exact mirrors_pure h
  | trees h => exact h
  | root l => exact mirrors_make hP l .nil

theorem mirrors_exchange (hP : Room P s) (what : Tree Label) (hsupply : ShowsSupply P s supply supply')
    (r : Label) (h : (Link.tree P).holds s t a) :
    Mirrors (Link.outcome P).option s
      (if !r.agrees what.root then return none else do
        if (← Tree.forest.value t).agrees what then
          return some (.replace (← supply.asTree Tree.forest)) else return none)
      (if !r.agrees what.root then return none else do
        if (← Store.forest.value a).agrees what then
          return some (.replace (← supply'.asTree Store.forest)) else return none) := by
  split_ifs
  · exact mirrors_pure .none
  · refine (mirrors_value h).bind fun hs hv => ?_
    cases hv
    split_ifs
    · refine (mirrors_asTree (hP.later hs) (hsupply.later hs)).bind fun _ hu => ?_
      exact mirrors_pure (.some (.replace hu))
    · exact mirrors_pure .none

theorem mirrors_transformer (hP : Room P s) (what : Target) (hsupply : ShowsSupply P s supply supply')
    (h : (Link.tree P).holds s t a) :
    Mirrors (Link.outcome P).option s (Substitution.transformer Tree.forest what supply t)
      (Substitution.transformer Store.forest what supply' a) := by
  rw [Substitution.transformer, Substitution.transformer]
  refine (mirrors_root h).bind fun {_ r _} hs hr => ?_
  cases hr
  have hexchange := mirrors_exchange (hP.later hs) what.asTree (hsupply.later hs) r
    ((Link.tree P).later hs h)
  cases hsupply.later hs with
  | tree => exact hexchange
  | trees hmake =>
    cases what.isRoot r with
    | true => exact hmake.bind fun _ hu => mirrors_pure (.some (.replace hu))
    | false => exact hexchange
  | root l =>
    cases what.isRoot r with
    | true => exact mirrors_pure (.some (.relabel l))
    | false => exact hexchange

theorem showsSupply_ofBinding (hP : Room P s) {b : Binding (Tree Label)} {c : Binding Nat}
    (h : ShowsBinding P s b c) :
    ShowsSupply P s (.ofBinding Tree.forest b) (.ofBinding Store.forest c) := by
  cases h with
  | tree h => exact .tree h
  | trees h => exact .trees (mirrors_make hP .splice h)
  | root l => exact .root l

theorem mirrors_instantiate (hP : Room P s) {g : Groups (Tree Label)} {h : Groups Nat}
    (hg : (Link.groups P).holds s g h) (template : Tree Label) :
    Mirrors (Link.tree P) s (instantiate Tree.forest g template)
      (instantiate Store.forest h template) := by
  rw [instantiate, instantiate]
  refine (mirrors_plant hP template).bind fun hs ht => ?_
  refine mirrors_applyWithin (hP.later hs) ?_ .topDown false template.size ht
  rw [List.map_map, List.map_map]
  refine List.rel_map (fun e d he => ?_) ((Link.groups P).later hs hg)
  intro s' t a hs' ht
  obtain ⟨hkey, hb⟩ := ((Link.same Label).pair (Link.binding P)).later hs' he
  rw [Function.comp_apply, Function.comp_apply, ← hkey]
  have hP' := (hP.later hs).later hs'
  exact mirrors_transformer hP' (.label e.1) (showsSupply_ofBinding hP' hb) ht

end Substitutions

namespace Substitution

variable {rule : Rule} {f : Rewrite}

theorem mirrors_augment (hP : Room P s) {g : Groups (Tree Label)} {h : Groups Nat}
    (hg : (Link.groups P).holds s g h) (x : Augment) :
    Mirrors (Link.binding P) s (x.binding Tree.forest g) (x.binding Store.forest h) := by
  cases x with
  | tree t =>
    rw [Augment.binding, Augment.binding]
    exact (mirrors_plant hP t).bind fun _ ht => mirrors_pure (.tree ht)
  | copy key => exact mirrors_get hg key
  | root key =>
    rw [Augment.binding, Augment.binding]
    refine (mirrors_get hg key).bind fun _ hb => ?_
    cases hb with
    | tree ht =>
      refine (mirrors_root ht).bind fun {_ r _} _ hr => ?_
      cases hr
      exact mirrors_pure (.root r)
    | trees | root => exact mirrors_throw _ _
  | count key =>
    rw [Augment.binding, Augment.binding]
    refine (mirrors_get hg key).bind fun _ hb => ?_
    cases hb with
    | tree => exact mirrors_throw _ _
    | trees hts =>
      dsimp only
      rw [hts.length_eq]
      exact mirrors_pure (.root _)
    | root l =>
      cases l with
      | num n => exact mirrors_throw _ _
      | _ => exact mirrors_pure (.root _)

theorem mirrors_augmented (hP : Room P s) (rule : Rule) {g : Groups (Tree Label)} {h : Groups Nat}
    (hg : (Link.groups P).holds s g h) :
    Mirrors (Link.groups P) s (rule.augmented Tree.forest g) (rule.augmented Store.forest h) := by
  unfold Rule.augmented
  induction rule.augment.getD [] generalizing s g h with
  | nil => exact mirrors_pure hg
  | cons e es ih =>
    rw [List.foldlM_cons, List.foldlM_cons]
    refine Mirrors.bind (L := Link.groups P) ?_ fun hs hg' => ih (hP.later hs) hg'
    refine (mirrors_augment hP hg e.2).bind fun hs hb => mirrors_pure ?_
    exact shows_set ((Link.groups P).later hs hg) hb e.1

/-- What a rule makes of a node shows what it makes of the tree. -/
theorem mirrors_rule (hP : Room P s) (rule : Rule) (h : (Link.tree P).holds s t a) :
    Mirrors (Link.outcome P).option s (rule.transformer Tree.forest t)
      (rule.transformer Store.forest a) := by
  rw [Rule.transformer, Rule.transformer]
  refine (mirrors_matchIn rule.pattern h).bind fun hs hfound => ?_
  cases hfound with
  | none => exact mirrors_pure .none
  | some hg =>
    refine (mirrors_augmented (hP.later hs) rule hg).bind fun hs' hg' => ?_
    refine (mirrors_instantiate ((hP.later hs).later hs') hg' rule.template).bind fun _ hu => ?_
    exact mirrors_pure (.some (.replace hu))

/-- Where a rule never fails on trees, it performs in place what it makes of them. -/
theorem performs_rule {s₀ : Store} {F₀ : List Nat} (hF₀ : ∀ p ∈ F₀, p < s₀.cells.size)
    (hf : ∀ t, rule.transformer Tree.forest t = .ok (f t)) :
    Performs false s₀ F₀ f (rule.transformer Store.forest) := by
  intro s a t F hs h
  have hroom : Room (fun p => p ∈ F ∨ p ∉ F₀) s := fun p hp => .inr fun hmem => by
    have := hF₀ p hmem
    have := hs.size_le
    omega
  obtain ⟨o, s', hrun, hs', ho⟩ := mirrors_rule hroom rule ⟨F, h, fun p hp => .inl hp⟩ s (f t)
    (.refl s []) (hf t)
  refine ⟨o, s', hrun, hs', ?_⟩
  generalize f t = v at ho
  cases ho with
  | none => exact .none
  | some ho =>
    cases ho with
    | relabel l => exact .relabel l
    | replace hu =>
      obtain ⟨G, hu, hG⟩ := hu
      exact .replace hu ⟨hG, by simp⟩

theorem ofRules_eq_copying {rules : List Rule} (hrules : ∀ rule ∈ rules, rule.IsSure) :
    ofRules Tree.forest rules = copying (rules.map Rule.rewrite) .topDown false := by
  have hmap : (rules.map Rule.rewrite).map Rewrite.transformer = rules.map (Rule.transformer Tree.forest) := by
    rw [List.map_map]
    exact List.map_congr_left fun rule hrule => funext fun t => ((hrules rule hrule).transformer_eq t).symm
  rw [copying, hmap]
  rfl

/-- Rules that never fail make in the place of a tree that shares no nodes what they make of it as a
value. -/
theorem editWithin_ofRules {rules : List Rule} (hrules : ∀ rule ∈ rules, rule.IsSure) {F : List Nat}
    (h : Reads s a t F) (hF : F.Nodup) (ht : t.Unpinned) {depth : Nat} (hdepth : t.size ≤ depth) :
    ∃ u b changes s', applyWithin Tree.forest depth (ofRules Tree.forest rules) t = .ok u ∧
      editWithin depth true (ofRules Store.forest rules) a s = .ok ((b, changes), s') ∧
      value b s' = .ok (u, s') := by
  have hperforms : List.Forall₂ (Performs false s F) (rules.map Rule.rewrite)
      (rules.map (Rule.transformer Store.forest)) := by
    rw [List.forall₂_map_left_iff, List.forall₂_map_right_iff, List.forall₂_same]
    exact fun rule hrule => performs_rule h.lt_size (hrules rule hrule).transformer_eq
  have hpins : ∀ f ∈ rules.map Rule.rewrite, f.KeepsUnpinned := by
    intro f hf
    obtain ⟨rule, hrule, rfl⟩ := List.mem_map.mp hf
    exact (hrules rule hrule).keepsUnpinned
  obtain ⟨u, hu⟩ : Succeeds
      (applyWithin Tree.forest depth (copying (rules.map Rule.rewrite) .topDown false) t) :=
    succeeds_applyWithin ht hdepth
  obtain ⟨-, b, changes, s', G, hrun, -, hb, -⟩ := simulates hperforms hpins .topDown depth s a t F u
    (.refl s F) (fun p hp => .inl hp) hF h ht hu
  refine ⟨u, b, changes, s', ?_, hrun, hb.value_run⟩
  rw [ofRules_eq_copying hrules, hu]

end Substitution

end WhileSketch
