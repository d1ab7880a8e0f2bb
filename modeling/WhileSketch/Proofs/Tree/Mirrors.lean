import Mathlib
import WhileSketch.Proofs.Failure
import WhileSketch.Proofs.Tree.Cells
import WhileSketch.Tree.Pattern

/-! What is done alike with trees as values and with trees as nodes. Where it succeeds on values, it
succeeds on nodes that show them; it changes no cell that is there, and its result shows the result on
values. -/

namespace WhileSketch.Store

/-- When something shows a value. It still does so after cells have been added. -/
structure Link (α β : Type) where
  holds : Store → α → β → Prop
  later : ∀ {s s' x y}, Frame s [] s' → holds s x y → holds s' x y

variable {α β γ δ : Type} {s s' : Store}

namespace Link

def same (α : Type) : Link α α where
  holds _ := Eq
  later _ h := h

def list (L : Link α β) : Link (List α) (List β) where
  holds s := List.Forall₂ (L.holds s)
  later hs h := h.imp fun _ _ => L.later hs

def option (L : Link α β) : Link (Option α) (Option β) where
  holds s := Option.Rel (L.holds s)
  later hs h := by
    cases h with
    | none => exact .none
    | some h => exact .some (L.later hs h)

def pair (L : Link α β) (M : Link γ δ) : Link (α × γ) (β × δ) where
  holds s x y := L.holds s x.1 y.1 ∧ M.holds s x.2 y.2
  later hs h := ⟨L.later hs h.1, M.later hs h.2⟩

/-- A node shows the tree below it, if that is in cells of the given kind. -/
def tree (P : Nat → Prop) : Link (Tree Label) Nat where
  holds s t a := ∃ F, Reads s a t F ∧ ∀ p ∈ F, P p
  later := by
    rintro s s' t a hs ⟨F, h, hF⟩
    exact ⟨F, hs.reads h (by simp), hF⟩

end Link

/-- An action on nodes mirrors one on values. -/
def Mirrors (L : Link α β) (s : Store) (x : Except Fault α) (y : StoreM β) : Prop :=
  ∀ s₁ v, Frame s [] s₁ → x = .ok v → ∃ w s₂, y s₁ = .ok (w, s₂) ∧ Frame s₁ [] s₂ ∧ L.holds s₂ v w

/-- A function shows another one if it mirrors it, now and later, on what shows its arguments. -/
def Link.action (K : Link γ δ) (L : Link α β) : Link (γ → Except Fault α) (δ → StoreM β) where
  holds s f g := ∀ s' x y, Frame s [] s' → K.holds s' x y → Mirrors L s' (f x) (g y)
  later hs h s' x y hs' := h s' x y (hs.trans_nil hs')

section Actions

variable {L : Link α β} {M : Link γ δ} {x : Except Fault α} {y : StoreM β}

theorem mirrors_pure {v : α} {w : β} (h : L.holds s v w) : Mirrors L s (pure v) (pure w) := by
  intro s₁ v' hs hv
  cases hv
  exact ⟨w, s₁, rfl, .refl s₁ [], L.later hs h⟩

theorem mirrors_throw (e : Fault) (y : StoreM β) : Mirrors L s (throw e) y := by
  intro s₁ v hs hv
  cases hv

theorem Mirrors.later (h : Mirrors L s x y) (hs : Frame s [] s') : Mirrors L s' x y :=
  fun s₁ v hs₁ hv => h s₁ v (hs.trans_nil hs₁) hv

theorem Mirrors.bind {f : α → Except Fault γ} {g : β → StoreM δ} (h : Mirrors L s x y)
    (hf : ∀ {s' v w}, Frame s [] s' → L.holds s' v w → Mirrors M s' (f v) (g w)) :
    Mirrors M s (x >>= f) (y >>= g) := by
  intro s₁ u hs hu
  obtain ⟨v, hv, hu⟩ := bind_eq_ok.mp hu
  obtain ⟨w, s₂, hrun, hs₂, hw⟩ := h s₁ v hs hv
  obtain ⟨z, s₃, hrun', hs₃, hz⟩ := hf (hs.trans_nil hs₂) hw s₂ u (.refl s₂ []) hu
  refine ⟨z, s₃, ?_, hs₂.trans_nil hs₃, hz⟩
  rw [bind_run hrun]
  exact hrun'

theorem mirrors_mapM {f : α → Except Fault γ} {g : β → StoreM δ} {xs : List α} {ys : List β}
    (h : L.list.holds s xs ys) (hf : (L.action M).holds s f g) :
    Mirrors M.list s (xs.mapM f) (ys.mapM g) := by
  induction xs generalizing ys s with
  | nil =>
    cases h
    exact mirrors_pure .nil
  | cons x xs ih =>
    cases h with
    | cons hx hxs =>
      rw [List.mapM_cons, List.mapM_cons]
      refine (hf s _ _ (.refl s []) hx).bind fun hs hv => ?_
      refine (ih (L.list.later hs hxs) ((L.action M).later hs hf)).bind fun hs' hvs => ?_
      exact mirrors_pure (.cons (M.later hs' hv) hvs)

end Actions

section Forests

variable {P : Nat → Prop} {t : Tree Label} {ts : List (Tree Label)} {a : Nat} {as : List Nat} {l : Label}

theorem exists_readsAll (h : (Link.tree P).list.holds s ts as) :
    ∃ F, ReadsAll s as ts F ∧ ∀ p ∈ F, P p := by
  induction h with
  | nil => exact ⟨[], .nil, by simp⟩
  | cons ht _ ih =>
    obtain ⟨F, hF, hP⟩ := ht
    obtain ⟨G, hG, hQ⟩ := ih
    exact ⟨F ++ G, .cons hF hG, List.forall_mem_append.mpr ⟨hP, hQ⟩⟩

theorem list_of_readsAll {as : List Nat} {ts : List (Tree Label)} {F : List Nat} :
    ReadsAll s as ts F → (∀ p ∈ F, P p) → (Link.tree P).list.holds s ts as
  | .nil, _ => .nil
  | .cons h hs, hF => by
    obtain ⟨hP, hQ⟩ := List.forall_mem_append.mp hF
    exact .cons ⟨_, h, hP⟩ (list_of_readsAll hs hQ)

theorem mirrors_root (h : (Link.tree P).holds s t a) :
    Mirrors (.same Label) s (Tree.forest.root t) (Store.forest.root a) := by
  intro s₁ v hs hv
  cases hv
  obtain ⟨F, h, -⟩ := (Link.tree P).later hs h
  cases h with
  | node ha hl h => exact ⟨_, s₁, root_run ha, .refl s₁ [], rfl⟩

theorem mirrors_subtrees (h : (Link.tree P).holds s t a) :
    Mirrors (Link.tree P).list s (Tree.forest.subtrees t) (Store.forest.subtrees a) := by
  intro s₁ v hs hv
  cases hv
  obtain ⟨F, hreads, hF⟩ := (Link.tree P).later hs h
  cases hreads with
  | node ha hl hreads =>
    simp only [List.forall_mem_cons] at hF
    exact ⟨_, s₁, subtrees_run ha hl, .refl s₁ [], list_of_readsAll hreads hF.2.2⟩

theorem mirrors_value (h : (Link.tree P).holds s t a) :
    Mirrors (.same (Tree Label)) s (Tree.forest.value t) (Store.forest.value a) := by
  intro s₁ v hs hv
  cases hv
  obtain ⟨F, h, -⟩ := (Link.tree P).later hs h
  exact ⟨t, s₁, h.value_run, .refl s₁ [], rfl⟩

theorem mirrors_splice (h : (Link.tree P).list.holds s ts as) :
    Mirrors (Link.tree P).list s (Tree.forest.splice ts) (Store.forest.splice as) := by
  intro s₁ v hs hv
  cases hv
  obtain ⟨F, h, hF⟩ := exists_readsAll ((Link.tree P).list.later hs h)
  obtain ⟨bs, G, hrun, hbs, hG⟩ := h.exists_splice_run
  exact ⟨bs, s₁, hrun, .refl s₁ [], list_of_readsAll hbs fun p hp => hF p (hG.subset hp)⟩

/-- All cells that are not there yet are of a kind. -/
def Room (P : Nat → Prop) (s : Store) : Prop :=
  ∀ p, s.cells.size ≤ p → P p

theorem Room.later (h : Room P s) (hs : Frame s [] s') : Room P s' :=
  fun p hp => h p (hs.size_le.trans hp)

theorem mirrors_make (hP : Room P s) (l : Label) (h : (Link.tree P).list.holds s ts as) :
    Mirrors (Link.tree P) s (Tree.forest.make l ts) (Store.forest.make l as) := by
  intro s₁ v hs hv
  cases hv
  obtain ⟨F, h, hF⟩ := exists_readsAll ((Link.tree P).list.later hs h)
  obtain ⟨a, k, s₂, hrun, hs₂, ha, hka, hk⟩ := exists_make_run h l
  have hroom := hP.later hs
  refine ⟨a, s₂, hrun, hs₂, a :: k :: F, ha, ?_⟩
  simp only [List.forall_mem_cons]
  exact ⟨hroom a (by omega), hroom k hk, hF⟩

theorem mirrors_inPlaceOf (hP : Room P s) (l : Label) (h : (Link.tree P).holds s t a) :
    Mirrors (Link.tree P) s (Tree.forest.inPlaceOf l t) (Store.forest.inPlaceOf l a) := by
  cases l with
  | pinned w => exact mirrors_make hP (.word "kept") (.cons h .nil)
  | _ => exact mirrors_pure h

mutual

theorem mirrors_plant {s : Store} (hP : Room P s) :
    ∀ t : Tree Label, Mirrors (Link.tree P) s (Tree.forest.plant t) (Store.forest.plant t)
  | .node r ts => by
    rw [Forest.plant, Forest.plant]
    exact (mirrors_plantAll hP ts).bind fun hs h => mirrors_make (hP.later hs) r h

theorem mirrors_plantAll {s : Store} (hP : Room P s) : ∀ ts : List (Tree Label),
    Mirrors (Link.tree P).list s (Tree.forest.plantAll ts) (Store.forest.plantAll ts)
  | [] => mirrors_pure .nil
  | t :: ts => by
    rw [Forest.plantAll, Forest.plantAll]
    refine (mirrors_plant hP t).bind fun hs h => ?_
    refine (mirrors_plantAll (hP.later hs) ts).bind fun hs' hrest => ?_
    exact mirrors_pure (.cons ((Link.tree P).later hs' h) hrest)

end

end Forests

section Groups

variable {P : Nat → Prop}

inductive ShowsBinding (P : Nat → Prop) (s : Store) : Binding (Tree Label) → Binding Nat → Prop where
  | tree {t : Tree Label} {a : Nat} (h : (Link.tree P).holds s t a) : ShowsBinding P s (.tree t) (.tree a)
  | trees {ts : List (Tree Label)} {as : List Nat} (h : (Link.tree P).list.holds s ts as) :
      ShowsBinding P s (.trees ts) (.trees as)
  | root (l : Label) : ShowsBinding P s (.root l) (.root l)

def Link.binding (P : Nat → Prop) : Link (Binding (Tree Label)) (Binding Nat) where
  holds := ShowsBinding P
  later hs h := by
    cases h with
    | tree h => exact .tree ((Link.tree P).later hs h)
    | trees h => exact .trees ((Link.tree P).list.later hs h)
    | root l => exact .root l

def Link.groups (P : Nat → Prop) : Link (Groups (Tree Label)) (Groups Nat) :=
  ((Link.same Label).pair (Link.binding P)).list

variable {b : Binding (Tree Label)} {c : Binding Nat} {g : Groups (Tree Label)} {h : Groups Nat}
  {key : Label}

theorem mirrors_bindingValue (hb : ShowsBinding P s b c) :
    Mirrors (.same (Binding (Tree Label))) s (b.value Tree.forest) (c.value Store.forest) := by
  cases hb with
  | tree ht =>
    refine (mirrors_value ht).bind fun _ hv => ?_
    cases hv
    exact mirrors_pure rfl
  | trees hts =>
    refine (mirrors_mapM hts fun _ _ _ _ => mirrors_value).bind fun _ hvs => ?_
    obtain rfl : _ = _ := by simpa [Link.list, Link.same] using hvs
    exact mirrors_pure rfl
  | root l => exact mirrors_pure rfl

theorem shows_find? (hg : (Link.groups P).holds s g h) (key : Label) :
    (Link.binding P).option.holds s (g.find? key) (h.find? key) := by
  unfold Groups.find?
  induction hg with
  | nil => exact .none
  | @cons e d g h he _ ih =>
    rw [List.find?_cons, List.find?_cons, ← he.1]
    cases e.1.agrees key with
    | false => exact ih
    | true => exact .some he.2

theorem mirrors_get (hg : (Link.groups P).holds s g h) (key : Label) :
    Mirrors (Link.binding P) s (g.get key) (h.get key) := by
  have hfind := shows_find? hg key
  unfold Groups.get
  generalize g.find? key = b at hfind
  generalize h.find? key = c at hfind
  cases hfind with
  | none => exact mirrors_throw _ _
  | some hb => exact mirrors_pure hb

theorem shows_set (hg : (Link.groups P).holds s g h) (hb : ShowsBinding P s b c) (key : Label) :
    (Link.groups P).holds s (g.set key b) (h.set key c) := by
  induction hg with
  | nil => exact .cons ⟨rfl, hb⟩ .nil
  | @cons e d g h he hrest ih =>
    rw [Groups.set, Groups.set, ← he.1]
    split_ifs
    · exact .cons ⟨rfl, hb⟩ hrest
    · exact .cons he ih

theorem shows_update {g' : Groups (Tree Label)} {h' : Groups Nat} (hg : (Link.groups P).holds s g h)
    (hg' : (Link.groups P).holds s g' h') : (Link.groups P).holds s (g.update g') (h.update h') := by
  unfold Groups.update
  induction hg' generalizing g h with
  | nil => exact hg
  | @cons e d g' h' he _ ih =>
    rw [List.foldl_cons, List.foldl_cons, ← he.1]
    exact ih (shows_set hg he.2 e.1)

theorem mirrors_guard (hg : (Link.groups P).holds s g h) (guard : Guard) :
    Mirrors (.same Bool) s (guard.holds Tree.forest g) (guard.holds Store.forest h) := by
  induction guard generalizing s with
  | has key =>
    have hfind := shows_find? hg key
    rw [Guard.holds, Guard.holds]
    generalize g.find? key = b at hfind
    generalize h.find? key = c at hfind
    cases hfind with
    | none => exact mirrors_pure rfl
    | some hb => exact mirrors_pure rfl
  | same key key' =>
    rw [Guard.holds, Guard.holds]
    refine (mirrors_get hg key).bind fun hs hb => ?_
    refine (mirrors_get ((Link.groups P).later hs hg) key').bind fun hs' hb' => ?_
    refine (mirrors_bindingValue ((Link.binding P).later hs' hb)).bind fun hs'' hv => ?_
    refine (mirrors_bindingValue ((Link.binding P).later hs'' hb')).bind fun _ hv' => ?_
    cases hv
    cases hv'
    exact mirrors_pure rfl
  | root key value =>
    rw [Guard.holds, Guard.holds]
    refine (mirrors_get hg key).bind fun hs hb => ?_
    cases hb with
    | tree ht =>
      refine (mirrors_root ht).bind fun _ hr => ?_
      cases hr
      exact mirrors_pure rfl
    | trees => exact mirrors_throw _ _
    | root => exact mirrors_throw _ _
  | not guard ih =>
    rw [Guard.holds, Guard.holds]
    refine (ih hg).bind fun _ hv => ?_
    cases hv
    exact mirrors_pure rfl

end Groups

section Matching

open Pattern

variable {P : Nat → Prop} {t : Tree Label} {ts : List (Tree Label)} {a : Nat} {as : List Nat}
  {g : Groups (Tree Label)} {h : Groups Nat}

def Link.matcher (P : Nat → Prop) :
    Link (Matcher (Except Fault) (Tree Label)) (Matcher StoreM Nat) :=
  (Link.tree P).action (Link.groups P).option

def Link.parts (P : Nat → Prop) : Link (List (Label × Matcher (Except Fault) (Tree Label)))
    (List (Label × Matcher StoreM Nat)) :=
  ((Link.same Label).pair (Link.matcher P)).list

theorem mirrors_matchInTurn {fs : List (Matcher (Except Fault) (Tree Label))}
    {fs' : List (Matcher StoreM Nat)} (hfs : (Link.matcher P).list.holds s fs fs')
    (hts : (Link.tree P).list.holds s ts as) (hg : (Link.groups P).holds s g h) :
    Mirrors (Link.groups P).option s (matchInTurn fs ts g) (matchInTurn fs' as h) := by
  induction fs generalizing fs' ts as g h s with
  | nil =>
    cases hfs
    exact mirrors_pure (.some hg)
  | cons f fs ih =>
    cases hfs with
    | cons hf hfs =>
      cases hts with
      | nil => exact mirrors_pure (.some hg)
      | cons ht hts =>
        rw [matchInTurn, matchInTurn]
        refine (hf s _ _ (.refl s []) ht).bind fun hs hfound => ?_
        cases hfound with
        | none => exact mirrors_pure .none
        | some hfound =>
          exact ih ((Link.matcher P).list.later hs hfs) ((Link.tree P).list.later hs hts)
            (shows_update ((Link.groups P).later hs hg) hfound)

theorem shows_takeWhile {ps : List (Label × Matcher (Except Fault) (Tree Label))}
    {ps' : List (Label × Matcher StoreM Nat)} (h : (Link.parts P).holds s ps ps') :
    (Link.parts P).holds s (ps.takeWhile fun part => !isListPlaceholder part.1)
      (ps'.takeWhile fun part => !isListPlaceholder part.1) := by
  induction h with
  | nil => exact .nil
  | @cons e d ps ps' he _ ih =>
    rw [List.takeWhile_cons, List.takeWhile_cons, ← he.1]
    split_ifs
    · exact .cons he ih
    · exact .nil

theorem mirrors_matchChildren {ps : List (Label × Matcher (Except Fault) (Tree Label))}
    {ps' : List (Label × Matcher StoreM Nat)} (hps : (Link.parts P).holds s ps ps')
    (hts : (Link.tree P).list.holds s ts as) (hg : (Link.groups P).holds s g h) :
    Mirrors (Link.groups P).option s (matchChildren ps ts g) (matchChildren ps' as h) := by
  have hmap : ∀ {qs : List (Label × Matcher (Except Fault) (Tree Label))}
      {qs' : List (Label × Matcher StoreM Nat)}, (Link.parts P).holds s qs qs' →
      (Link.matcher P).list.holds s (qs.map Prod.snd) (qs'.map Prod.snd) :=
    fun hqs => List.rel_map (fun _ _ hq => hq.2) hqs
  have hlists : (Link.parts P).holds s (ps.filter fun part => isListPlaceholder part.1)
      (ps'.filter fun part => isListPlaceholder part.1) :=
    List.rel_filter (fun _ _ he => iff_of_eq (congrArg (isListPlaceholder · = true) he.1)) hps
  have hfront : (Link.parts P).holds s (ps.takeWhile fun part => !isListPlaceholder part.1)
      (ps'.takeWhile fun part => !isListPlaceholder part.1) := shows_takeWhile hps
  unfold matchChildren
  rw [hps.length_eq, hts.length_eq]
  generalize (ps.filter fun part => isListPlaceholder part.1) = lists at hlists
  generalize (ps'.filter fun part => isListPlaceholder part.1) = lists' at hlists
  cases hlists with
  | nil =>
    dsimp only
    split_ifs
    · exact mirrors_matchInTurn (hmap hps) hts hg
    · exact mirrors_pure .none
  | @cons e d lists lists' he hrest =>
    cases hrest with
    | nil =>
      have hback := List.forall₂_drop
        ((ps.takeWhile fun part => !isListPlaceholder part.1).length + 1) hps
      dsimp only
      rw [← he.1, ← hfront.length_eq, hback.length_eq]
      split_ifs
      · exact mirrors_pure .none
      · refine (mirrors_matchInTurn (hmap hfront) hts hg).bind fun hs hfound => ?_
        cases hfound with
        | none => exact mirrors_pure .none
        | some hfound =>
          have hreversed := List.rel_reverse ((Link.matcher P).list.later hs (hmap hback))
          have hts' := (Link.tree P).list.later hs hts
          refine (mirrors_matchInTurn hreversed (List.rel_reverse hts') hfound).bind fun hs' hfound' => ?_
          cases hfound' with
          | none => exact mirrors_pure .none
          | some hfound' =>
            have htaken := (Link.tree P).list.later hs' hts'
            exact mirrors_pure (.some (shows_set hfound'
              (.trees (List.forall₂_take _ (List.forall₂_drop _ htaken))) _))
    | cons he' hrest =>
      dsimp only
      rw [List.length_cons, List.length_cons, List.length_cons, List.length_cons, hrest.length_eq]
      split_ifs
      · exact mirrors_throw _ _
      · exact mirrors_pure .none

mutual

theorem mirrors_matchTemplate {s : Store} : ∀ (p t : Tree Label) (a : Nat),
    (Link.tree P).holds s t a →
      Mirrors (Link.groups P).option s (matchTemplate Tree.forest p t) (matchTemplate Store.forest p a)
  | .node p ps, t, a, h => by
    rw [matchTemplate, matchTemplate]
    split_ifs
    · exact mirrors_pure (.some (.cons ⟨rfl, .tree h⟩ .nil))
    · refine (mirrors_root h).bind fun {s' r _} hs hr => ?_
      cases hr
      refine (mirrors_subtrees ((Link.tree P).later hs h)).bind fun _ hts => ?_
      exact mirrors_matchChildren (shows_matchTemplates ps) hts (.cons ⟨rfl, .root r⟩ .nil)
    · refine (mirrors_root h).bind fun hs hr => ?_
      cases hr
      split_ifs
      · refine (mirrors_subtrees ((Link.tree P).later hs h)).bind fun _ hts => ?_
        exact mirrors_matchChildren (shows_matchTemplates ps) hts .nil
      · exact mirrors_pure .none

theorem shows_matchTemplates {s : Store} : ∀ ps : List (Tree Label),
    (Link.parts P).holds s (matchTemplates Tree.forest ps) (matchTemplates Store.forest ps)
  | [] => .nil
  | p :: ps => .cons ⟨rfl, fun _ t a _ h => mirrors_matchTemplate p t a h⟩ (shows_matchTemplates ps)

end

theorem shows_childGroups (hts : (Link.tree P).list.holds s ts as) :
    (Link.groups P).holds s (childGroups ts) (childGroups as) := by
  refine List.forall₂_iff_get.mpr ⟨by simp [childGroups, hts.length_eq], fun i hi hi' => ?_⟩
  simp only [childGroups, List.length_mapIdx] at hi hi'
  simp only [childGroups, List.get_eq_getElem, List.getElem_mapIdx]
  exact ⟨rfl, .tree (hts.get hi hi')⟩

theorem fanFits_eq {fan : Option Int} (hts : (Link.tree P).list.holds s ts as) :
    fanFits fan ts = fanFits fan as := by
  unfold fanFits
  rw [hts.length_eq]

theorem mirrors_matchIn (p : Pattern) (h : (Link.tree P).holds s t a) :
    Mirrors (Link.groups P).option s (p.matchIn Tree.forest t) (p.matchIn Store.forest a) := by
  induction p with
  | base | unfounded guard => exact mirrors_throw _ _
  | root symbol fan =>
    rw [matchIn, matchIn]
    refine (mirrors_root h).bind fun hs hr => ?_
    refine (mirrors_subtrees ((Link.tree P).later hs h)).bind fun _ hts => ?_
    cases hr
    rw [← fanFits_eq hts]
    split_ifs
    · exact mirrors_pure (.some (shows_childGroups hts))
    · exact mirrors_pure .none
  | criterion test fan =>
    rw [matchIn, matchIn]
    refine (mirrors_root h).bind fun {_ r _} hs hr => ?_
    refine (mirrors_subtrees ((Link.tree P).later hs h)).bind fun _ hts => ?_
    cases hr
    rw [← fanFits_eq hts]
    split_ifs
    · exact mirrors_pure (.some (shows_set (shows_childGroups hts) (.root r) _))
    · exact mirrors_pure .none
  | top template => exact mirrors_matchTemplate template t a h
  | guarded p guard ih =>
    rw [matchIn, matchIn]
    refine ih.bind fun hs hfound => ?_
    cases hfound with
    | none => exact mirrors_pure .none
    | some hg =>
      refine (mirrors_guard hg guard).bind fun {_ v _} hs' hv => ?_
      cases hv
      cases v with
      | true => exact mirrors_pure (.some ((Link.groups P).later hs' hg))
      | false => exact mirrors_pure .none

end Matching

end WhileSketch.Store
