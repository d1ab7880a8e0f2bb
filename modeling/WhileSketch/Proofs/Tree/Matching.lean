import Mathlib
import WhileSketch.Proofs.Failure
import WhileSketch.Proofs.Tree.Nodes
import WhileSketch.Tree.Pattern

/-! The trees of the form of a template, by rules, and the matcher that finds what stands in the
place of each placeholder. -/

namespace WhileSketch

namespace Label

/-- A word or a number, which does nothing when its node is replaced. -/
def isPlain : Label → Bool
  | word _ => true
  | num _ => true
  | splice => false
  | pinned _ => false

variable {a b : Label}

theorem agrees_iff_eq (ha : a.isPlain = true) (hb : b.isPlain = true) :
    a.agrees b = true ↔ a = b := by
  cases a <;> cases b <;> simp_all [isPlain, agrees, face]

theorem agrees_eq_false (ha : a.isPlain = true) (hb : b.isPlain = true) (h : a ≠ b) :
    a.agrees b = false := by
  rw [Bool.eq_false_iff]
  exact fun hab => h ((agrees_iff_eq ha hb).mp hab)

theorem isSplice_eq_false (h : a.isPlain = true) : a.isSplice = false := by
  cases a <;> simp_all [isPlain, isSplice]

end Label

namespace Tree

def IsPlain (t : Tree Label) : Prop :=
  ∀ l ∈ t.labels, l.isPlain = true

instance (t : Tree Label) : Decidable t.IsPlain :=
  inferInstanceAs (Decidable (∀ l ∈ t.labels, _))

variable {α : Type}

theorem labels_node (r : α) (ts : List (Tree α)) :
    (node r ts).labels = r :: ts.flatMap labels := by
  simp only [labels, nodes_node, List.map_cons, root, List.map_flatMap]
  rfl

theorem mem_nodes_self {t : Tree α} : t ∈ t.nodes := by
  cases t
  rw [nodes_node]
  exact List.mem_cons_self

theorem isPlain_node {r : Label} {ts : List (Tree Label)} :
    (node r ts).IsPlain ↔ r.isPlain = true ∧ ∀ t ∈ ts, t.IsPlain := by
  simp only [IsPlain, labels_node, List.mem_cons, List.mem_flatMap]
  aesop

end Tree

namespace Groups

variable {τ : Type} {g h : Groups τ}

def keys (g : Groups τ) : List Label :=
  g.map Prod.fst

theorem set_eq_append {k : Label} {b : Binding τ} (hk : ∀ e ∈ g, e.1.agrees k = false) :
    g.set k b = g ++ [(k, b)] := by
  induction g with
  | nil => rfl
  | cons e g ih =>
    simp only [List.forall_mem_cons] at hk
    rw [set, hk.1, ih hk.2]
    rfl

theorem update_eq_append (hplain : ∀ k ∈ keys (g ++ h), k.isPlain = true)
    (hkeys : (keys (g ++ h)).Nodup) : g.update h = g ++ h := by
  induction h generalizing g with
  | nil => simp [update]
  | cons e h ih =>
    have hset : g.set e.1 e.2 = g ++ [e] := by
      refine set_eq_append fun d hd => Label.agrees_eq_false ?_ ?_ ?_
      · exact hplain _ (List.mem_map_of_mem (List.mem_append_left _ hd))
      · exact hplain _ (List.mem_map_of_mem (List.mem_append_right _ List.mem_cons_self))
      · rintro heq
        simp only [keys, List.map_append, List.nodup_append] at hkeys
        exact hkeys.2.2 d.1 (List.mem_map_of_mem hd) e.1
          (List.mem_map_of_mem List.mem_cons_self) heq
    have happend : g ++ e :: h = g ++ [e] ++ h := by simp
    rw [happend] at hplain hkeys ⊢
    rw [← ih hplain hkeys, ← hset]
    rfl

end Groups

namespace Pattern

def isPlaceholder (l : Label) : Bool :=
  isTreePlaceholder l || isRootPlaceholder l

def placeholders (p : Tree Label) : List Label :=
  p.labels.filter isPlaceholder

theorem placeholders_node (p : Label) (ps : List (Tree Label)) :
    placeholders (.node p ps) =
      if isPlaceholder p then p :: ps.flatMap placeholders else ps.flatMap placeholders := by
  simp only [placeholders, Tree.labels_node, List.filter_cons, List.filter_flatMap]
  rfl

theorem isTreePlaceholder_of_isListPlaceholder {l : Label} (h : isListPlaceholder l = true) :
    isTreePlaceholder l = true := by
  unfold isListPlaceholder at h
  unfold isTreePlaceholder
  split at h <;> simp_all

mutual

/-- A tree of the form of a template, and what stands there for the placeholders, in the order of
these. -/
inductive Fits : Tree Label → Tree Label → Groups (Tree Label) → Prop
  | tree {p : Label} (hp : isTreePlaceholder p = true) (t : Tree Label) :
      Fits (.leaf p) t [(p, .tree t)]
  | root {p : Label} {ps ts : List (Tree Label)} {g : Groups (Tree Label)}
      (hp : isTreePlaceholder p = false) (hr : isRootPlaceholder p = true) (r : Label)
      (h : FitsAll ps ts g) : Fits (.node p ps) (.node r ts) ((p, .root r) :: g)
  | label {p : Label} {ps ts : List (Tree Label)} {g : Groups (Tree Label)}
      (hp : isPlaceholder p = false) (h : FitsAll ps ts g) : Fits (.node p ps) (.node p ts) g

/-- The trees below a node of that form: a list placeholder stands for any number of them. -/
inductive FitsAll : List (Tree Label) → List (Tree Label) → Groups (Tree Label) → Prop
  | nil : FitsAll [] [] []
  | one {p t : Tree Label} {ps ts : List (Tree Label)} {g h : Groups (Tree Label)}
      (hp : isListPlaceholder p.root = false) (ht : Fits p t g) (hts : FitsAll ps ts h) :
      FitsAll (p :: ps) (t :: ts) (g ++ h)
  | many {p : Label} {ps ts : List (Tree Label)} {g : Groups (Tree Label)}
      (hp : isListPlaceholder p = true) (us : List (Tree Label)) (hts : FitsAll ps ts g) :
      FitsAll (.leaf p :: ps) (us ++ ts) ((p, .trees us) :: g)

end

mutual

theorem Fits.keys_eq {p t : Tree Label} {g : Groups (Tree Label)} :
    Fits p t g → g.keys = placeholders p
  | .tree hp t => by simp [Tree.leaf, placeholders_node, isPlaceholder, hp, Groups.keys]
  | .root hp hr r h => by
    simpa [placeholders_node, isPlaceholder, hr, Groups.keys] using h.keys_eq
  | .label hp h => by simpa [placeholders_node, hp] using h.keys_eq

theorem FitsAll.keys_eq {ps ts : List (Tree Label)} {g : Groups (Tree Label)} :
    FitsAll ps ts g → g.keys = ps.flatMap placeholders
  | .nil => rfl
  | .one _ ht hts => by
    have h₁ := ht.keys_eq
    have h₂ := hts.keys_eq
    simp_all [Groups.keys]
  | .many hp us hts => by
    have h := hts.keys_eq
    simp_all [Groups.keys, Tree.leaf, placeholders_node, isPlaceholder,
      isTreePlaceholder_of_isListPlaceholder hp]

end

section Fits

variable {p r : Label} {ps ts : List (Tree Label)} {t : Tree Label} {g : Groups (Tree Label)}

theorem fits_tree_iff (hp : isTreePlaceholder p = true) :
    Fits (.node p ps) t g ↔ ps = [] ∧ g = [(p, .tree t)] := by
  constructor
  · intro h
    cases h with
    | tree => exact ⟨rfl, rfl⟩
    | root hp' => simp [hp'] at hp
    | label hp' => simp [isPlaceholder, hp] at hp'
  · rintro ⟨rfl, rfl⟩
    exact .tree hp t

theorem fits_root_iff (hp : isTreePlaceholder p = false) (hr : isRootPlaceholder p = true) :
    Fits (.node p ps) (.node r ts) g ↔ ∃ h, FitsAll ps ts h ∧ g = (p, .root r) :: h := by
  constructor
  · intro h
    cases h with
    | tree hp' => simp [hp] at hp'
    | root _ _ _ hts => exact ⟨_, hts, rfl⟩
    | label hp' => simp [isPlaceholder, hr] at hp'
  · rintro ⟨h, hts, rfl⟩
    exact .root hp hr r hts

theorem fits_label_iff (hp : isPlaceholder p = false) :
    Fits (.node p ps) (.node r ts) g ↔ r = p ∧ FitsAll ps ts g := by
  constructor
  · intro h
    cases h with
    | tree hp' => simp [isPlaceholder, hp'] at hp
    | root _ hr => simp [isPlaceholder, hr] at hp
    | label _ hts => exact ⟨rfl, hts⟩
  · rintro ⟨rfl, hts⟩
    exact .label hp hts

end Fits

section FitsAll

variable {ps qs ts us : List (Tree Label)} {g h : Groups (Tree Label)}

theorem FitsAll.length_eq (hps : ∀ p ∈ ps, isListPlaceholder p.root = false)
    (h : FitsAll ps ts g) : ps.length = ts.length := by
  induction ps generalizing ts g with
  | nil => cases h; rfl
  | cons p ps ih =>
    simp only [List.forall_mem_cons] at hps
    cases h with
    | one _ _ hts => simp [ih hps.2 hts]
    | many hp => simp [Tree.leaf, Tree.root, hp] at hps

theorem FitsAll.one_inv {p t : Tree Label} (hp : isListPlaceholder p.root = false)
    (h : FitsAll (p :: ps) (t :: ts) g) :
    ∃ g₁ g₂, Fits p t g₁ ∧ FitsAll ps ts g₂ ∧ g = g₁ ++ g₂ := by
  generalize hus : t :: ts = us at h
  cases h with
  | one _ ht hts =>
    cases hus
    exact ⟨_, _, ht, hts, rfl⟩
  | many hp' => simp [Tree.leaf, Tree.root, hp'] at hp

theorem FitsAll.append (hps : FitsAll ps ts g) (hqs : FitsAll qs us h) :
    FitsAll (ps ++ qs) (ts ++ us) (g ++ h) := by
  induction ps generalizing ts g with
  | nil => cases hps; exact hqs
  | cons p ps ih =>
    cases hps with
    | one hp ht hts =>
      rw [List.append_assoc]
      exact .one hp ht (ih hts)
    | many hp vs hts =>
      rw [List.append_assoc]
      exact .many hp vs (ih hts)

theorem FitsAll.append_inv (hps : FitsAll (ps ++ qs) ts g) :
    ∃ ts₁ ts₂ g₁ g₂, ts = ts₁ ++ ts₂ ∧ g = g₁ ++ g₂ ∧ FitsAll ps ts₁ g₁ ∧ FitsAll qs ts₂ g₂ := by
  induction ps generalizing ts g with
  | nil => exact ⟨[], ts, [], g, rfl, rfl, .nil, hps⟩
  | cons p ps ih =>
    cases hps with
    | one hp ht hts =>
      obtain ⟨ts₁, ts₂, g₁, g₂, rfl, rfl, h₁, h₂⟩ := ih hts
      exact ⟨_ :: ts₁, ts₂, _ ++ g₁, g₂, rfl, by simp, .one hp ht h₁, h₂⟩
    | many hp vs hts =>
      obtain ⟨ts₁, ts₂, g₁, g₂, rfl, rfl, h₁, h₂⟩ := ih hts
      exact ⟨vs ++ ts₁, ts₂, _ :: g₁, g₂, by simp, rfl, .many hp vs h₁, h₂⟩

theorem FitsAll.reverse (hps : ∀ p ∈ ps, isListPlaceholder p.root = false)
    (h : FitsAll ps ts g) : ∃ g', FitsAll ps.reverse ts.reverse g' ∧ g'.Perm g := by
  induction ps generalizing ts g with
  | nil => cases h; exact ⟨[], .nil, .nil⟩
  | cons p ps ih =>
    simp only [List.forall_mem_cons] at hps
    cases h with
    | one hp ht hts =>
      obtain ⟨g', hg', hperm⟩ := ih hps.2 hts
      rw [List.reverse_cons, List.reverse_cons]
      refine ⟨_, hg'.append (.one hp ht .nil), ?_⟩
      rw [List.append_nil]
      exact List.perm_append_comm.trans (hperm.append_left _)
    | many hp => simp [Tree.leaf, Tree.root, hp] at hps

end FitsAll

/-- A match that ends without a failure and finds, up to their order, the groups with a property,
if there are any. -/
def Finds (x : Except Fault (Option (Groups (Tree Label)))) (R : Groups (Tree Label) → Prop) :
    Prop :=
  ∃ o, x = .ok o ∧ (∀ g' ∈ o, ∃ g, R g ∧ g'.Perm g) ∧ ∀ g, R g → ∃ g' ∈ o, g'.Perm g

namespace Finds

variable {x : Except Fault (Option (Groups (Tree Label)))} {R S : Groups (Tree Label) → Prop}

theorem congr (h : Finds x R) (hRS : ∀ g, R g ↔ S g) : Finds x S := by
  simpa only [Finds, hRS] using h

theorem of_perm (h : Finds x R) (hR : ∀ g, R g → ∃ g', S g' ∧ g.Perm g')
    (hS : ∀ g, S g → ∃ g', R g' ∧ g'.Perm g) : Finds x S := by
  obtain ⟨o, ho, hsound, hcomplete⟩ := h
  refine ⟨o, ho, fun g' hg' => ?_, fun g hg => ?_⟩
  · obtain ⟨g₁, hg₁, hperm₁⟩ := hsound g' hg'
    obtain ⟨g₂, hg₂, hperm₂⟩ := hR g₁ hg₁
    exact ⟨g₂, hg₂, hperm₁.trans hperm₂⟩
  · obtain ⟨g₁, hg₁, hperm₁⟩ := hS g hg
    obtain ⟨g', hg', hperm₂⟩ := hcomplete g₁ hg₁
    exact ⟨g', hg', hperm₂.trans hperm₁⟩

/-- A match goes on with the groups that have been found, in whatever order. -/
theorem andThen {f : Groups (Tree Label) → Except Fault (Option (Groups (Tree Label)))}
    {T : Groups (Tree Label) → Groups (Tree Label) → Prop} (h : Finds x R)
    (hf : ∀ g g', R g → g'.Perm g → Finds (f g') (T g)) :
    Finds (x >>= fun o => o.elim (.ok none) f) fun g => ∃ g₀, R g₀ ∧ T g₀ g := by
  obtain ⟨o, rfl, hsound, hcomplete⟩ := h
  cases o with
  | none =>
    refine ⟨none, rfl, by simp, ?_⟩
    rintro g ⟨g₀, hg₀, -⟩
    simpa using hcomplete g₀ hg₀
  | some g' =>
    obtain ⟨g₀, hg₀, hperm₀⟩ := hsound g' rfl
    obtain ⟨o, ho, hsound', -⟩ := hf g₀ g' hg₀ hperm₀
    refine ⟨o, ho, fun g₁ hg₁ => ?_, ?_⟩
    · obtain ⟨g₂, hg₂, hperm₂⟩ := hsound' g₁ hg₁
      exact ⟨g₂, ⟨g₀, hg₀, hg₂⟩, hperm₂⟩
    · rintro g ⟨g₁, hg₁, hg⟩
      obtain ⟨_, ⟨⟩, hperm₁⟩ := hcomplete g₁ hg₁
      obtain ⟨o', ho', -, hcomplete'⟩ := hf g₁ g' hg₁ hperm₁
      obtain rfl : o = o' := Except.ok.inj (ho.symm.trans ho')
      exact hcomplete' g hg

theorem set {k : Label} {b : Binding (Tree Label)} (h : Finds x R)
    (hk : ∀ g, R g → ∀ e ∈ g, e.1.agrees k = false) :
    Finds (x >>= fun o => .ok (o.map fun g => g.set k b))
      fun g => ∃ g₀, R g₀ ∧ g = g₀ ++ [(k, b)] := by
  obtain ⟨o, rfl, hsound, hcomplete⟩ := h
  have hset : ∀ g g' : Groups (Tree Label), R g → g'.Perm g →
      (g'.set k b).Perm (g ++ [(k, b)]) := by
    intro g g' hg hperm
    rw [Groups.set_eq_append fun e he => hk g hg e (hperm.mem_iff.mp he)]
    exact hperm.append_right _
  refine ⟨_, rfl, ?_, ?_⟩
  · intro g' hg'
    obtain ⟨g₁, hg₁, rfl⟩ := Option.map_eq_some_iff.mp hg'
    obtain ⟨g, hg, hperm⟩ := hsound g₁ hg₁
    exact ⟨_, ⟨g, hg, rfl⟩, hset g g₁ hg hperm⟩
  · rintro _ ⟨g, hg, rfl⟩
    obtain ⟨g₁, hg₁, hperm⟩ := hcomplete g hg
    exact ⟨_, Option.map_eq_some_iff.mpr ⟨g₁, hg₁, rfl⟩, hset g g₁ hg hperm⟩

end Finds

section Matching

variable {ps ts : List (Tree Label)} {acc : Groups (Tree Label)}

theorem matchInTurn_cons (f : Matcher (Except Fault) (Tree Label))
    (fs : List (Matcher (Except Fault) (Tree Label))) (t : Tree Label) (ts : List (Tree Label))
    (acc : Groups (Tree Label)) : matchInTurn (f :: fs) (t :: ts) acc =
      f t >>= fun o => o.elim (.ok none) fun g => matchInTurn fs ts (acc.update g) := by
  rw [matchInTurn]
  congr 1
  funext o
  cases o <;> rfl

theorem finds_matchInTurn (ts : List (Tree Label)) (acc : Groups (Tree Label))
    (hlist : ∀ p ∈ ps, isListPlaceholder p.root = false)
    (hps : ∀ p ∈ ps, ∀ t ∈ ts, Finds (matchTemplate Tree.forest p t) (Fits p t))
    (hlen : ps.length ≤ ts.length)
    (hplain : ∀ k ∈ acc.keys ++ ps.flatMap placeholders, k.isPlain = true)
    (hkeys : (acc.keys ++ ps.flatMap placeholders).Nodup) :
    Finds (matchInTurn (ps.map (matchTemplate Tree.forest)) ts acc)
      fun g => ∃ h, FitsAll ps (ts.take ps.length) h ∧ g = acc ++ h := by
  induction ps generalizing ts acc with
  | nil =>
    refine ⟨some acc, by cases ts <;> rfl, ?_, ?_⟩
    · rintro g' ⟨⟩
      exact ⟨acc, ⟨[], .nil, by simp⟩, .refl _⟩
    · rintro g ⟨h, hfits, rfl⟩
      cases hfits
      exact ⟨acc, rfl, by simp⟩
  | cons p ps ih =>
    simp only [List.forall_mem_cons] at hlist hps
    cases ts with
    | nil => simp at hlen
    | cons t ts =>
      have hrest : ∀ g g', Fits p t g → g'.Perm g →
          Finds (matchInTurn (ps.map (matchTemplate Tree.forest)) ts (acc.update g')) fun g₁ =>
            ∃ h, FitsAll ps (ts.take ps.length) h ∧ g₁ = acc ++ (g ++ h) := by
        intro g g' hg hperm
        have hg' : g'.keys.Perm (placeholders p) := hg.keys_eq ▸ hperm.map _
        have hall : (acc ++ g').keys ++ ps.flatMap placeholders |>.Perm
            (acc.keys ++ (p :: ps).flatMap placeholders) := by
          simp only [Groups.keys, List.map_append, List.flatMap_cons, List.append_assoc]
          exact (hg'.append_right _).append_left _
        have hplain' := fun k hk => hplain k (hall.mem_iff.mp hk)
        have hkeys' := hall.nodup_iff.mpr hkeys
        have hmoved : ∀ h, (acc ++ g' ++ h).Perm (acc ++ (g ++ h)) := by
          intro h
          rw [List.append_assoc]
          exact (hperm.append_right h).append_left acc
        rw [Groups.update_eq_append (fun k hk => hplain' k (List.mem_append_left _ hk))
          (List.Nodup.of_append_left hkeys')]
        refine (ih ts (acc ++ g') hlist.2
          (fun q hq u hu => hps.2 q hq u (List.mem_cons_of_mem _ hu)) (by simpa using hlen) hplain'
          hkeys').of_perm ?_ ?_
        · rintro _ ⟨h, hfits, rfl⟩
          exact ⟨_, ⟨h, hfits, rfl⟩, hmoved h⟩
        · rintro _ ⟨h, hfits, rfl⟩
          exact ⟨_, ⟨h, hfits, rfl⟩, hmoved h⟩
      rw [List.map_cons, matchInTurn_cons]
      refine ((hps.1 t List.mem_cons_self).andThen hrest).congr fun g => ?_
      constructor
      · rintro ⟨g₁, hg₁, h, hfits, rfl⟩
        exact ⟨g₁ ++ h, .one hlist.1 hg₁ hfits, rfl⟩
      · rintro ⟨_, hfits, rfl⟩
        obtain ⟨g₁, h, ht, hts, rfl⟩ := FitsAll.one_inv hlist.1 hfits
        exact ⟨g₁, ht, h, hts, rfl⟩

theorem finds_matchInTurn_reverse (ts : List (Tree Label)) (acc : Groups (Tree Label))
    (hlist : ∀ p ∈ ps, isListPlaceholder p.root = false)
    (hps : ∀ p ∈ ps, ∀ t ∈ ts, Finds (matchTemplate Tree.forest p t) (Fits p t))
    (hlen : ps.length ≤ ts.length)
    (hplain : ∀ k ∈ acc.keys ++ ps.flatMap placeholders, k.isPlain = true)
    (hkeys : (acc.keys ++ ps.flatMap placeholders).Nodup) :
    Finds (matchInTurn (ps.reverse.map (matchTemplate Tree.forest)) ts.reverse acc)
      fun g => ∃ h, FitsAll ps (ts.drop (ts.length - ps.length)) h ∧ g = acc ++ h := by
  have hlist' : ∀ p ∈ ps.reverse, isListPlaceholder p.root = false := by simpa using hlist
  have hnames : (acc.keys ++ ps.reverse.flatMap placeholders).Perm
      (acc.keys ++ ps.flatMap placeholders) :=
    (ps.reverse_perm.flatMap_right _).append_left _
  obtain ⟨o, ho, hsound, hcomplete⟩ := finds_matchInTurn ts.reverse acc hlist'
    (fun p hp t ht => hps p (List.mem_reverse.mp hp) t (List.mem_reverse.mp ht))
    (by simpa using hlen)
    (fun l hl => hplain l (hnames.mem_iff.mp hl)) (hnames.nodup_iff.mpr hkeys)
  simp only [List.length_reverse, List.take_reverse] at hsound hcomplete
  refine ⟨o, ho, ?_, ?_⟩
  · intro g' hg'
    obtain ⟨_, ⟨h, hfits, rfl⟩, hperm⟩ := hsound g' hg'
    obtain ⟨h', hfits', hperm'⟩ := hfits.reverse hlist'
    rw [List.reverse_reverse, List.reverse_reverse] at hfits'
    exact ⟨_, ⟨h', hfits', rfl⟩, hperm.trans (hperm'.symm.append_left acc)⟩
  · rintro _ ⟨h, hfits, rfl⟩
    obtain ⟨h', hfits', hperm'⟩ := hfits.reverse hlist
    obtain ⟨g', hg', hperm⟩ := hcomplete _ ⟨h', hfits', rfl⟩
    exact ⟨g', hg', hperm.trans (hperm'.append_left acc)⟩

variable {front back : List (Tree Label)} {k : Label}

theorem matchTemplates_eq_map (ps : List (Tree Label)) :
    matchTemplates Tree.forest ps = ps.map fun p => (p.root, matchTemplate Tree.forest p) := by
  induction ps with
  | nil => rfl
  | cons p ps ih => rw [matchTemplates, ih, List.map_cons]

theorem finds_matchChildren_of_forall (hlist : ∀ p ∈ ps, isListPlaceholder p.root = false)
    (hps : ∀ p ∈ ps, ∀ t ∈ ts, Finds (matchTemplate Tree.forest p t) (Fits p t))
    (hplain : ∀ k ∈ acc.keys ++ ps.flatMap placeholders, k.isPlain = true)
    (hkeys : (acc.keys ++ ps.flatMap placeholders).Nodup) :
    Finds (matchChildren (matchTemplates Tree.forest ps) ts acc)
      fun g => ∃ h, FitsAll ps ts h ∧ g = acc ++ h := by
  have hfilter : (matchTemplates Tree.forest ps).filter (fun part => isListPlaceholder part.1) =
      [] := by
    rw [matchTemplates_eq_map, List.filter_map, List.map_eq_nil_iff, List.filter_eq_nil_iff]
    simpa using hlist
  have hchildren : matchChildren (matchTemplates Tree.forest ps) ts acc =
      if ps.length = ts.length then matchInTurn (ps.map (matchTemplate Tree.forest)) ts acc
      else .ok none := by
    simp only [matchChildren, hfilter]
    simp only [matchTemplates_eq_map, List.length_map, List.map_map]
    rfl
  rw [hchildren]
  split_ifs with hlen
  · have hturn := finds_matchInTurn ts acc hlist hps hlen.le hplain hkeys
    rwa [hlen, List.take_length] at hturn
  · refine ⟨none, rfl, by simp, ?_⟩
    rintro g ⟨h, hfits, rfl⟩
    exact (hlen (hfits.length_eq hlist)).elim

/-- Around a list placeholder the trees in front of it and those behind it fit one by one. -/
theorem fitsAll_list_iff (hfront : ∀ p ∈ front, isListPlaceholder p.root = false)
    (hback : ∀ p ∈ back, isListPlaceholder p.root = false) (hk : isListPlaceholder k = true)
    {g : Groups (Tree Label)} :
    FitsAll (front ++ .leaf k :: back) ts g ↔ front.length + back.length ≤ ts.length ∧
      ∃ h₁ h₂, FitsAll front (ts.take front.length) h₁ ∧
        FitsAll back (ts.drop (ts.length - back.length)) h₂ ∧
        g = h₁ ++ (k, .trees ((ts.drop front.length).take
          (ts.length - front.length - back.length))) :: h₂ := by
  constructor
  · intro h
    obtain ⟨ts₁, ts₂, h₁, g₂, rfl, rfl, hts₁, hts₂⟩ := h.append_inv
    have hlen₁ := hts₁.length_eq hfront
    cases hts₂ with
    | one hp => simp [Tree.leaf, Tree.root, hk] at hp
    | @many _ _ ts₃ h₂ _ us hts₃ =>
      have hlen₃ := hts₃.length_eq hback
      refine ⟨by simp; omega, h₁, h₂, ?_, ?_, ?_⟩
      · rwa [hlen₁, List.take_left]
      · have hdrop : (ts₁ ++ (us ++ ts₃)).length - back.length = (ts₁ ++ us).length := by
          simp; omega
        rwa [hdrop, ← List.append_assoc, List.drop_left]
      · have htake : (ts₁ ++ (us ++ ts₃)).length - ts₁.length - back.length = us.length := by
          simp; omega
        rw [hlen₁, htake, List.drop_left, List.take_left]
  · rintro ⟨hlen, h₁, h₂, hts₁, hts₂, rfl⟩
    have hsplit : ts = ts.take front.length ++ ((ts.drop front.length).take
        (ts.length - front.length - back.length) ++ ts.drop (ts.length - back.length)) := by
      have hdrop : ts.drop (ts.length - back.length) =
          (ts.drop front.length).drop (ts.length - front.length - back.length) := by
        rw [List.drop_drop]
        congr 1
        omega
      rw [hdrop, List.take_append_drop, List.take_append_drop]
    have hfits := hts₁.append (.many hk ((ts.drop front.length).take
      (ts.length - front.length - back.length)) hts₂)
    rwa [← hsplit] at hfits

theorem matchTemplates_append_cons (front back : List (Tree Label)) (k : Label) :
    matchTemplates Tree.forest (front ++ .leaf k :: back) =
      matchTemplates Tree.forest front ++
        (k, matchTemplate Tree.forest (.leaf k)) :: matchTemplates Tree.forest back := by
  simp [matchTemplates_eq_map, Tree.leaf, Tree.root]

/-- Around a list placeholder, the parts in front of it are matched first and then those behind
it. -/
theorem matchChildren_list_eq (hfront : ∀ p ∈ front, isListPlaceholder p.root = false)
    (hback : ∀ p ∈ back, isListPlaceholder p.root = false) (hk : isListPlaceholder k = true) :
    matchChildren (matchTemplates Tree.forest (front ++ .leaf k :: back)) ts acc =
      if ts.length < front.length + back.length then .ok none
      else matchInTurn (front.map (matchTemplate Tree.forest)) ts acc >>= fun o =>
        o.elim (.ok none) fun g =>
          matchInTurn (back.reverse.map (matchTemplate Tree.forest)) ts.reverse g >>= fun o =>
            .ok (o.map fun g => g.set k (.trees ((ts.drop front.length).take
              (ts.length - front.length - back.length)))) := by
  have hnone {ps : List (Tree Label)} (hps : ∀ p ∈ ps, isListPlaceholder p.root = false) :
      ∀ part ∈ matchTemplates Tree.forest ps, isListPlaceholder part.1 = false := by
    simpa [matchTemplates_eq_map] using hps
  have hfilter : (matchTemplates Tree.forest (front ++ .leaf k :: back)).filter
      (fun part => isListPlaceholder part.1) = [(k, matchTemplate Tree.forest (.leaf k))] := by
    rw [matchTemplates_append_cons, List.filter_append, List.filter_cons_of_pos (by exact hk),
      List.filter_eq_nil_iff.mpr (by simpa using hnone hfront),
      List.filter_eq_nil_iff.mpr (by simpa using hnone hback), List.nil_append]
  have htake : (matchTemplates Tree.forest (front ++ .leaf k :: back)).takeWhile
      (fun part => !isListPlaceholder part.1) = matchTemplates Tree.forest front := by
    rw [matchTemplates_append_cons, List.takeWhile_append_of_pos (by simpa using hnone hfront)]
    simp [hk]
  have hlen (ps : List (Tree Label)) : (matchTemplates Tree.forest ps).length = ps.length := by
    simp [matchTemplates_eq_map]
  have hdrop : (matchTemplates Tree.forest (front ++ .leaf k :: back)).drop (front.length + 1) =
      matchTemplates Tree.forest back := by
    rw [matchTemplates_append_cons, ← hlen front, ← List.drop_drop, List.drop_left, List.drop_one,
      List.tail_cons]
  have hsnd (ps : List (Tree Label)) : (matchTemplates Tree.forest ps).map Prod.snd =
      ps.map (matchTemplate Tree.forest) := by
    simp [matchTemplates_eq_map]
  simp only [matchChildren, hfilter]
  simp only [htake, hlen, hdrop, hsnd, List.length_append, List.length_cons, ← List.map_reverse,
    ← Nat.add_assoc, Nat.add_lt_add_iff_right]
  split_ifs with hshort
  · rfl
  · congr 1
    funext o
    cases o with
    | none => rfl
    | some g =>
      simp only [Option.elim_some]
      congr 1
      funext o
      cases o <;> rfl

theorem placeholders_list_perm (front back : List (Tree Label)) (hk : isListPlaceholder k = true)
    (names : List Label) :
    (names ++ (front ++ .leaf k :: back).flatMap placeholders).Perm
      (k :: (names ++ front.flatMap placeholders ++ back.flatMap placeholders)) := by
  have hself : placeholders (.leaf k) = [k] := by
    simp [Tree.leaf, placeholders_node, isPlaceholder, isTreePlaceholder_of_isListPlaceholder hk]
  simp only [List.flatMap_append, List.flatMap_cons, hself, List.singleton_append,
    ← List.append_assoc]
  exact List.perm_middle

theorem finds_matchChildren_list (hfront : ∀ p ∈ front, isListPlaceholder p.root = false)
    (hback : ∀ p ∈ back, isListPlaceholder p.root = false) (hk : isListPlaceholder k = true)
    (hps : ∀ p ∈ front ++ back, ∀ t ∈ ts, Finds (matchTemplate Tree.forest p t) (Fits p t))
    (hplain : ∀ l ∈ acc.keys ++ (front ++ .leaf k :: back).flatMap placeholders, l.isPlain = true)
    (hkeys : (acc.keys ++ (front ++ .leaf k :: back).flatMap placeholders).Nodup) :
    Finds (matchChildren (matchTemplates Tree.forest (front ++ .leaf k :: back)) ts acc)
      fun g => ∃ h, FitsAll (front ++ .leaf k :: back) ts h ∧ g = acc ++ h := by
  have hnames := placeholders_list_perm front back hk acc.keys
  rw [hnames.nodup_iff, List.nodup_cons] at hkeys
  simp only [hnames.mem_iff, List.mem_cons, forall_eq_or_imp] at hplain
  simp only [matchChildren_list_eq hfront hback hk, fitsAll_list_iff hfront hback hk]
  split_ifs with hshort
  · exact ⟨none, rfl, by simp, fun g hg => by obtain ⟨h, ⟨hle, -⟩, -⟩ := hg; omega⟩
  generalize hb : Binding.trees _ = b
  -- The parts in front come first, then those behind from the last one on. The list between them
  -- gets its name last, though it stands in the middle.
  have hfirst := finds_matchInTurn ts acc hfront (fun p hp => hps p (List.mem_append_left _ hp))
    (by omega) (fun l hl => hplain.2 l (List.mem_append_left _ hl)) hkeys.2.of_append_left
  have hrest : ∀ g g', (∃ h, FitsAll front (ts.take front.length) h ∧ g = acc ++ h) → g'.Perm g →
      Finds (matchInTurn (back.reverse.map (matchTemplate Tree.forest)) ts.reverse g' >>= fun o =>
        .ok (o.map fun g => g.set k b)) fun g₁ =>
          ∃ h, FitsAll back (ts.drop (ts.length - back.length)) h ∧ g₁ = g ++ h ++ [(k, b)] := by
    rintro _ g' ⟨h₁, hfits₁, rfl⟩ hperm
    have hnames' : (g'.keys ++ back.flatMap placeholders).Perm
        (acc.keys ++ front.flatMap placeholders ++ back.flatMap placeholders) := by
      rw [← hfits₁.keys_eq]
      simpa [Groups.keys] using (hperm.map Prod.fst).append_right (back.flatMap placeholders)
    have hplain' := fun l hl => hplain.2 l (hnames'.mem_iff.mp hl)
    have hnew : k ∉ g'.keys ++ back.flatMap placeholders := fun hmem =>
      hkeys.1 (hnames'.mem_iff.mp hmem)
    have hsecond := finds_matchInTurn_reverse ts g' hback
      (fun p hp => hps p (List.mem_append_right _ hp)) (by omega) hplain'
      (hnames'.nodup_iff.mpr hkeys.2)
    refine (hsecond.set ?_).of_perm ?_ ?_
    · rintro _ ⟨h₂, hfits₂, rfl⟩ e he
      have hmem : e.1 ∈ g'.keys ++ back.flatMap placeholders := by
        rw [← hfits₂.keys_eq]
        simpa [Groups.keys] using List.mem_map_of_mem (f := Prod.fst) he
      refine Label.agrees_eq_false (hplain' _ hmem) hplain.1 ?_
      rintro rfl
      exact hnew hmem
    · rintro _ ⟨_, ⟨h₂, hfits₂, rfl⟩, rfl⟩
      exact ⟨_, ⟨h₂, hfits₂, rfl⟩, (hperm.append_right h₂).append_right _⟩
    · rintro _ ⟨h₂, hfits₂, rfl⟩
      exact ⟨_, ⟨_, ⟨h₂, hfits₂, rfl⟩, rfl⟩, (hperm.append_right h₂).append_right _⟩
  have hplace : ∀ h₁ h₂ : Groups (Tree Label),
      (acc ++ h₁ ++ h₂ ++ [(k, b)]).Perm (acc ++ (h₁ ++ (k, b) :: h₂)) := by
    intro h₁ h₂
    rw [← List.append_assoc acc]
    exact (List.perm_append_singleton _ _).trans List.perm_middle.symm
  refine (hfirst.andThen hrest).of_perm ?_ ?_
  · rintro _ ⟨_, ⟨h₁, hfits₁, rfl⟩, h₂, hfits₂, rfl⟩
    exact ⟨_, ⟨_, ⟨by omega, h₁, h₂, hfits₁, hfits₂, rfl⟩, rfl⟩, hplace h₁ h₂⟩
  · rintro _ ⟨_, ⟨-, h₁, h₂, hfits₁, hfits₂, rfl⟩, rfl⟩
    exact ⟨_, ⟨_, ⟨h₁, hfits₁, rfl⟩, h₂, hfits₂, rfl⟩, hplace h₁ h₂⟩

/-- The children of a node of which at most one is a list placeholder. -/
theorem finds_matchChildren (acc : Groups (Tree Label))
    (hcount : (ps.countP fun p => isListPlaceholder p.root) ≤ 1)
    (hleaf : ∀ p ∈ ps, isListPlaceholder p.root = true → p.subtrees = [])
    (hps : ∀ p ∈ ps, ∀ t ∈ ts, Finds (matchTemplate Tree.forest p t) (Fits p t))
    (hplain : ∀ k ∈ acc.keys ++ ps.flatMap placeholders, k.isPlain = true)
    (hkeys : (acc.keys ++ ps.flatMap placeholders).Nodup) :
    Finds (matchChildren (matchTemplates Tree.forest ps) ts acc)
      fun g => ∃ h, FitsAll ps ts h ∧ g = acc ++ h := by
  by_cases hlist : ∃ p ∈ ps, isListPlaceholder p.root = true
  · obtain ⟨p, hmem, hp⟩ := hlist
    obtain ⟨front, back, rfl⟩ := List.append_of_mem hmem
    obtain ⟨k, hk⟩ : ∃ k, p = .leaf k := by
      cases p with
      | node k cs => exact ⟨k, congrArg _ (hleaf _ hmem hp)⟩
    subst hk
    rw [List.countP_append, List.countP_cons_of_pos (by exact hp)] at hcount
    have hfront : front.countP (fun p => isListPlaceholder p.root) = 0 := by omega
    have hback : back.countP (fun p => isListPlaceholder p.root) = 0 := by omega
    simp only [List.countP_eq_zero, Bool.not_eq_true] at hfront hback
    refine finds_matchChildren_list hfront hback hp (fun q hq => hps q ?_) hplain hkeys
    exact (List.sublist_cons_self _ _).append_left front |>.subset hq
  · simp only [not_exists, not_and, Bool.not_eq_true] at hlist
    exact finds_matchChildren_of_forall hlist hps hplain hkeys

end Matching

/-- A template whose names are all different, where what stands for trees has nothing below it and
at most one child of each node stands for a list. -/
structure IsTemplate (p : Tree Label) : Prop where
  plain : p.IsPlain
  distinct : (placeholders p).Nodup
  leaves : ∀ n ∈ p.nodes, isTreePlaceholder n.root = true → n.subtrees = []
  oneList : ∀ n ∈ p.nodes, (n.subtrees.countP fun c => isListPlaceholder c.root) ≤ 1

section IsTemplate

variable {p : Label} {ps : List (Tree Label)}

theorem IsTemplate.child (h : IsTemplate (.node p ps)) {c : Tree Label} (hc : c ∈ ps) :
    IsTemplate c where
  plain := (Tree.isPlain_node.mp h.plain).2 c hc
  distinct := by
    refine h.distinct.sublist ?_
    have hsub : (placeholders c).Sublist (ps.flatMap placeholders) :=
      List.sublist_flatten_of_mem (List.mem_map_of_mem hc)
    rw [placeholders_node]
    split_ifs
    · exact hsub.trans (List.sublist_cons_self _ _)
    · exact hsub
  leaves := fun n hn => h.leaves n (by simp [Tree.nodes_node]; exact .inr ⟨c, hc, hn⟩)
  oneList := fun n hn => h.oneList n (by simp [Tree.nodes_node]; exact .inr ⟨c, hc, hn⟩)

theorem IsTemplate.leaf_of_list (h : IsTemplate (.node p ps)) :
    ∀ c ∈ ps, isListPlaceholder c.root = true → c.subtrees = [] := by
  intro c hc hlist
  refine h.leaves c ?_ (isTreePlaceholder_of_isListPlaceholder hlist)
  rw [Tree.nodes_node]
  exact List.mem_cons_of_mem _ (List.mem_flatMap.mpr ⟨c, hc, Tree.mem_nodes_self⟩)

theorem matchTemplate_node (t : Tree Label) : matchTemplate Tree.forest (.node p ps) t =
    if isTreePlaceholder p then .ok (some [(p, .tree t)])
    else if isRootPlaceholder p then
      matchChildren (matchTemplates Tree.forest ps) t.subtrees [(p, .root t.root)]
    else if p.agrees t.root then matchChildren (matchTemplates Tree.forest ps) t.subtrees []
    else .ok none := by
  simp only [matchTemplate, Tree.forest_root, Tree.forest_subtrees, ok_bind]
  split_ifs <;> rfl

/-- The matcher finds what stands in the place of each placeholder, if a tree has the form of a
template at all. -/
theorem finds_matchTemplate {p : Tree Label} (hp : IsTemplate p) {t : Tree Label}
    (ht : t.IsPlain) : Finds (matchTemplate Tree.forest p t) (Fits p t) := by
  induction p using Tree.induction generalizing t with
  | node p ps ih =>
    have hleaf := hp.leaves _ Tree.mem_nodes_self
    have hcount := hp.oneList _ Tree.mem_nodes_self
    have hleaves := hp.leaf_of_list
    have hplain : ∀ k ∈ placeholders (.node p ps), k.isPlain = true :=
      fun k hk => hp.plain k (List.mem_of_mem_filter hk)
    have hkeys := hp.distinct
    rw [placeholders_node] at hkeys hplain
    obtain ⟨r, ts⟩ := t
    rw [Tree.isPlain_node] at ht
    have hps : ∀ c ∈ ps, ∀ t ∈ ts, Finds (matchTemplate Tree.forest c t) (Fits c t) :=
      fun c hc t hmem => ih c hc (hp.child hc) (ht.2 t hmem)
    rw [matchTemplate_node]
    split_ifs with htree hroot hagrees
    · refine ⟨_, rfl, ?_, ?_⟩
      · rintro _ ⟨⟩
        exact ⟨_, (fits_tree_iff htree).mpr ⟨hleaf htree, rfl⟩, .refl _⟩
      · rintro g hg
        obtain ⟨-, rfl⟩ := (fits_tree_iff htree).mp hg
        exact ⟨_, rfl, .refl _⟩
    · rw [if_pos (by simp [isPlaceholder, hroot])] at hkeys hplain
      refine (finds_matchChildren [(p, .root r)] hcount hleaves hps hplain hkeys).congr fun g => ?_
      rw [fits_root_iff (by simpa using htree) hroot]
      rfl
    · rw [if_neg (by simp [isPlaceholder, htree, hroot])] at hkeys hplain
      have hpr := (Label.agrees_iff_eq (Tree.isPlain_node.mp hp.plain).1 ht.1).mp hagrees
      refine (finds_matchChildren [] hcount hleaves hps hplain hkeys).congr fun g => ?_
      rw [fits_label_iff (by simp [isPlaceholder, htree, hroot])]
      simp [hpr, Tree.subtrees]
    · refine ⟨none, rfl, by simp, fun g hg => ?_⟩
      obtain ⟨rfl, -⟩ := (fits_label_iff (by simp [isPlaceholder, htree, hroot])).mp hg
      simp [Label.agrees, Tree.root] at hagrees

end IsTemplate

end Pattern

end WhileSketch
