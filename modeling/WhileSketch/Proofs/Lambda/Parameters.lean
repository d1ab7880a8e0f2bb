import Mathlib
import WhileSketch.Proofs.Lambda.Derivations
import WhileSketch.Proofs.Tree.Nodes

/-! What is read from derivations of types and of parameters. -/

namespace WhileSketch.Lambda

variable {d : Dialect}

section Types

variable {n : Nat} {t : Tree Label} {ws : List Word}

theorem condense_typeLevel {x : String} (hx : x ∈ ["A", "T", "T1"]) :
    Dialect.condenseWithin .typed (n + 1) (Tree.word x [t]) =
      Dialect.condenseWithin .typed n t := by
  simp only [List.mem_cons, List.not_mem_nil, or_false] at hx
  obtain rfl | rfl | rfl := hx <;> rfl

theorem condense_typeBrackets (ds us : List (Tree Label)) :
    Dialect.condenseWithin .typed (n + 1) (Tree.word "T1" [Tree.word "(" ds, t, Tree.word ")" us]) =
      Dialect.condenseWithin .typed n t :=
  rfl

theorem condense_sign {x : String} (hx : x ∈ ["id:T", "T>"]) (t u : Tree Label) (s : String)
    (us : List (Tree Label)) :
    Dialect.condenseWithin .typed (n + 1) (Tree.word x [t, Tree.word s us, u]) = do
      let left ← Dialect.condenseWithin .typed n t
      return Tree.word s [left, ← Dialect.condenseWithin .typed n u] := by
  simp only [List.mem_cons, List.not_mem_nil, or_false] at hx
  obtain rfl | rfl := hx <;> rfl

/-- What comes from the symbols of types is a type. -/
theorem exists_type {x : String} (hx : x ∈ ["T", "T>", "T1"]) (hn : t.size ≤ n)
    (h : Yields (Dialect.rules .typed) x t ws) (hws : ∀ w ∈ ws, IsToken w) :
    ∃ u, Dialect.condenseWithin .typed n t = Dialect.reading .typed ws u ∧
      TypeReads .typed u ws := by
  -- The bound is on the size of the derivation, since the chain of levels makes no progress in the
  -- words.
  induction n generalizing x t ws with
  | zero =>
    rw [Tree.size_eq] at hn
    omega
  | succ n ih =>
    simp only [List.mem_cons, List.not_mem_nil, or_false] at hx
    obtain rfl | rfl | rfl := hx
    · obtain ⟨rhs, hrhs, ts, rfl, hts⟩ := exists_outcome h hws (by decide)
      have houtcomes : Dialect.outcomes .typed "T" = [["T>"], ["T1"]] := by decide
      simp only [houtcomes, List.mem_cons, List.not_mem_nil, or_false] at hrhs
      obtain ⟨y, hy, rfl⟩ : ∃ y ∈ ["T", "T>", "T1"], rhs = [y] := by
        obtain rfl | rfl := hrhs <;> simp
      obtain ⟨t, rfl, ht⟩ := yieldsAll_one_iff.mp hts
      rw [condense_typeLevel (by decide)]
      exact ih hy (by simp [Tree.word, Tree.size, Tree.sizeList] at hn; omega) ht hws
    · have houtcomes : Dialect.outcomes .typed "T>" = [["T1", "->", "T"]] := by decide
      obtain ⟨ts, rfl, hts⟩ := exists_only_outcome houtcomes h hws (by decide)
      obtain ⟨t, u, vs, us, rfl, rfl, ht, hu, hvs, hus⟩ := exists_sides (by decide) hts hws
      simp only [Tree.word, Tree.size, Tree.sizeList] at hn
      obtain ⟨t', ht', htt⟩ := ih (by simp) (by omega) ht hvs
      obtain ⟨u', hu', huu⟩ := ih (by simp) (by omega) hu hus
      refine ⟨Tree.word "->" [t', u'], ?_, .arrow htt huu⟩
      rw [markTree, condense_sign (by simp), ht', hu', reading_mark (by decide)]
      exact reading_map₂ fun t u => Tree.word "->" [t, u]
    · obtain ⟨rhs, hrhs, ts, rfl, hts⟩ := exists_outcome h hws (by decide)
      have houtcomes : Dialect.outcomes .typed "T1" = [["id"], ["(", "T", ")"]] := by decide
      simp only [houtcomes, List.mem_cons, List.not_mem_nil, or_false] at hrhs
      obtain rfl | rfl := hrhs
      · obtain ⟨t, rfl, ht⟩ := yieldsAll_one_iff.mp hts
        obtain ⟨x, hx, rfl, rfl⟩ := exists_name ht hws
        simp only [Tree.word, Tree.size, Tree.sizeList, nameTree] at hn
        exact ⟨_, (condense_typeLevel (by decide)).trans (condense_name hx (by omega)), .name x⟩
      · obtain ⟨t, vs, rfl, rfl, ht, hvs⟩ := exists_enclosed (by decide) (by decide) hts hws
        simp only [Tree.word, Tree.size, Tree.sizeList] at hn
        obtain ⟨u, hu, huu⟩ := ih (by simp) (by omega) ht hvs
        refine ⟨u, ?_, .brackets huu⟩
        rw [markTree, markTree, condense_typeBrackets, hu,
          reading_enclosed (by decide) (by decide)]

end Types

section Names

variable {n : Nat} {t : Tree Label} {ws : List Word}

theorem exists_names (h : Yields d.rules "L" t ws) (hws : ∀ w ∈ ws, IsToken w) :
    ∃ xs : List String, ws = xs.map nameWord ∧ t.split none = xs.map nameTree ∧
      t.root = .word "L" ∧ 2 * xs.length < t.size := by
  induction hn : t.size using Nat.strong_induction_on generalizing t ws with
  | _ n ih =>
    obtain ⟨rhs, hrhs, ts, rfl, hts⟩ := exists_outcome h hws (by decide)
    have houtcomes : d.outcomes "L" = [["id", "L"], []] := by cases d <;> decide
    simp only [houtcomes, List.mem_cons, List.not_mem_nil, or_false] at hrhs
    obtain rfl | rfl := hrhs
    · obtain ⟨t, u, vs, us, rfl, rfl, ht, hu⟩ := yieldsAll_two_iff.mp hts
      obtain ⟨hvs, hus⟩ := List.forall_mem_append.mp hws
      obtain ⟨x, -, rfl, rfl⟩ := exists_name ht hvs
      simp only [Tree.word, Tree.size, Tree.sizeList, nameTree] at hn
      obtain ⟨xs, rfl, hsplit, hroot, hsize⟩ := ih u.size (by omega) hu hus rfl
      refine ⟨x :: xs, rfl, ?_, rfl, by simp only [List.length_cons]; omega⟩
      have hrest : Tree.splitBy (Label.agrees (.word "L")) u = xs.map nameTree := by
        rw [← hsplit, Tree.split, Option.getD_none, hroot]
      change Tree.splitByList (Label.agrees (.word "L")) [nameTree x, u] = _
      rw [Tree.splitByList_eq_flatMap, List.flatMap_cons, List.flatMap_singleton, hrest]
      rfl
    · obtain ⟨rfl, rfl⟩ := yieldsAll_nil_iff.mp hts
      exact ⟨[], rfl, rfl, rfl, by simp [← hn, Tree.word, Tree.size, Tree.sizeList]⟩

theorem mapM_names {xs : List String} (hxs : ∀ w ∈ xs.map nameWord, IsToken w)
    (hn : 2 * xs.length ≤ n) :
    (xs.map nameTree).mapM (d.condenseWithin n) =
      d.reading (xs.map nameWord) (xs.map fun x => nameTree (d.shown x)) := by
  induction xs with
  | nil => rfl
  | cons x xs ih =>
    simp only [List.map_cons, List.forall_mem_cons, List.length_cons] at hxs hn
    exact mapM_reading (condense_name hxs.1.isWord (by omega)) (ih hxs.2 (by omega))

end Names

section Parameters

variable {n : Nat} {t : Tree Label} {ws : List Word}

theorem split_row (ts : List (Tree Label)) : (Tree.word "." ts).split none =
    ts.flatMap (Tree.splitBy (Label.agrees (.word "."))) := by
  rw [← Tree.splitByList_eq_flatMap]
  rfl

theorem split_of_root {u : Tree Label} (hu : u.root = .word ".") :
    Tree.splitBy (Label.agrees (.word ".")) u = u.split none := by
  rw [Tree.split, Option.getD_none, hu]

theorem BindersRead.flatMap_split {bs : List (Tree Label)} (h : BindersRead d bs ws) :
    bs.flatMap (Tree.splitBy (Label.agrees (.word "."))) = bs := by
  have hannotated : ∀ (t : Tree Label) (xs : List String),
      (annotated d t xs).flatMap (Tree.splitBy (Label.agrees (.word "."))) = annotated d t xs := by
    intro t xs
    rw [annotated, List.flatMap_map]
    exact List.map_eq_flatMap.symm
  induction h with
  | nil => rfl
  | name x _ ih =>
    rw [List.flatMap_cons, ih]
    rfl
  | last _ xs _ => exact hannotated _ xs
  | group _ xs _ _ ih => rw [List.flatMap_append, hannotated, ih]

theorem bindersRead_names (xs : List String) :
    BindersRead d (xs.map fun x => nameTree (d.shown x)) (xs.map nameWord) := by
  induction xs with
  | nil => exact .nil
  | cons x xs ih => exact .name x ih

theorem condense_row (hroot : t.root = .word "L") :
    Dialect.condenseWithin .typed (n + 1) t = do
      return Tree.word "." (← (t.split none).mapM (Dialect.condenseWithin .typed n)) := by
  obtain ⟨r, ts⟩ := t
  obtain rfl : r = .word "L" := hroot
  rfl

theorem condense_group (t m u : Tree Label) :
    Dialect.condenseWithin .typed (n + 1) (Tree.word "L:T" [t, m, u]) = do
      let names ← Dialect.condenseWithin .typed n t
      let sign ← Dialect.condenseWithin .typed n m
      let type ← Dialect.condenseWithin .typed n u
      return Tree.word "." ((names.split none).map fun a => .node sign.root [a, type]) := by
  have hall : Dialect.condenseWithin .typed (n + 1) (Tree.word "L:T" [t, m, u]) = do
      let parts ← [t, m, u].mapM (Dialect.condenseWithin .typed n)
      let names ← itemAt parts 0
      let type ← itemAt parts 2
      let sign ← itemAt parts 1
      return Tree.word "." ((names.split none).map fun a => .node sign.root [a, type]) := rfl
  rw [hall, List.mapM_cons, List.mapM_cons, List.mapM_cons]
  cases Dialect.condenseWithin .typed n t <;> cases Dialect.condenseWithin .typed n m <;>
    cases Dialect.condenseWithin .typed n u <;> rfl

theorem exists_group (hn : t.size ≤ n) (h : Yields (Dialect.rules .typed) "L:T" t ws)
    (hws : ∀ w ∈ ws, IsToken w) :
    ∃ xs u vs, ws = xs.map nameWord ++ markWord ":" :: vs ∧ TypeReads .typed u vs ∧
      Dialect.condenseWithin .typed n t =
        Dialect.reading .typed ws (Tree.word "." (annotated .typed u xs)) := by
  have houtcomes : Dialect.outcomes .typed "L:T" = [["L", ":", "T"]] := by decide
  obtain ⟨ts, rfl, hts⟩ := exists_only_outcome houtcomes h hws (by decide)
  obtain ⟨t, u, vs, us, rfl, rfl, ht, hu, hvs, hus⟩ := exists_sides (by decide) hts hws
  obtain ⟨xs, rfl, hsplit, hroot, hsize⟩ := exists_names ht hvs
  simp only [Tree.word, Tree.size, Tree.sizeList, markTree] at hn
  obtain ⟨n, rfl⟩ : ∃ m, n = m + 2 := ⟨n - 2, by omega⟩
  obtain ⟨u', hu', huu⟩ := exists_type (n := n + 1) (by simp) (by omega) hu hus
  refine ⟨xs, u', us, rfl, huu, ?_⟩
  have hnames : Dialect.condenseWithin .typed (n + 1) t = Dialect.reading .typed (xs.map nameWord)
      (Tree.word "." (xs.map fun x => nameTree (Dialect.shown .typed x))) := by
    rw [condense_row hroot, hsplit, mapM_names hvs (by omega)]
    exact reading_map _
  have hsplit' : (Tree.word "." (xs.map fun x => nameTree (Dialect.shown .typed x))).split none =
      xs.map fun x => nameTree (Dialect.shown .typed x) := by
    rw [split_row, (bindersRead_names xs).flatMap_split]
  rw [condense_group, hnames, condense_mark (by decide) (by omega), hu']
  change _ = Dialect.reading .typed (xs.map nameWord ++ ([markWord ":"] ++ us)) _
  refine reading_bind (reading_bind ?_)
  rw [hsplit']
  simp only [List.map_map]
  exact reading_map fun type => Tree.word "." (annotated .typed type xs)

theorem condense_parameter (ts : List (Tree Label)) :
    Dialect.condenseWithin .typed (n + 1) (Tree.word "A1" ts) = do
      let parts ← ts.mapM (Dialect.condenseWithin .typed n)
      let first ← itemAt parts 0
      if first.root.isWord "id" then
        return Tree.word "." parts
      else if first.root.isWord "(" then
        return Tree.word "." ((← itemAt parts 1).subtrees ++ parts.drop 3)
      else
        return Tree.word "A1" parts :=
  rfl

/-- A row of parameters is read from a derivation. There may be rows in it. -/
def ReadsRow (n : Nat) (t : Tree Label) (ws : List Word) : Prop :=
  ∃ u, Dialect.condenseWithin .typed n t = Dialect.reading .typed ws u ∧
    u.root = .word "." ∧ BindersRead .typed (u.split none) ws

def ReadsRows (n : Nat) : Prop :=
  ∀ {x t ws}, x ∈ ["A", "A0", "A1"] → t.size ≤ n → Yields (Dialect.rules .typed) x t ws →
    (∀ w ∈ ws, IsToken w) → ReadsRow n t ws

/-- All parameters of an abstraction: names with a type in common, or one parameter after
another. -/
theorem readsRow_all (ih : ReadsRows n) (hn : t.size ≤ n + 1)
    (h : Yields (Dialect.rules .typed) "A" t ws) (hws : ∀ w ∈ ws, IsToken w) :
    ReadsRow (n + 1) t ws := by
  obtain ⟨rhs, hrhs, ts, rfl, hts⟩ := exists_outcome h hws (by decide)
  have houtcomes : Dialect.outcomes .typed "A" = [["L:T"], ["A1"]] := by decide
  simp only [houtcomes, List.mem_cons, List.not_mem_nil, or_false] at hrhs
  obtain rfl | rfl := hrhs
  · obtain ⟨t, rfl, ht⟩ := yieldsAll_one_iff.mp hts
    simp only [Tree.word, Tree.size, Tree.sizeList] at hn
    obtain ⟨xs, u, vs, rfl, hu, hgroup⟩ := exists_group (n := n) (by omega) ht hws
    have hread : BindersRead .typed (annotated .typed u xs) _ := .last rfl xs hu
    refine ⟨_, (condense_typeLevel (by decide)).trans hgroup, rfl, ?_⟩
    rw [split_row, hread.flatMap_split]
    exact hread
  · obtain ⟨t, rfl, ht⟩ := yieldsAll_one_iff.mp hts
    simp only [Tree.word, Tree.size, Tree.sizeList] at hn
    rw [ReadsRow, condense_typeLevel (by decide)]
    exact ih (by simp) (by omega) ht hws

theorem readsRow_rest (ih : ReadsRows n) (hn : t.size ≤ n + 1)
    (h : Yields (Dialect.rules .typed) "A0" t ws) (hws : ∀ w ∈ ws, IsToken w) :
    ReadsRow (n + 1) t ws := by
  obtain ⟨rhs, hrhs, ts, rfl, hts⟩ := exists_outcome h hws (by decide)
  have houtcomes : Dialect.outcomes .typed "A0" = [["A1"], []] := by decide
  simp only [houtcomes, List.mem_cons, List.not_mem_nil, or_false] at hrhs
  obtain rfl | rfl := hrhs
  · obtain ⟨t, rfl, ht⟩ := yieldsAll_one_iff.mp hts
    simp only [Tree.word, Tree.size, Tree.sizeList] at hn
    obtain ⟨u, hu, hroot, hread⟩ := ih (by simp) (by omega) ht hws
    obtain ⟨-, -, ts, rfl, -⟩ := exists_outcome ht hws (by decide)
    refine ⟨Tree.word "." [u], ?_, rfl, ?_⟩
    · have hmore : Dialect.condenseWithin .typed (n + 1) (Tree.word "A0" [Tree.word "A1" ts]) = do
          return Tree.word "." (← [Tree.word "A1" ts].mapM (Dialect.condenseWithin .typed n)) :=
        rfl
      rw [hmore, mapM_reading_one hu]
      exact reading_map _
    · rw [split_row, List.flatMap_singleton, split_of_root hroot]
      exact hread
  · obtain ⟨rfl, rfl⟩ := yieldsAll_nil_iff.mp hts
    exact ⟨Tree.word "." [], rfl, rfl, .nil⟩

/-- A parameter, or a group of them in brackets, and the parameters behind it. -/
theorem readsRow_first (ih : ReadsRows n) (hn : t.size ≤ n + 1)
    (h : Yields (Dialect.rules .typed) "A1" t ws) (hws : ∀ w ∈ ws, IsToken w) :
    ReadsRow (n + 1) t ws := by
  obtain ⟨rhs, hrhs, ts, rfl, hts⟩ := exists_outcome h hws (by decide)
  have houtcomes : Dialect.outcomes .typed "A1" = [["(", "L:T", ")", "A0"], ["id", "A0"]] := by
    decide
  simp only [houtcomes, List.mem_cons, List.not_mem_nil, or_false] at hrhs
  obtain rfl | rfl := hrhs
  · obtain ⟨m, ts, vs, vs', rfl, rfl, hm, hts⟩ := yieldsAll_cons_iff.mp hts
    obtain ⟨t, m', u, us, us', us'', rfl, rfl, ht, hm', hu⟩ := yieldsAll_three_iff.mp hts
    simp only [List.forall_mem_append] at hws
    obtain ⟨hvs, hus, hus', hus''⟩ := hws
    obtain ⟨rfl, rfl⟩ := eq_mark (by decide) hm hvs
    obtain ⟨rfl, rfl⟩ := eq_mark (by decide) hm' hus'
    simp only [Tree.word, Tree.size, Tree.sizeList, markTree] at hn
    obtain ⟨xs, ty, ws, rfl, hty, hgroup⟩ := exists_group (n := n) (by omega) ht hus
    obtain ⟨u', hu', hroot, hread⟩ := ih (by simp) (by omega) hu hus''
    refine ⟨Tree.word "." (annotated .typed ty xs ++ [u']), ?_, rfl, ?_⟩
    · rw [condense_parameter, mapM_reading (condense_mark (by decide) (by omega))
        (mapM_reading hgroup (mapM_reading (condense_mark (by decide) (by omega))
          (mapM_reading_one hu')))]
      exact reading_bind_ok rfl
    · have hlast : BindersRead .typed (annotated .typed ty xs) _ := .last rfl xs hty
      rw [split_row, List.flatMap_append, List.flatMap_singleton, split_of_root hroot,
        hlast.flatMap_split]
      simpa using BindersRead.group rfl xs hty hread
  · obtain ⟨t, u, vs, us, rfl, rfl, ht, hu⟩ := yieldsAll_two_iff.mp hts
    obtain ⟨hvs, hus⟩ := List.forall_mem_append.mp hws
    obtain ⟨x, hx, rfl, rfl⟩ := exists_name ht hvs
    simp only [Tree.word, Tree.size, Tree.sizeList, nameTree] at hn
    obtain ⟨u', hu', hroot, hread⟩ := ih (by simp) (by omega) hu hus
    refine ⟨Tree.word "." [nameTree (Dialect.shown .typed x), u'], ?_, rfl, ?_⟩
    · rw [condense_parameter, mapM_reading (condense_name hx (by omega)) (mapM_reading_one hu')]
      exact reading_bind_ok rfl
    · rw [split_row, List.flatMap_cons, List.flatMap_singleton, split_of_root hroot]
      exact .name x hread

/-- What comes from the symbols of parameters is read as a row of them. -/
theorem readsRows (n : Nat) : ReadsRows n := by
  induction n with
  | zero =>
    intro x t ws _ hn
    rw [Tree.size_eq] at hn
    omega
  | succ n ih =>
    intro x t ws hx hn h hws
    simp only [List.mem_cons, List.not_mem_nil, or_false] at hx
    obtain rfl | rfl | rfl := hx
    · exact readsRow_all ih hn h hws
    · exact readsRow_rest ih hn h hws
    · exact readsRow_first ih hn h hws

end Parameters

section Settled

/-! A row of parameters is condensed twice. The second time changes nothing. -/

variable {n : Nat} {t : Tree Label} {ws : List Word}

theorem condense_shown {x : String} (hx : IsToken (nameWord x))
    (hread : d.isUnread (nameWord x) = false) (hn : 2 ≤ n) :
    d.condenseWithin n (nameTree (d.shown x)) = .ok (nameTree (d.shown x)) := by
  by_cases hdotted : x ∈ d.dotted
  · obtain ⟨n, rfl⟩ := Nat.exists_eq_add_of_le' hn
    rw [Dialect.shown, if_pos hdotted]
    cases d <;> rfl
  · have hshown : d.shown x = x := if_neg hdotted
    have hname : d.condenseWithin n (nameTree x) = d.reading [nameWord x] (nameTree (d.shown x)) :=
      condense_name hx.isWord hn
    rw [hshown] at hname ⊢
    rw [hname, Dialect.reading, List.any_cons, hread]
    rfl

theorem TypeReads.size_le (h : TypeReads d t ws) : t.size ≤ 2 * ws.length := by
  induction h with
  | name x => simp [nameTree, Tree.word, Tree.size, Tree.sizeList]
  | brackets _ ih => simp only [List.length_cons, List.length_append]; omega
  | arrow _ _ iht ihu =>
    simp only [Tree.word, Tree.size, Tree.sizeList, List.length_cons, List.length_append]
    omega

theorem TypeReads.settled (h : TypeReads d t ws)
    (hws : ∀ w ∈ ws, IsToken w ∧ d.isUnread w = false) (hn : t.size ≤ n) :
    d.condenseWithin n t = .ok t := by
  induction h generalizing n with
  | name x =>
    obtain ⟨hx, hread⟩ := hws _ (List.mem_singleton_self _)
    exact condense_shown hx hread hn
  | brackets _ ih =>
    obtain ⟨-, hws⟩ := List.forall_mem_cons.mp hws
    exact ih (List.forall_mem_append.mp hws).1 hn
  | @arrow t u _ _ _ _ iht ihu =>
    obtain ⟨hws, hvs⟩ := List.forall_mem_append.mp hws
    simp only [Tree.word, Tree.size, Tree.sizeList] at hn
    obtain ⟨n, rfl⟩ : ∃ m, n = m + 1 := ⟨n - 1, by omega⟩
    rw [condense_kept (by decide), List.mapM_cons, List.mapM_cons, iht hws (by omega),
      ihu (List.forall_mem_cons.mp hvs).2 (by omega)]
    rfl

theorem BindersRead.settled {bs : List (Tree Label)} (h : BindersRead d bs ws)
    (hws : ∀ w ∈ ws, IsToken w ∧ d.isUnread w = false) (hn : 2 * ws.length ≤ n) :
    bs.mapM (d.condenseWithin n) = .ok bs := by
  have hannotated : ∀ {t ws}, TypeReads d t ws → (∀ w ∈ ws, IsToken w ∧ d.isUnread w = false) →
      ∀ xs : List String, (∀ w ∈ xs.map nameWord, IsToken w ∧ d.isUnread w = false) →
      2 * (xs.length + ws.length + 1) ≤ n →
      ∀ b ∈ annotated d t xs, d.condenseWithin n b = .ok b := by
    intro t ws ht hws xs hxs hn b hb
    obtain ⟨x, hx, rfl⟩ := List.mem_map.mp hb
    obtain ⟨htoken, hread⟩ := hxs _ (List.mem_map_of_mem hx)
    have hpos := List.length_pos_of_mem hx
    have hsize := ht.size_le
    obtain ⟨n, rfl⟩ : ∃ m, n = m + 1 := ⟨n - 1, by omega⟩
    rw [condense_kept (by decide), List.mapM_cons, List.mapM_cons,
      condense_shown htoken hread (by omega), ht.settled hws (by omega)]
    rfl
  have hall : ∀ b ∈ bs, d.condenseWithin n b = .ok b := by
    induction h with
    | nil => simp
    | name x _ ih =>
      obtain ⟨⟨hx, hread⟩, hws⟩ := List.forall_mem_cons.mp hws
      rw [List.length_cons] at hn
      exact List.forall_mem_cons.mpr ⟨condense_shown hx hread (by omega), ih hws (by omega)⟩
    | last _ xs ht =>
      obtain ⟨hxs, hws⟩ := List.forall_mem_append.mp hws
      simp only [List.length_append, List.length_map, List.length_cons] at hn
      exact hannotated ht (List.forall_mem_cons.mp hws).2 xs hxs (by omega)
    | group _ xs ht _ ih =>
      simp only [List.forall_mem_cons, List.forall_mem_append] at hws
      obtain ⟨-, hxs, -, hws, -, hvs⟩ := hws
      simp only [List.length_append, List.length_map, List.length_cons] at hn
      exact List.forall_mem_append.mpr ⟨hannotated ht hws xs hxs (by omega), ih hvs (by omega)⟩
  clear h
  induction bs with
  | nil => rfl
  | cons b bs ih =>
    obtain ⟨hb, hbs⟩ := List.forall_mem_cons.mp hall
    rw [List.mapM_cons, hb, ih hbs]
    rfl

end Settled

end WhileSketch.Lambda
