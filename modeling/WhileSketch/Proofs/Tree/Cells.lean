import Mathlib
import WhileSketch.Tree.Edit

/-! Trees read from the cells of a store, and what changes of the cells leave a tree as it was. -/

namespace WhileSketch

namespace Store

variable {s s' s₀ : Store} {a b l n p : Nat} {r : Label} {as bs : List Nat} {t u : Tree Label}
  {ts us : List (Tree Label)} {F G : List Nat}

section Runs

variable {α β : Type} {x : StoreM α} {v : α}

theorem bind_run (h : x s = .ok (v, s')) (f : α → StoreM β) : (x >>= f) s = f v s' := by
  change Except.bind (x s) _ = _
  rw [h]
  rfl

theorem map_run (h : x s = .ok (v, s')) (f : α → β) : (f <$> x) s = .ok (f v, s') := by
  change Except.bind (x s) _ = _
  rw [h]
  rfl

theorem node_run (h : s.cells[a]? = some (.node r l)) : node a s = .ok ((r, l), s) := by
  simp only [node, h]

theorem members_run (h : s.cells[l]? = some (.list as)) : members l s = .ok (as, s) := by
  simp only [members, h]

theorem root_run (h : s.cells[a]? = some (.node r l)) : root a s = .ok (r, s) :=
  map_run (node_run h) _

theorem subtrees_run (ha : s.cells[a]? = some (.node r l)) (hl : s.cells[l]? = some (.list as)) :
    subtrees a s = .ok (as, s) := by
  rw [subtrees, bind_run (node_run ha)]
  exact members_run hl

theorem get_run : (get : StoreM Store) s = .ok (s, s) :=
  rfl

end Runs

/-! ### Readings -/

mutual

/-- The tree below an address, with the cells it is read from, those of a shared node as often as
it is shared. -/
inductive Reads (s : Store) : Nat → Tree Label → List Nat → Prop where
  | node {a l : Nat} {r : Label} {as : List Nat} {ts : List (Tree Label)} {F : List Nat}
      (ha : s.cells[a]? = some (.node r l)) (hl : s.cells[l]? = some (.list as))
      (h : ReadsAll s as ts F) : Reads s a (.node r ts) (a :: l :: F)

inductive ReadsAll (s : Store) : List Nat → List (Tree Label) → List Nat → Prop where
  | nil : ReadsAll s [] [] []
  | cons {a : Nat} {t : Tree Label} {as : List Nat} {ts : List (Tree Label)} {F G : List Nat}
      (h : Reads s a t F) (hs : ReadsAll s as ts G) : ReadsAll s (a :: as) (t :: ts) (F ++ G)

end

/-- The second store has the cells of the first, all but some of them unchanged. -/
structure Frame (s : Store) (F : List Nat) (s' : Store) : Prop where
  size_le : s.cells.size ≤ s'.cells.size
  get_eq : ∀ p, p < s.cells.size → p ∉ F → s'.cells[p]? = s.cells[p]?

mutual

theorem Reads.lt_size {a : Nat} {t : Tree Label} {F : List Nat} :
    Reads s a t F → ∀ p ∈ F, p < s.cells.size
  | .node ha hl h => by
    intro p hp
    simp only [List.mem_cons] at hp
    obtain rfl | rfl | hp := hp
    · exact (Array.getElem?_eq_some_iff.mp ha).1
    · exact (Array.getElem?_eq_some_iff.mp hl).1
    · exact h.lt_size p hp

theorem ReadsAll.lt_size {as : List Nat} {ts : List (Tree Label)} {F : List Nat} :
    ReadsAll s as ts F → ∀ p ∈ F, p < s.cells.size
  | .nil => by simp
  | .cons h hs => by
    intro p hp
    exact (List.mem_append.mp hp).elim (h.lt_size p) (hs.lt_size p)

end

mutual

theorem Reads.congr {a : Nat} {t : Tree Label} {F : List Nat} :
    Reads s a t F → (∀ p ∈ F, s'.cells[p]? = s.cells[p]?) → Reads s' a t F
  | .node ha hl h, hs => by
    simp only [List.forall_mem_cons] at hs
    exact .node (hs.1.trans ha) (hs.2.1.trans hl) (h.congr hs.2.2)

theorem ReadsAll.congr {as : List Nat} {ts : List (Tree Label)} {F : List Nat} :
    ReadsAll s as ts F → (∀ p ∈ F, s'.cells[p]? = s.cells[p]?) → ReadsAll s' as ts F
  | .nil, _ => .nil
  | .cons h hs, he => by
    simp only [List.forall_mem_append] at he
    exact .cons (h.congr he.1) (hs.congr he.2)

end

mutual

theorem Reads.unique {a : Nat} {t u : Tree Label} {F G : List Nat} :
    Reads s a t F → Reads s a u G → t = u
  | .node ha hl h, .node ha' hl' h' => by
    rw [ha] at ha'
    cases ha'
    rw [hl] at hl'
    cases hl'
    rw [h.unique h']

theorem ReadsAll.unique {as : List Nat} {ts us : List (Tree Label)} {F G : List Nat} :
    ReadsAll s as ts F → ReadsAll s as us G → ts = us
  | .nil, .nil => rfl
  | .cons h hs, .cons h' hs' => by rw [h.unique h', hs.unique hs']

end

mutual

theorem Reads.exists_of_mem {a : Nat} {t : Tree Label} {F : List Nat}
    (hp : s.cells[p]? = some (.node r l)) :
    Reads s a t F → p ∈ F → ∃ u G, Reads s p u G ∧ u.size ≤ t.size
  | .node ha hl h, hmem => by
    simp only [List.mem_cons] at hmem
    obtain rfl | rfl | hmem := hmem
    · exact ⟨_, _, .node ha hl h, le_rfl⟩
    · simp [hp] at hl
    · obtain ⟨u, G, hu, hle⟩ := h.exists_of_mem hp hmem
      exact ⟨u, G, hu, by rw [Tree.size]; omega⟩

theorem ReadsAll.exists_of_mem {as : List Nat} {ts : List (Tree Label)} {F : List Nat}
    (hp : s.cells[p]? = some (.node r l)) :
    ReadsAll s as ts F → p ∈ F → ∃ u G, Reads s p u G ∧ u.size ≤ Tree.sizeList ts
  | .cons h hs, hmem => by
    obtain hmem | hmem := List.mem_append.mp hmem
    · obtain ⟨u, G, hu, hle⟩ := h.exists_of_mem hp hmem
      exact ⟨u, G, hu, by rw [Tree.sizeList]; omega⟩
    · obtain ⟨u, G, hu, hle⟩ := hs.exists_of_mem hp hmem
      exact ⟨u, G, hu, by rw [Tree.sizeList]; omega⟩

end

/-- No node is below itself: the tree below it would be smaller than it is. -/
theorem ReadsAll.not_mem (ha : s.cells[a]? = some (.node r l)) (hl : s.cells[l]? = some (.list as))
    (h : ReadsAll s as ts F) : a ∉ F := by
  intro hmem
  obtain ⟨u, G, hu, hle⟩ := h.exists_of_mem ha hmem
  rw [← (Reads.node ha hl h).unique hu, Tree.size] at hle
  omega

theorem ReadsAll.card_lt (ha : s.cells[a]? = some (.node r l))
    (hl : s.cells[l]? = some (.list as)) (h : ReadsAll s as ts F) :
    F.toFinset.card < (a :: l :: F).toFinset.card := by
  refine Finset.card_lt_card (Finset.ssubset_iff_subset_ne.mpr ⟨?_, ?_⟩)
  · intro p hp
    simp_all
  · intro he
    refine h.not_mem ha hl (List.mem_toFinset.mp ?_)
    rw [he]
    simp

theorem card_toFinset_le (h : ∀ p ∈ F, p < s.cells.size) : F.toFinset.card ≤ s.cells.size := by
  calc F.toFinset.card ≤ (Finset.range s.cells.size).card :=
        Finset.card_le_card fun p hp => by simpa using h p (by simpa using hp)
    _ = s.cells.size := Finset.card_range _

theorem card_toFinset_append_left (F G : List Nat) :
    F.toFinset.card ≤ (F ++ G).toFinset.card :=
  Finset.card_le_card (by simp [List.toFinset_append])

theorem card_toFinset_append_right (F G : List Nat) :
    G.toFinset.card ≤ (F ++ G).toFinset.card :=
  Finset.card_le_card (by simp [List.toFinset_append])

mutual

theorem Reads.valueWithin_run {a : Nat} {t : Tree Label} {F : List Nat} :
    Reads s a t F → ∀ {n}, F.toFinset.card ≤ n → valueWithin n a s = .ok (t, s)
  | .node ha hl h, n, hn => by
    have hlt := h.card_lt ha hl
    obtain ⟨n, rfl⟩ : ∃ m, n = m + 1 := ⟨n - 1, by omega⟩
    rw [valueWithin, bind_run (node_run ha)]
    simp only [bind_run (members_run hl), bind_run (h.valueWithin_run (n := n) (by omega))]
    rfl

theorem ReadsAll.valueWithin_run {as : List Nat} {ts : List (Tree Label)} {F : List Nat} :
    ReadsAll s as ts F → ∀ {n}, F.toFinset.card ≤ n → as.mapM (valueWithin n) s = .ok (ts, s)
  | .nil, n, _ => rfl
  | .cons (F := F) (G := G) h hs, n, hn => by
    have hF := card_toFinset_append_left F G
    have hG := card_toFinset_append_right F G
    rw [List.mapM_cons, bind_run (h.valueWithin_run (by omega)),
      bind_run (hs.valueWithin_run (by omega))]
    rfl

end

/-- The program reads the tree that is there. -/
theorem Reads.value_run (h : Reads s a t F) : value a s = .ok (t, s) := by
  rw [value, bind_run get_run]
  exact h.valueWithin_run (by have := card_toFinset_le h.lt_size; omega)

theorem ReadsAll.append {as bs : List Nat} {ts us : List (Tree Label)} {F G : List Nat} :
    ReadsAll s as ts F → ReadsAll s bs us G → ReadsAll s (as ++ bs) (ts ++ us) (F ++ G)
  | .nil, h' => h'
  | .cons h hs, h' => by
    rw [List.append_assoc]
    exact .cons h (hs.append h')

/-! ### Changes of the store -/

namespace Frame

theorem refl (s : Store) (F : List Nat) : Frame s F s :=
  ⟨le_rfl, fun _ _ _ => rfl⟩

theorem trans {s₁ s₂ s₃ : Store} {F G H : List Nat} (h : Frame s₁ F s₂) (h' : Frame s₂ G s₃)
    (hF : ∀ p ∈ F, p ∈ H) (hG : ∀ p ∈ G, p ∈ H ∨ s₁.cells.size ≤ p) : Frame s₁ H s₃ where
  size_le := h.size_le.trans h'.size_le
  get_eq := by
    intro p hp hH
    have hpG : p ∉ G := fun hmem => (hG p hmem).elim hH (by omega)
    rw [h'.get_eq p (lt_of_lt_of_le hp h.size_le) hpG, h.get_eq p hp (fun hmem => hH (hF p hmem))]

theorem trans_nil {s₁ s₂ s₃ : Store} {F : List Nat} (h : Frame s₁ F s₂) (h' : Frame s₂ [] s₃) :
    Frame s₁ F s₃ :=
  h.trans h' (fun _ hp => hp) (by simp)

theorem mono (h : Frame s F s') (hF : ∀ p ∈ F, p ∈ G) : Frame s G s' :=
  h.trans (refl s' []) hF (by simp)

theorem get_of_not_mem {c : Cell} (h : Frame s F s') (hp : s.cells[p]? = some c) (hF : p ∉ F) :
    s'.cells[p]? = some c := by
  rw [h.get_eq p (Array.getElem?_eq_some_iff.mp hp).1 hF, hp]

theorem reads (h : Frame s F s') (ht : Reads s a t G) (hG : ∀ p ∈ G, p ∉ F) : Reads s' a t G :=
  ht.congr fun p hp => h.get_eq p (ht.lt_size p hp) (hG p hp)

theorem readsAll (h : Frame s F s') (ht : ReadsAll s as ts G) (hG : ∀ p ∈ G, p ∉ F) :
    ReadsAll s' as ts G :=
  ht.congr fun p hp => h.get_eq p (ht.lt_size p hp) (hG p hp)

end Frame

theorem exists_write_run {c : Cell} (ha : s.cells[a]? = some c) (c' : Cell) :
    ∃ s', write a c' s = .ok ((), s') ∧ s'.cells[a]? = some c' ∧ Frame s [a] s' := by
  have hlt : a < s.cells.size := (Array.getElem?_eq_some_iff.mp ha).1
  refine ⟨⟨s.cells.setIfInBounds a c'⟩, rfl, by simp [hlt], by simp, ?_⟩
  intro p _ hp
  simp only [List.mem_singleton] at hp
  simp [Ne.symm hp]

/-- A node can be given a new label: it is not below itself. -/
theorem Reads.exists_write_run (h : Reads s a (.node r ts) F) (r' : Label) :
    ∃ l s', Store.node a s = .ok ((r, l), s) ∧ write a (.node r' l) s = .ok ((), s') ∧
      Frame s [a] s' ∧ Reads s' a (.node r' ts) F := by
  obtain ⟨ha, hl, h⟩ := h
  obtain ⟨s', hrun, ha', hf⟩ := Store.exists_write_run ha (.node r' _)
  refine ⟨_, s', node_run ha, hrun, hf, .node ha' (hf.get_of_not_mem hl ?_) (hf.readsAll h ?_)⟩
  · rw [List.mem_singleton]
    rintro rfl
    simp [ha] at hl
  · intro p hp hmem
    rw [List.mem_singleton] at hmem
    subst hmem
    exact h.not_mem ha hl hp

theorem exists_allocate_run (s : Store) (c : Cell) :
    ∃ s', allocate c s = .ok (s.cells.size, s') ∧ s'.cells[s.cells.size]? = some c ∧
      Frame s [] s' ∧ s.cells.size < s'.cells.size := by
  refine ⟨⟨s.cells.push c⟩, rfl, by simp, ⟨by simp, ?_⟩, by simp⟩
  intro p hp _
  simp [Array.getElem?_push, Nat.ne_of_lt hp]

theorem exists_make_run (h : ReadsAll s as ts F) (r : Label) :
    ∃ a l s', make r as s = .ok (a, s') ∧ Frame s [] s' ∧ Reads s' a (.node r ts) (a :: l :: F) ∧
      l < a ∧ s.cells.size ≤ l := by
  obtain ⟨s₁, hlist, hl, hf₁, hlt⟩ := exists_allocate_run s (.list as)
  obtain ⟨s₂, hnode, ha, hf₂, _⟩ := exists_allocate_run s₁ (.node r s.cells.size)
  have hf := hf₁.trans_nil hf₂
  refine ⟨s₁.cells.size, s.cells.size, s₂, ?_, hf, ?_, hlt, le_rfl⟩
  · rw [make, bind_run hlist, hnode]
  · exact .node ha (hf₂.get_of_not_mem hl (by simp)) (hf.readsAll h (by simp))

mutual

/-- Planting a tree puts it into new cells, and no node of it into two places. -/
theorem exists_plant_run : ∀ (t : Tree Label) (s : Store), ∃ a s' F,
    Store.forest.plant t s = .ok (a, s') ∧ Frame s [] s' ∧ Reads s' a t F ∧ F.Nodup ∧
      ∀ p ∈ F, s.cells.size ≤ p
  | .node r ts, s => by
    obtain ⟨as, s₁, F, hrun, hf₁, h, hF, hle⟩ := exists_plantAll_run ts s
    obtain ⟨a, l, s₂, hmake, hf₂, ha, hla, hl⟩ := exists_make_run h r
    have hlt := h.lt_size
    have hsize := hf₁.size_le
    refine ⟨a, s₂, a :: l :: F, ?_, hf₁.trans_nil hf₂, ha, ?_, ?_⟩
    · rw [Forest.plant, bind_run hrun]
      exact hmake
    · simp only [List.nodup_cons, List.mem_cons, not_or]
      refine ⟨⟨by omega, fun hp => ?_⟩, fun hp => ?_, hF⟩
      · have := hlt a hp
        omega
      · have := hlt l hp
        omega
    · simp only [List.forall_mem_cons]
      exact ⟨by omega, by omega, hle⟩

theorem exists_plantAll_run : ∀ (ts : List (Tree Label)) (s : Store), ∃ as s' F,
    Store.forest.plantAll ts s = .ok (as, s') ∧ Frame s [] s' ∧ ReadsAll s' as ts F ∧ F.Nodup ∧
      ∀ p ∈ F, s.cells.size ≤ p
  | [], s => ⟨[], s, [], rfl, .refl s [], .nil, by simp, by simp⟩
  | t :: ts, s => by
    obtain ⟨a, s₁, F, hrun, hf₁, h, hF, hle⟩ := exists_plant_run t s
    obtain ⟨as, s₂, G, hruns, hf₂, hs, hG, hles⟩ := exists_plantAll_run ts s₁
    refine ⟨a :: as, s₂, F ++ G, ?_, hf₁.trans_nil hf₂, .cons (hf₂.reads h (by simp)) hs, ?_, ?_⟩
    · rw [Forest.plantAll, bind_run hrun, bind_run hruns]
      rfl
    · refine List.nodup_append.mpr ⟨hF, hG, ?_⟩
      rintro p hp _ hq rfl
      have := h.lt_size p hp
      have := hles p hq
      omega
    · intro p hp
      obtain hp | hp := List.mem_append.mp hp
      · exact hle p hp
      · exact hf₁.size_le.trans (hles p hp)

end

/-! ### List marks -/

theorem spliceWithin_cons (n a : Nat) (as : List Nat) : spliceWithin (n + 1) (a :: as) = do
    let r ← root a
    let part ← if r.isSplice then subtrees a >>= spliceWithin n else pure [a]
    return part ++ (← spliceWithin (n + 1) as) := by
  simp only [spliceWithin, List.mapM_cons, bind_assoc, pure_bind]
  refine bind_congr fun r => ?_
  by_cases hr : r.isSplice <;> simp [hr]

theorem ReadsAll.exists_spliceWithin_run {as : List Nat} {ts : List (Tree Label)}
    {F : List Nat} (h : ReadsAll s as ts F) {n : Nat} (hn : F.toFinset.card ≤ n) : ∃ bs G,
      spliceWithin (n + 1) as s = .ok (bs, s) ∧ ReadsAll s bs (Tree.spliceAll ts) G ∧
      G.Sublist F := by
  induction hsize : Tree.sizeList ts using Nat.strong_induction_on generalizing as ts F n with
  | _ size ih =>
    cases h with
    | nil => exact ⟨[], [], rfl, by rw [Tree.spliceAll]; exact .nil, .refl _⟩
    | @cons a t as ts F₀ G ht hs =>
      cases ht with
      | @node a l r bs us F ha hl h =>
        simp only [Tree.sizeList, Tree.size] at hsize
        have hlt := h.card_lt ha hl
        have hleft := card_toFinset_append_left (a :: l :: F) G
        have hright := card_toFinset_append_right (a :: l :: F) G
        obtain ⟨n, rfl⟩ : ∃ m, n = m + 1 := ⟨n - 1, by omega⟩
        obtain ⟨bs, G', hrun, hbs, hG'⟩ := ih _ (by omega) hs (n := n + 1) (by omega) rfl
        rw [spliceWithin_cons]
        by_cases hr : r.isSplice
        · obtain ⟨cs, F', hrun', hcs, hF'⟩ := ih _ (by omega) h (n := n) (by omega) rfl
          refine ⟨cs ++ bs, F' ++ G', ?_, ?_, ?_⟩
          · have hpart : (subtrees a >>= spliceWithin (n + 1)) s = .ok (cs, s) := by
              rw [bind_run (subtrees_run ha hl), hrun']
            simp only [bind_run (root_run ha), if_pos hr, bind_run hpart, bind_run hrun]
            rfl
          · rw [Tree.spliceAll_cons_of_isSplice hr, Tree.spliceAll_append]
            exact hcs.append hbs
          · exact ((hF'.cons l).cons a).append hG'
        · refine ⟨a :: bs, (a :: l :: F) ++ G', ?_, ?_, (List.Sublist.refl _).append hG'⟩
          · simp only [bind_run (root_run ha), if_neg hr, pure_bind, bind_run hrun]
            rfl
          · rw [Tree.spliceAll_cons_of_not_isSplice hr]
            exact .cons (.node ha hl h) hbs

theorem ReadsAll.exists_splice_run (h : ReadsAll s as ts F) : ∃ bs G,
    splice as s = .ok (bs, s) ∧ ReadsAll s bs (Tree.spliceAll ts) G ∧ G.Sublist F := by
  rw [splice, bind_run get_run]
  exact h.exists_spliceWithin_run (card_toFinset_le h.lt_size)

end Store

end WhileSketch
