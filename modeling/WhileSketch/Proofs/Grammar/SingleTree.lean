import Mathlib
import WhileSketch.Proofs.Grammar.Recognition

/-! A sentence that is recognised has one tree, and it is a derivation. The last chart holds the
completed goal once, as it holds no item twice. -/

namespace WhileSketch

namespace Recognition

open Chart

variable {g : Grammar} {charts : Array Chart} {words : List Word} {place : Nat}

theorem nodup_read (ws : List Word) (h : ∀ i, (charts.getD i .empty).items.Nodup) (i : Nat) :
    ((read g charts ws).getD i .empty).items.Nodup := by
  induction ws generalizing charts with
  | nil => exact h i
  | cons w ws ih =>
    rw [read]
    exact ih (forall_getD_push (P := fun _ c => c.items.Nodup) h (nodup_saturate (nodup_scan w _)))

theorem nodup_charts (g : Grammar) (s : Sentence) (i : Nat) :
    ((Recognition.charts g s).getD i .empty).items.Nodup := by
  have hnone : ∀ i, ((#[] : Array Chart).getD i .empty).items.Nodup := fun _ => nodup_empty
  have hgoal : (Chart.empty.add (.fresh g.goal)).items.Nodup := nodup_add nodup_empty _
  exact nodup_read s.words (forall_getD_push (P := fun _ c => c.items.Nodup) hnone
    (nodup_saturate hgoal)) i

theorem item_eq_goal {r : Row} (h : r.Reads (g.goal.rule :: g.rules) words place)
    (hlhs : ∀ r ∈ g.rules, r.lhs ≠ Grammar.topSymbol)
    (htags : ∀ w ∈ words, Grammar.topSymbol ∉ w.tags) (hstart : r.item.start = 0)
    (htop : r.item.rule.lhs = Grammar.topSymbol) (hcomplete : r.item.isComplete = true) :
    r.item = g.goal.advance := by
  obtain ⟨hrule, -⟩ | ⟨w, hw, -, htag, -⟩ := h.reads
  · obtain hrule | hrule := List.mem_cons.mp hrule
    · have hdot : r.item.rule.length = r.item.dot := by simpa [Item.isComplete] using hcomplete
      rw [hrule] at hdot
      cases hitem : r.item with
      | mk rule dot start =>
        rw [hitem] at hrule hdot hstart
        subst hrule hdot hstart
        rfl
    · exact absurd htop (hlhs _ hrule)
  · rw [htop] at htag
    exact absurd htag (htags w (List.mem_of_getElem? hw))

theorem length_completeRows_le {s : Sentence} (hlhs : ∀ r ∈ g.rules, r.lhs ≠ Grammar.topSymbol)
    (htags : ∀ w ∈ s.words, Grammar.topSymbol ∉ w.tags) :
    (completeRows (Recognition.charts g s)).length ≤ 1 := by
  have hnodup : ((completeRows (Recognition.charts g s)).map Row.item).Nodup := by
    rw [completeRows, back_charts]
    exact (nodup_charts g s s.length).sublist (List.filter_sublist.map _)
  have hsub : (completeRows (Recognition.charts g s)).map Row.item ⊆ [g.goal.advance] := by
    intro i hi
    obtain ⟨r, hr, rfl⟩ := List.mem_map.mp hi
    obtain ⟨hr, hcond⟩ := List.mem_filter.mp hr
    simp only [Bool.and_eq_true, beq_iff_eq] at hcond
    obtain ⟨⟨hstart, htop⟩, hcomplete⟩ := hcond
    rw [back_charts] at hr
    have hreads := (charts_sound g s).1 s.length r (Array.mem_def.mpr hr)
    exact List.mem_singleton.mpr (item_eq_goal hreads hlhs htags hstart htop hcomplete)
  simpa using hnodup.length_le_of_subset hsub

end Recognition

/-- A node of a derivation is a category over a word, or the symbol of a rule over what comes from
that rule. -/
theorem Yields.node_elim {rules : List Rule} {x y : String} {ts : List (Tree Label)}
    {ws : List Word} (h : Yields rules x (Tree.word y ts) ws) :
    (∃ w : Word, ts = [Tree.word w.text []]) ∨
      ∃ r ∈ rules, r.lhs = y ∧ YieldsAll rules r.rhs ts ws := by
  generalize hu : Tree.word y ts = u at h
  cases h with
  | @word _ w _ =>
    obtain ⟨-, rfl⟩ := Tree.node.inj hu
    exact .inl ⟨w, rfl⟩
  | @rule r _ _ hr hts =>
    obtain ⟨hlhs, rfl⟩ := Tree.node.inj hu
    exact .inr ⟨r, hr, (Label.word.inj hlhs).symm, hts⟩

namespace Grammar

variable {g : Grammar}

theorem start_ne_topSymbol (hlhs : ∀ r ∈ g.rules, r.lhs ≠ topSymbol) : g.start ≠ topSymbol := by
  rw [start, start?]
  cases hrules : g.rules with
  | nil => decide
  | cons r rs =>
    rw [List.head?_cons, Option.map_some, Option.filter_some]
    split_ifs
    · exact hlhs r (by simp [hrules])
    · decide

/-- A sentence that is recognised has one tree, which is a derivation of it from the start symbol
below the symbol above that. Where the grammar reads the symbol above the start symbol, a whole
sentence may stand for it; a grammar that leaves it alone has no other rules in the derivation than
its own. -/
theorem trees_eq_singleton {s : Sentence} (hlhs : ∀ r ∈ g.rules, r.lhs ≠ topSymbol)
    (htags : ∀ w ∈ s.words, topSymbol ∉ w.tags)
    (hvalid : Recognition.completeRows (Recognition.charts g s) ≠ []) :
    ∃ t, g.trees s = [Tree.word topSymbol [t]] ∧
      Yields (g.goal.rule :: g.rules) g.start t s.words ∧
      ((∀ r ∈ g.rules, topSymbol ∉ r.rhs) → Yields g.rules g.start t s.words) := by
  obtain ⟨r, hr⟩ : ∃ r, Recognition.completeRows (Recognition.charts g s) = [r] := by
    have hle := Recognition.length_completeRows_le hlhs htags
    have hpos := List.length_pos_iff.mpr hvalid
    exact List.length_eq_one_iff.mp (by omega)
  have htrees : g.trees s = [r.tree] := by rw [trees, hr, List.map_singleton]
  have hsound := trees_sound (htrees ▸ List.mem_singleton_self r.tree)
  obtain ⟨t, htree, ht⟩ := exists_below hsound hlhs htags
  rw [htree] at htrees
  exact ⟨t, htrees, ht, fun hrhs => ht.of_cons hrhs (start_ne_topSymbol hlhs)⟩

/-- The symbol S may stand for two of itself, for itself through A, and for nothing. -/
theorem trees_doubling :
    ∃ t, doubling.trees ⟨[⟨"x", ["a", "b"]⟩, ⟨"y", ["a"]⟩]⟩ = [Tree.word topSymbol [t]] ∧
      Yields doubling.rules "S" t [⟨"x", ["a", "b"]⟩, ⟨"y", ["a"]⟩] := by
  obtain ⟨t, htrees, -, ht⟩ := trees_eq_singleton (g := doubling)
    (s := ⟨[⟨"x", ["a", "b"]⟩, ⟨"y", ["a"]⟩]⟩) (by decide) (by decide) (by decide +kernel)
  exact ⟨t, htrees, ht (by decide)⟩

/-- The symbol above the start symbol has no rule and is no category, but the tree shows a whole
sentence below it where it is read. -/
theorem trees_rereading :
    (∀ r ∈ rereading.rules, r.lhs ≠ topSymbol) ∧
      (∀ w ∈ [(⟨"a", ["a"]⟩ : Word), ⟨"b", ["b"]⟩], topSymbol ∉ w.tags) ∧
      ∃ t, rereading.trees ⟨[⟨"a", ["a"]⟩, ⟨"b", ["b"]⟩]⟩ = [Tree.word topSymbol [t]] ∧
        ¬Yields rereading.rules rereading.start t [⟨"a", ["a"]⟩, ⟨"b", ["b"]⟩] := by
  have hlhs : ∀ r ∈ rereading.rules, r.lhs ≠ topSymbol := by decide
  refine ⟨hlhs, by decide, Tree.word "S" [Tree.word topSymbol [Tree.word "S"
    [Tree.word "a" [Tree.word "a" []]]], Tree.word "b" [Tree.word "b" []]], by cbv, fun h => ?_⟩
  obtain ⟨w, hw⟩ | ⟨r, -, -, hts⟩ := h.node_elim
  · simp at hw
  generalize r.rhs = xs, [(⟨"a", ["a"]⟩ : Word), ⟨"b", ["b"]⟩] = ws at hts
  cases hts with
  | cons ht _ =>
    obtain ⟨w, hw⟩ | ⟨r, hr, htop, -⟩ := ht.node_elim
    · simp [Tree.word] at hw
    · exact hlhs r hr htop

end Grammar

end WhileSketch
