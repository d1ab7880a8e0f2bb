import Mathlib
import WhileSketch.Proofs.Grammar.SingleTree

/-! Recognition ends. Its loops are stated without any bound on their rounds; each of them comes to an
end, for whatever grammar, with the charts that recognition gives, and these hold no item twice and
only items of the grammar and of the words. -/

namespace WhileSketch.Recognition

section Loops

/-- A walk over rows that may grow on the way: from an index on, each row in turn changes the chart,
until there is no further row. -/
inductive Walks (rows : Chart → Array Row) (body : Row → Chart → Chart → Prop) :
    Nat → Chart → Chart → Prop
  | done {i : Nat} {c : Chart} : (rows c)[i]? = none → Walks rows body i c c
  | next {i : Nat} {r : Row} {c d e : Chart} : (rows c)[i]? = some r → body r c d →
    Walks rows body (i + 1) d e → Walks rows body i c e

def predictRow (g : Grammar) (place : Nat) (r : Row) (c : Chart) : Chart :=
  let rules := match r.item.next? with
    | some symbol => g.rulesFor symbol
    | none => []
  rules.foldl (fun c r => c.add (.fresh ⟨r, 0, place⟩)) c

def advanceRow (done r : Row) (c : Chart) : Chart :=
  if r.item.next? == some done.item.rule.lhs then c.add (.advanced r.item.advance r done) else c

def Predicts (g : Grammar) (place : Nat) : Nat → Chart → Chart → Prop :=
  Walks Chart.rows fun r c d => d = predictRow g place r c

def Advances (charts : Array Chart) (place : Nat) (done : Row) : Nat → Chart → Chart → Prop :=
  Walks (fun c => (source charts place done c).rows) fun r c d => d = advanceRow done r c

def Completes (charts : Array Chart) (place : Nat) : Nat → Chart → Chart → Prop :=
  Walks Chart.rows fun r c d =>
    if r.item.isComplete then Advances charts place r 0 c d else d = c

/-- Prediction and completion in turn, until a turn leaves the size of the chart as it was. -/
inductive Saturates (g : Grammar) (charts : Array Chart) (place : Nat) : Chart → Chart → Prop
  | last {c p q : Chart} : Predicts g place 0 c p → Completes charts place 0 p q →
    q.size = c.size → Saturates g charts place c q
  | again {c p q d : Chart} : Predicts g place 0 c p → Completes charts place 0 p q →
    q.size ≠ c.size → Saturates g charts place q d → Saturates g charts place c d

/-- One chart after the other, for each of the words. -/
inductive Fills (g : Grammar) : Array Chart → List Word → Array Chart → Prop
  | nil {charts : Array Chart} : Fills g charts [] charts
  | cons {charts charts' : Array Chart} {c : Chart} {w : Word} {ws : List Word} :
    Saturates g charts charts.size (scan w charts.size .empty) c → Fills g (charts.push c) ws charts' →
    Fills g charts (w :: ws) charts'

/-- Recognition of a sentence comes to an end with some charts. -/
def Ends (g : Grammar) (s : Sentence) (charts : Array Chart) : Prop :=
  ∃ c, Saturates g #[] 0 (Chart.empty.add (.fresh g.goal)) c ∧ Fills g #[c] s.words charts

end Loops

section Unique

variable {rows : Chart → Array Row} {body : Row → Chart → Chart → Prop} {g : Grammar}
  {charts out out' : Array Chart} {place i : Nat} {c d d' : Chart}

/-- A walk has one result if each of its steps has. -/
theorem Walks.unique (hbody : ∀ {r c d d'}, body r c d → body r c d' → d = d')
    (h : Walks rows body i c d) (h' : Walks rows body i c d') : d = d' := by
  induction h with
  | done hnone =>
    cases h' with
    | done _ => rfl
    | next hsome => cases hnone.symm.trans hsome
  | next hsome hstep _ ih =>
    cases h' with
    | done hnone => cases hnone.symm.trans hsome
    | next hsome' hstep' hrest =>
      obtain rfl := Option.some.inj (hsome.symm.trans hsome')
      obtain rfl := hbody hstep hstep'
      exact ih hrest

theorem Predicts.unique (h : Predicts g place i c d) (h' : Predicts g place i c d') : d = d' :=
  Walks.unique (fun h h' => h.trans h'.symm) h h'

theorem Completes.unique (h : Completes charts place i c d) (h' : Completes charts place i c d') :
    d = d' := by
  refine Walks.unique (fun {r c d d'} h h' => ?_) h h'
  split_ifs at h h'
  · exact Walks.unique (fun h h' => h.trans h'.symm) h h'
  · exact h.trans h'.symm

theorem Saturates.unique (h : Saturates g charts place c d) (h' : Saturates g charts place c d') :
    d = d' := by
  induction h with
  | last hp hq hsize =>
    cases h' with
    | last hp' hq' _ =>
      obtain rfl := hp.unique hp'
      exact hq.unique hq'
    | again hp' hq' hsize' _ =>
      obtain rfl := hp.unique hp'
      obtain rfl := hq.unique hq'
      exact absurd hsize hsize'
  | again hp hq hsize _ ih =>
    cases h' with
    | last hp' hq' hsize' =>
      obtain rfl := hp.unique hp'
      obtain rfl := hq.unique hq'
      exact absurd hsize' hsize
    | again hp' hq' _ hrest =>
      obtain rfl := hp.unique hp'
      obtain rfl := hq.unique hq'
      exact ih hrest

theorem Fills.unique {ws : List Word} (h : Fills g charts ws out) (h' : Fills g charts ws out') :
    out = out' := by
  induction h with
  | nil =>
    cases h'
    rfl
  | cons hc _ ih =>
    cases h' with
    | cons hc' hrest =>
      obtain rfl := hc.unique hc'
      exact ih hrest

theorem Ends.unique {s : Sentence} (h : Ends g s out) (h' : Ends g s out') : out = out' := by
  obtain ⟨c, hc, hfills⟩ := h
  obtain ⟨c', hc', hfills'⟩ := h'
  obtain rfl := hc.unique hc'
  exact hfills.unique hfills'

end Unique

section Rounds

variable {rows : Chart → Array Row} {body : Row → Chart → Chart → Prop} {g : Grammar}
  {charts : Array Chart} {place bound fuel i : Nat} {c d : Chart}

theorem Walks.of_rounds {run : Nat → Nat → Chart → Chart} {P : Chart → Prop}
    (hzero : ∀ i c, run 0 i c = c)
    (hnone : ∀ fuel i c, (rows c)[i]? = none → run (fuel + 1) i c = c)
    (hsome : ∀ fuel i c r, (rows c)[i]? = some r → P (run (fuel + 1) i c) →
      ∃ d, body r c d ∧ run (fuel + 1) i c = run fuel (i + 1) d)
    (hfit : P (run fuel i c)) (hend : (rows (run fuel i c)).size ≤ i + fuel) :
    Walks rows body i c (run fuel i c) := by
  induction fuel generalizing i c with
  | zero =>
    rw [hzero] at hend ⊢
    exact .done (Array.getElem?_eq_none_iff.mpr hend)
  | succ fuel ih =>
    cases hrow : (rows c)[i]? with
    | none =>
      rw [hnone fuel i c hrow]
      exact .done hrow
    | some r =>
      obtain ⟨d, hd, hrun⟩ := hsome fuel i c r hrow hfit
      rw [hrun] at hfit hend ⊢
      exact .next hrow hd (ih hfit (by omega))

theorem predicts_predictFrom (hend : (predictFrom g place fuel i c).size ≤ i + fuel) :
    Predicts g place i c (predictFrom g place fuel i c) := by
  refine Walks.of_rounds (P := fun _ => True) (fun _ _ => rfl) ?_ ?_ trivial hend
  · intro fuel i c hrow
    rw [predictFrom, hrow]
  · intro fuel i c r hrow _
    refine ⟨_, rfl, ?_⟩
    rw [predictFrom, hrow]
    rfl

theorem advances_advanceFrom {done : Row} {j : Nat}
    (hend : (source charts place done (advanceFrom charts place done fuel j c)).size ≤ j + fuel) :
    Advances charts place done j c (advanceFrom charts place done fuel j c) := by
  refine Walks.of_rounds (P := fun _ => True) (fun _ _ => rfl) ?_ ?_ trivial hend
  · intro fuel j c hrow
    rw [source] at hrow
    rw [advanceFrom]
    simp only [hrow]
  · intro fuel j c r hrow _
    refine ⟨_, rfl, ?_⟩
    rw [source] at hrow
    rw [advanceFrom]
    simp only [hrow]
    rfl

theorem completes_completeFrom (hfit : (completeFrom charts place bound fuel i c).size ≤ bound)
    (hend : (completeFrom charts place bound fuel i c).size ≤ i + fuel) :
    Completes charts place i c (completeFrom charts place bound fuel i c) := by
  refine Walks.of_rounds (P := fun d => d.size ≤ bound) (fun _ _ => rfl) ?_ ?_ hfit hend
  · intro fuel i c hrow
    rw [completeFrom, hrow]
  · intro fuel i c r hrow hbound
    rw [completeFrom, hrow] at hbound ⊢
    refine ⟨_, ?_, rfl⟩
    have hle := (Chart.size_mono le_completeFrom).trans hbound
    split_ifs with hcomplete
    · rw [if_pos hcomplete] at hle
      apply advances_advanceFrom
      rw [source]
      split_ifs <;> omega
    · rfl

/-- If there are more rounds than rows can be added, the last one has added nothing. -/
theorem saturates_saturate (hd : saturate g charts place bound fuel c = d)
    (hsize : d.size < c.size + fuel) (hbound : d.size ≤ bound) : Saturates g charts place c d := by
  induction fuel generalizing c with
  | zero =>
    subst hd
    exact absurd hsize (lt_irrefl _)
  | succ fuel ih =>
    rw [saturate] at hd
    generalize hp : predictFrom g place bound 0 c = p at hd
    generalize hq : completeFrom charts place bound bound 0 p = q at hd
    have hpq : p ≤ q := hq ▸ le_completeFrom
    have hqd : q ≤ d := by
      split_ifs at hd
      · exact hd.le
      · exact hd ▸ le_saturate
    have hqbound : q.size ≤ bound := (Chart.size_mono hqd).trans hbound
    have hpbound : p.size ≤ bound := (Chart.size_mono hpq).trans hqbound
    have hpredicts : Predicts g place 0 c p := by
      rw [← hp] at hpbound ⊢
      exact predicts_predictFrom (by omega)
    have hcompletes : Completes charts place 0 p q := by
      rw [← hq] at hqbound ⊢
      exact completes_completeFrom hqbound (by omega)
    split_ifs at hd with hsame
    · exact hd ▸ .last hpredicts hcompletes hsame
    · have hgrown : c.size ≤ q.size := Chart.size_mono ((hp ▸ le_predictFrom : c ≤ p).trans hpq)
      exact .again hpredicts hcompletes hsame (ih hd (by omega))

end Rounds

section Ends

variable {g : Grammar} {charts : Array Chart} {words : List Word}

theorem fills_read {ws : List Word} {k : Nat} (hsize : charts.size = k + 1)
    (hws : words.drop k = ws)
    (hcharts : ∀ i, (charts.getD i .empty).Sound (g.goal.rule :: g.rules) words i) :
    Fills g charts ws (read g charts ws) := by
  induction ws generalizing charts k with
  | nil => exact .nil
  | cons w ws ih =>
    obtain ⟨hw, hrest⟩ := word_of_drop hws
    have hg : ∀ r ∈ g.rules, r ∈ g.goal.rule :: g.rules := fun r hr => List.mem_cons_of_mem _ hr
    have hscan : (scan w charts.size .empty).Sound (g.goal.rule :: g.rules) words charts.size := by
      rw [hsize]
      exact scan_sound hw .empty
    have hlt := size_saturate_lt (itemBound g w.tags.length charts.size)
      (itemBound g w.tags.length charts.size) hcharts hscan (nodup_scan w _)
      (hsize ▸ length_wordItems_le hw)
    rw [read]
    exact .cons (saturates_saturate rfl (by omega) hlt.le) (ih (by rw [Array.size_push, hsize]) hrest
      (push_sound hcharts (saturate_sound hg hcharts _ _ hscan)))

theorem ends_charts (g : Grammar) (s : Sentence) : Ends g s (Recognition.charts g s) := by
  have hg : ∀ r ∈ g.rules, r ∈ g.goal.rule :: g.rules := fun r hr => List.mem_cons_of_mem _ hr
  have hstart := start_sound g s.words
  have hlt := size_saturate_lt (itemBound g 0 0) (itemBound g 0 0) none_sound hstart
    (Chart.nodup_add Chart.nodup_empty _) (le_refl 0)
  exact ⟨_, saturates_saturate rfl (Nat.lt_add_left _ hlt) hlt.le,
    fills_read rfl List.drop_zero (push_sound none_sound (saturate_sound hg none_sound _ _ hstart))⟩

/-- The chart of a place holds no item twice, and only items of the goal, of the grammar and of the
words, which began at that place or before it. -/
structure Clean (g : Grammar) (words : List Word) (place : Nat) (c : Chart) : Prop where
  nodup : c.items.Nodup
  dot_le : ∀ i ∈ c.items, i.dot ≤ i.rule.length
  start_le : ∀ i ∈ c.items, i.start ≤ place
  rule_cases : ∀ i ∈ c.items,
    i.rule = g.goal.rule ∨ i.rule ∈ g.rules ∨ ∃ w ∈ words, ∃ tag ∈ w.tags, i.rule = ⟨tag, [w.text]⟩

theorem clean_of_sound {place : Nat} {c : Chart}
    (hsound : c.Sound (g.goal.rule :: g.rules) words place) (hnodup : c.items.Nodup) :
    Clean g words place c := by
  refine ⟨hnodup, fun i hi => ?_, fun i hi => ?_, fun i hi => ?_⟩ <;>
    obtain ⟨r, hr, rfl⟩ := Chart.exists_row hi
  · obtain ⟨-, hdot, -⟩ | ⟨w, -, -, -, hrhs, hdot, -⟩ := (hsound r hr).reads
    · exact hdot
    · rw [hdot, Rule.length, hrhs, List.length_singleton]
  · exact (hsound r hr).start_le
  · obtain ⟨hrule, -⟩ | ⟨w, hw, -, htag, hrhs, -⟩ := (hsound r hr).reads
    · obtain hgoal | hrule := List.mem_cons.mp hrule
      · exact .inl hgoal
      · exact .inr (.inl hrule)
    · exact .inr (.inr ⟨w, List.mem_of_getElem? hw, _, htag, by rw [← hrhs]⟩)

end Ends

/-- Recognition comes to an end, with one chart for each place of the sentence and no other charts
than these, and all of them are clean. Nothing is asked of the grammar. -/
theorem ends_with_clean_charts (g : Grammar) (s : Sentence) :
    (∀ out, Ends g s out ↔ out = charts g s) ∧ (charts g s).size = s.length + 1 ∧
      ∀ place c, (charts g s)[place]? = some c → Clean g s.words place c := by
  obtain ⟨hsound, hsize⟩ := charts_sound g s
  refine ⟨fun out => ⟨fun h => h.unique (ends_charts g s), fun h => h ▸ ends_charts g s⟩, hsize, ?_⟩
  intro place c hc
  have hget : (charts g s).getD place .empty = c := by
    rw [Array.getD_eq_getD_getElem?, hc, Option.getD_some]
  exact hget ▸ clean_of_sound (hsound place) (nodup_charts g s place)

end WhileSketch.Recognition
