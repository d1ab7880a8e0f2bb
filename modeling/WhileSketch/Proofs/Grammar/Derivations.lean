import Mathlib
import WhileSketch.Grammar.Derivation

/-! Derivations, and that the trees of a sentence are derivations of it. -/

namespace WhileSketch

mutual

/-- A tree shows how words come from a symbol by the given rules. Each category of a word stands
for the word. -/
inductive Yields (rules : List Rule) : String → Tree Label → List Word → Prop
  | word {tag : String} {w : Word} (h : tag ∈ w.tags) :
      Yields rules tag (Tree.word tag [Tree.word w.text []]) [w]
  | rule {r : Rule} {ts : List (Tree Label)} {ws : List Word} (hr : r ∈ rules)
      (hts : YieldsAll rules r.rhs ts ws) : Yields rules r.lhs (Tree.word r.lhs ts) ws

inductive YieldsAll (rules : List Rule) : List String → List (Tree Label) → List Word → Prop
  | nil : YieldsAll rules [] [] []
  | cons {x : String} {xs : List String} {t : Tree Label} {ts : List (Tree Label)}
      {ws ws' : List Word} (ht : Yields rules x t ws) (hts : YieldsAll rules xs ts ws') :
      YieldsAll rules (x :: xs) (t :: ts) (ws ++ ws')

end

variable {rules : List Rule} {words : List Word} {place : Nat}

theorem YieldsAll.append {xs ys : List String} {ts us : List (Tree Label)} {ws vs : List Word}
    (h : YieldsAll rules xs ts ws) (h' : YieldsAll rules ys us vs) :
    YieldsAll rules (xs ++ ys) (ts ++ us) (ws ++ vs) := by
  induction xs generalizing ts ws with
  | nil =>
    cases h
    exact h'
  | cons x xs ih =>
    cases h with
    | cons ht hts =>
      rw [List.append_assoc]
      exact .cons ht (ih hts)

theorem YieldsAll.concat {xs : List String} {x : String} {ts : List (Tree Label)} {t : Tree Label}
    {ws vs : List Word} (h : YieldsAll rules xs ts ws) (ht : Yields rules x t vs) :
    YieldsAll rules (xs ++ [x]) (ts ++ [t]) (ws ++ vs) := by
  have hone : YieldsAll rules [x] [t] (vs ++ []) := .cons ht .nil
  rw [List.append_nil] at hone
  exact h.append hone

theorem yieldsAll_nil_iff {ts : List (Tree Label)} {ws : List Word} :
    YieldsAll rules [] ts ws ↔ ts = [] ∧ ws = [] := by
  constructor
  · intro h
    cases h
    exact ⟨rfl, rfl⟩
  · rintro ⟨rfl, rfl⟩
    exact .nil

theorem yieldsAll_cons_iff {x : String} {xs : List String} {ts : List (Tree Label)}
    {ws : List Word} :
    YieldsAll rules (x :: xs) ts ws ↔
      ∃ t us vs vs', ts = t :: us ∧ ws = vs ++ vs' ∧ Yields rules x t vs ∧
        YieldsAll rules xs us vs' := by
  constructor
  · intro h
    cases h with
    | cons ht hts => exact ⟨_, _, _, _, rfl, rfl, ht, hts⟩
  · rintro ⟨t, us, vs, vs', rfl, rfl, ht, hts⟩
    exact .cons ht hts

theorem yieldsAll_one_iff {x : String} {ts : List (Tree Label)} {ws : List Word} :
    YieldsAll rules [x] ts ws ↔ ∃ t, ts = [t] ∧ Yields rules x t ws := by
  rw [yieldsAll_cons_iff]
  constructor
  · rintro ⟨t, us, vs, vs', rfl, rfl, ht, hts⟩
    obtain ⟨rfl, rfl⟩ := yieldsAll_nil_iff.mp hts
    exact ⟨t, rfl, by rwa [List.append_nil]⟩
  · rintro ⟨t, rfl, ht⟩
    exact ⟨t, [], ws, [], rfl, (List.append_nil ws).symm, ht, .nil⟩

theorem yieldsAll_two_iff {x y : String} {ts : List (Tree Label)} {ws : List Word} :
    YieldsAll rules [x, y] ts ws ↔
      ∃ t u vs us, ts = [t, u] ∧ ws = vs ++ us ∧ Yields rules x t vs ∧ Yields rules y u us := by
  rw [yieldsAll_cons_iff]
  constructor
  · rintro ⟨t, us, vs, vs', rfl, rfl, ht, hts⟩
    obtain ⟨u, rfl, hu⟩ := yieldsAll_one_iff.mp hts
    exact ⟨t, u, vs, vs', rfl, rfl, ht, hu⟩
  · rintro ⟨t, u, vs, us, rfl, rfl, ht, hu⟩
    exact ⟨t, [u], vs, us, rfl, rfl, ht, yieldsAll_one_iff.mpr ⟨u, rfl, hu⟩⟩

theorem yieldsAll_three_iff {x y z : String} {ts : List (Tree Label)} {ws : List Word} :
    YieldsAll rules [x, y, z] ts ws ↔
      ∃ t u v vs us us', ts = [t, u, v] ∧ ws = vs ++ (us ++ us') ∧ Yields rules x t vs ∧
        Yields rules y u us ∧ Yields rules z v us' := by
  rw [yieldsAll_cons_iff]
  constructor
  · rintro ⟨t, us, vs, vs', rfl, rfl, ht, hts⟩
    obtain ⟨u, v, us, us', rfl, rfl, hu, hv⟩ := yieldsAll_two_iff.mp hts
    exact ⟨t, u, v, vs, us, us', rfl, rfl, ht, hu, hv⟩
  · rintro ⟨t, u, v, vs, us, us', rfl, rfl, ht, hu, hv⟩
    exact ⟨t, [u, v], vs, us ++ us', rfl, rfl, ht,
      yieldsAll_two_iff.mpr ⟨u, v, us, us', rfl, rfl, hu, hv⟩⟩

mutual

/-- Each word has two nodes of a derivation to itself. -/
theorem Yields.length_le {x : String} {t : Tree Label} {ws : List Word} (h : Yields rules x t ws) :
    2 * ws.length ≤ t.size := by
  cases h with
  | word _ => simp [Tree.word, Tree.size, Tree.sizeList]
  | rule _ hts =>
    rw [Tree.word, Tree.size]
    exact hts.length_le.trans (Nat.le_add_left _ _)

theorem YieldsAll.length_le {xs : List String} {ts : List (Tree Label)} {ws : List Word}
    (h : YieldsAll rules xs ts ws) : 2 * ws.length ≤ Tree.sizeList ts := by
  cases h with
  | nil => rfl
  | cons ht hts =>
    have hfirst := ht.length_le
    have hrest := hts.length_le
    rw [List.length_append, Tree.sizeList]
    omega

end

def between (words : List Word) (i j : Nat) : List Word :=
  (words.drop i).take (j - i)

theorem between_self (words : List Word) (i : Nat) : between words i i = [] := by
  rw [between, Nat.sub_self, List.take_zero]

theorem between_append (words : List Word) {i j k : Nat} (hij : i ≤ j) (hjk : j ≤ k) :
    between words i j ++ between words j k = between words i k := by
  have hk : k - i = (j - i) + (k - j) := by omega
  have hj : i + (j - i) = j := by omega
  rw [between, between, between, hk, List.take_add, List.drop_drop, hj]

theorem between_succ {i : Nat} {w : Word} (h : words[i]? = some w) :
    between words i (i + 1) = [w] := by
  obtain ⟨hi, rfl⟩ := List.getElem?_eq_some_iff.mp h
  rw [between, Nat.add_sub_cancel_left, List.drop_eq_getElem_cons hi]
  rfl

/-- What a row of the chart of a place claims: the symbols it has read stand for the words from its
start to the place, by a rule of the grammar or by a category of the last word. -/
structure Row.Reads (rules : List Rule) (words : List Word) (place : Nat) (r : Row) : Prop where
  start_le : r.item.start ≤ place
  reads : (r.item.rule ∈ rules ∧ r.item.dot ≤ r.item.rule.length ∧
      YieldsAll rules (r.item.rule.rhs.take r.item.dot) r.derived
        (between words r.item.start place)) ∨
    ∃ w, words[r.item.start]? = some w ∧ place = r.item.start + 1 ∧
      r.item.rule.lhs ∈ w.tags ∧ r.item.rule.rhs = [w.text] ∧ r.item.dot = 1 ∧
      r.derived = [Tree.word w.text []]

namespace Row.Reads

variable {r done : Row}

theorem tree (h : r.Reads rules words place) (hc : r.item.isComplete = true) :
    Yields rules r.item.rule.lhs r.tree (between words r.item.start place) := by
  obtain ⟨hr, -, hy⟩ | ⟨w, hw, hp, htag, -, -, hd⟩ := h.reads
  · have hlen : r.item.rule.rhs.length = r.item.dot := by
      simpa [Item.isComplete, Rule.length] using hc
    rw [← hlen, List.take_length] at hy
    exact .rule hr hy
  · rw [hp, between_succ hw, Row.tree, hd]
    exact .word htag

theorem derived_of_length_eq_zero (h : r.Reads rules words place)
    (hlen : r.item.rule.length = 0) : r.derived = [] := by
  obtain ⟨-, hdot, hy⟩ | ⟨w, -, -, -, hrhs, -, -⟩ := h.reads
  · rw [hlen, Nat.le_zero] at hdot
    rw [hdot, List.take_zero] at hy
    generalize r.derived = ts at hy ⊢
    generalize between words r.item.start place = ws at hy
    cases hy
    rfl
  · rw [Rule.length, hrhs] at hlen
    simp at hlen

/-- A row that waits for a symbol, and one that has read that symbol from the place where the other
stopped, make a row that has read one symbol more. -/
theorem advanced (h : r.Reads rules words done.item.start) (hdone : done.Reads rules words place)
    (hc : done.item.isComplete = true) (hnext : r.item.next? = some done.item.rule.lhs) :
    (Row.advanced r.item.advance r done).Reads rules words place := by
  have hnext' : r.item.rule.rhs[r.item.dot]? = some done.item.rule.lhs := hnext
  obtain ⟨hdot, hsymbol⟩ := List.getElem?_eq_some_iff.mp hnext'
  refine ⟨h.start_le.trans hdone.start_le, .inl ?_⟩
  obtain ⟨hr, -, hy⟩ | ⟨w, -, -, -, hrhs, hone, -⟩ := h.reads
  · refine ⟨hr, hdot, ?_⟩
    have htree : (Row.advanced r.item.advance r done).derived = r.derived ++ [done.tree] := by
      rw [Row.derived]
      by_cases hlen : done.item.rule.length = 0
      · have hlast : r.item.advance.last?.getD "" = done.item.rule.lhs := by
          simp [Item.advance, Item.last?, hnext']
        rw [if_pos hlen, hlast, Row.tree, hdone.derived_of_length_eq_zero hlen]
      · rw [if_neg hlen, Row.tree]
    have htake : r.item.rule.rhs.take (r.item.dot + 1) =
        r.item.rule.rhs.take r.item.dot ++ [done.item.rule.lhs] := by
      rw [List.take_succ_eq_append_getElem hdot, hsymbol]
    have hall := hy.concat (hdone.tree hc)
    rw [between_append words h.start_le hdone.start_le, ← htake, ← htree] at hall
    exact hall
  · rw [hrhs, hone] at hdot
    simp at hdot

end Row.Reads

/-- All rows of the chart of a place are right in what they claim. -/
def Chart.Sound (rules : List Rule) (words : List Word) (place : Nat) (c : Chart) : Prop :=
  ∀ r ∈ c.rows, r.Reads rules words place

namespace Chart.Sound

variable {c : Chart}

theorem empty : Chart.empty.Sound rules words place := by
  intro r hr
  simp [Chart.empty] at hr

theorem add (h : c.Sound rules words place) {r : Row} (hr : r.Reads rules words place) :
    (c.add r).Sound rules words place := by
  rw [Chart.add]
  split
  · exact h
  · intro r' hr'
    obtain hr' | rfl := Array.mem_push.mp hr'
    · exact h r' hr'
    · exact hr

theorem foldl_add {α : Type} {row : α → Row} {xs : List α} (h : c.Sound rules words place)
    (hxs : ∀ x ∈ xs, (row x).Reads rules words place) :
    (xs.foldl (fun c x => c.add (row x)) c).Sound rules words place := by
  induction xs generalizing c with
  | nil => exact h
  | cons x xs ih =>
    rw [List.forall_mem_cons] at hxs
    exact ih (h.add hxs.1) hxs.2

end Chart.Sound

namespace Recognition

variable {c : Chart} {charts : Array Chart} {g : Grammar}

theorem scan_sound {w : Word} (hw : words[place]? = some w) (h : c.Sound rules words (place + 1)) :
    (scan w (place + 1) c).Sound rules words (place + 1) := by
  apply h.foldl_add
  intro r hr
  obtain ⟨tag, htag, rfl⟩ := List.mem_map.mp hr
  exact ⟨by simp [Row.item], .inr ⟨w, hw, rfl, htag, rfl, rfl, rfl⟩⟩

theorem predictFrom_sound (hg : ∀ r ∈ g.rules, r ∈ rules) (fuel i : Nat)
    (h : c.Sound rules words place) :
    (predictFrom g place fuel i c).Sound rules words place := by
  induction fuel generalizing i c with
  | zero => exact h
  | succ fuel ih =>
    rw [predictFrom]
    split
    · exact h
    · apply ih
      apply h.foldl_add
      intro r hr
      have hrule : r ∈ g.rules := by
        split at hr
        · exact (List.mem_filter.mp hr).1
        · simp at hr
      refine ⟨le_refl place, .inl ⟨hg r hrule, Nat.zero_le _, ?_⟩⟩
      rw [Row.item, between_self]
      exact .nil

theorem advanceFrom_sound (hcharts : ∀ i, (charts.getD i .empty).Sound rules words i) {done : Row}
    (hdone : done.Reads rules words place) (hcomplete : done.item.isComplete = true)
    (fuel j : Nat) (h : c.Sound rules words place) :
    (advanceFrom charts place done fuel j c).Sound rules words place := by
  induction fuel generalizing j c with
  | zero => exact h
  | succ fuel ih =>
    have hsource : (if done.item.start = place then c
        else charts.getD done.item.start .empty).Sound rules words done.item.start := by
      split
      case isTrue hstart => rwa [hstart]
      case isFalse => exact hcharts _
    rw [advanceFrom]
    split
    · exact h
    case h_2 r hr =>
      apply ih
      split
      case isTrue hnext =>
        apply h.add
        exact (hsource r (Array.mem_of_getElem? hr)).advanced hdone hcomplete
          (by simpa using hnext)
      case isFalse => exact h

theorem completeFrom_sound (hcharts : ∀ i, (charts.getD i .empty).Sound rules words i)
    (bound fuel i : Nat) (h : c.Sound rules words place) :
    (completeFrom charts place bound fuel i c).Sound rules words place := by
  induction fuel generalizing i c with
  | zero => exact h
  | succ fuel ih =>
    rw [completeFrom]
    split
    · exact h
    case h_2 r hr =>
      apply ih
      split
      case isTrue hc => exact advanceFrom_sound hcharts (h r (Array.mem_of_getElem? hr)) hc _ _ h
      case isFalse => exact h

theorem saturate_sound (hg : ∀ r ∈ g.rules, r ∈ rules)
    (hcharts : ∀ i, (charts.getD i .empty).Sound rules words i) (bound fuel : Nat)
    (h : c.Sound rules words place) :
    (saturate g charts place bound fuel c).Sound rules words place := by
  induction fuel generalizing c with
  | zero => exact h
  | succ fuel ih =>
    have hnext := completeFrom_sound hcharts bound bound 0
      (predictFrom_sound hg bound 0 h)
    rw [saturate]
    split
    · exact hnext
    · exact ih hnext

theorem forall_getD_push {P : Nat → Chart → Prop} (hcharts : ∀ i, P i (charts.getD i .empty))
    (hc : P charts.size c) (i : Nat) : P i ((charts.push c).getD i .empty) := by
  rw [Array.getD_eq_getD_getElem?, Array.getElem?_push]
  split
  case isTrue hi =>
    rw [hi]
    exact hc
  case isFalse =>
    rw [← Array.getD_eq_getD_getElem?]
    exact hcharts i

theorem push_sound (hcharts : ∀ i, (charts.getD i .empty).Sound rules words i)
    (hc : c.Sound rules words charts.size) (i : Nat) :
    ((charts.push c).getD i .empty).Sound rules words i :=
  forall_getD_push (P := fun i c => c.Sound rules words i) hcharts hc i

theorem word_of_drop {w : Word} {ws : List Word} {k : Nat} (h : words.drop k = w :: ws) :
    words[k]? = some w ∧ words.drop (k + 1) = ws := by
  rw [← List.head?_drop, ← List.drop_drop, h]
  exact ⟨rfl, rfl⟩

/-- Each chart is right, and there is one for each place up to the end of the words. -/
theorem read_sound (hg : ∀ r ∈ g.rules, r ∈ rules) {ws : List Word}
    (hcharts : ∀ i, (charts.getD i .empty).Sound rules words i) {k : Nat}
    (hsize : charts.size = k + 1) (hws : words.drop k = ws) :
    (∀ i, ((read g charts ws).getD i .empty).Sound rules words i) ∧
      (read g charts ws).size = k + 1 + ws.length := by
  induction ws generalizing charts k with
  | nil => exact ⟨hcharts, hsize⟩
  | cons w ws ih =>
    obtain ⟨hw, hrest⟩ := word_of_drop hws
    have hscan : (scan w charts.size .empty).Sound rules words charts.size := by
      rw [hsize]
      exact scan_sound hw .empty
    have hnext := push_sound hcharts (saturate_sound hg hcharts
      (itemBound g w.tags.length charts.size) (itemBound g w.tags.length charts.size) hscan)
    obtain ⟨hsound, hlen⟩ := ih hnext (by rw [Array.size_push, hsize]) hrest
    refine ⟨hsound, ?_⟩
    rw [read, hlen, List.length_cons]
    omega

theorem start_sound (g : Grammar) (words : List Word) :
    (Chart.empty.add (.fresh g.goal)).Sound (g.goal.rule :: g.rules) words 0 := by
  refine Chart.Sound.empty.add ⟨le_refl 0, .inl ⟨List.mem_cons_self, Nat.zero_le _, ?_⟩⟩
  rw [Row.item, Grammar.goal, between_self]
  exact .nil

theorem none_sound (i : Nat) : ((#[] : Array Chart).getD i .empty).Sound rules words i :=
  .empty

end Recognition

theorem Recognition.charts_sound (g : Grammar) (s : Sentence) :
    (∀ i, ((charts g s).getD i .empty).Sound (g.goal.rule :: g.rules) s.words i) ∧
      (charts g s).size = s.length + 1 := by
  have hg : ∀ r ∈ g.rules, r ∈ g.goal.rule :: g.rules := fun r hr => List.mem_cons_of_mem _ hr
  have hfirst := push_sound none_sound (saturate_sound hg none_sound (itemBound g 0 0)
    (itemBound g 0 0) (start_sound g s.words))
  obtain ⟨hsound, hsize⟩ := read_sound hg hfirst rfl List.drop_zero
  have hlen : (charts g s).size = 0 + 1 + s.words.length := hsize
  exact ⟨hsound, by rw [hlen, Sentence.length]; omega⟩

theorem Recognition.back_charts (g : Grammar) (s : Sentence) :
    (charts g s).back?.getD .empty = (charts g s).getD s.length .empty := by
  rw [Array.back?, Array.getD_eq_getD_getElem?, (charts_sound g s).2, Nat.add_sub_cancel]

/-- Each tree of a sentence is a derivation of the sentence from the symbol above the start
symbol. -/
theorem Grammar.trees_sound {g : Grammar} {s : Sentence} {t : Tree Label} (h : t ∈ g.trees s) :
    Yields (g.goal.rule :: g.rules) topSymbol t s.words := by
  obtain ⟨r, hr, rfl⟩ := List.mem_map.mp h
  obtain ⟨hr, hcond⟩ := List.mem_filter.mp hr
  simp only [Bool.and_eq_true, beq_iff_eq] at hcond
  obtain ⟨⟨hstart, hlhs⟩, hc⟩ := hcond
  have hsound := (Recognition.charts_sound g s).1
  rw [Recognition.back_charts] at hr
  have htree := (hsound s.length r (Array.mem_def.mpr hr)).tree hc
  rw [hstart, hlhs, between, List.drop_zero, Nat.sub_zero, Sentence.length,
    List.take_length] at htree
  exact htree

end WhileSketch
