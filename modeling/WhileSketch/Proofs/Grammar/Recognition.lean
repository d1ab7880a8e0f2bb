import Mathlib
import WhileSketch.Proofs.Grammar.Derivations

/-! Recognition finds each derivation: charts are bounded, and they are saturated in the end. With
the soundness of the charts, it accepts just the sentences of the grammar. -/

namespace WhileSketch

namespace Chart

variable {c c' : Chart}

def items (c : Chart) : List Item :=
  c.rows.toList.map Row.item

theorem length_items (c : Chart) : c.items.length = c.size := by
  simp [items, size]

theorem item_mem_items {r : Row} (hr : r ∈ c.rows) : r.item ∈ c.items :=
  List.mem_map_of_mem (Array.mem_toList_iff.mpr hr)

theorem exists_row {i : Item} (hi : i ∈ c.items) : ∃ r ∈ c.rows, r.item = i := by
  obtain ⟨r, hr, rfl⟩ := List.mem_map.mp hi
  exact ⟨r, Array.mem_toList_iff.mp hr, rfl⟩

theorem contains_iff {i : Item} : c.contains i = true ↔ i ∈ c.items := by
  rw [contains, Array.any_eq_true']
  constructor
  · rintro ⟨r, hr, heq⟩
    simp only [Bool.and_eq_true, beq_iff_eq] at heq
    have hitem : r.item = i := by
      cases i
      cases hr' : r.item
      simp_all
    exact hitem ▸ item_mem_items hr
  · intro hi
    obtain ⟨r, hr, rfl⟩ := exists_row hi
    exact ⟨r, hr, by simp⟩

/-- A chart is at most another if that begins with its rows. -/
instance : PartialOrder Chart where
  le c c' := c.rows.toList <+: c'.rows.toList
  le_refl c := List.prefix_refl _
  le_trans _ _ _ := List.IsPrefix.trans
  le_antisymm c c' h h' := by
    have hrows : c.rows = c'.rows := Array.toList_inj.mp (h.eq_of_length_le h'.length_le)
    cases c
    cases c'
    exact congrArg Chart.mk hrows

theorem size_mono (h : c ≤ c') : c.size ≤ c'.size := by
  simpa [size] using h.length_le

theorem eq_of_size_le (h : c ≤ c') (hsize : c'.size ≤ c.size) : c = c' := by
  refine le_antisymm h ?_
  have hrows : c.rows.toList = c'.rows.toList := h.eq_of_length_le (by simpa [size] using hsize)
  change c'.rows.toList <+: c.rows.toList
  rw [hrows]

theorem items_mono (h : c ≤ c') {i : Item} (hi : i ∈ c.items) : i ∈ c'.items := by
  obtain ⟨r, hr, rfl⟩ := exists_row hi
  exact item_mem_items (Array.mem_toList_iff.mp
    (List.IsPrefix.mem (Array.mem_toList_iff.mpr hr) h))

theorem le_add (c : Chart) (r : Row) : c ≤ c.add r := by
  rw [add]
  split_ifs
  · exact le_refl c
  · exact ⟨[r], by simp⟩

theorem item_mem_add (c : Chart) (r : Row) : r.item ∈ (c.add r).items := by
  rw [add]
  split_ifs with hr
  · exact contains_iff.mp hr
  · exact item_mem_items (by simp)

theorem nodup_empty : empty.items.Nodup :=
  List.nodup_nil

theorem nodup_add (h : c.items.Nodup) (r : Row) : (c.add r).items.Nodup := by
  rw [add]
  split_ifs with hr
  · exact h
  · have hnew : r.item ∉ c.items := fun hmem => hr (contains_iff.mpr hmem)
    have hitems : Chart.items ⟨c.rows.push r⟩ = c.items ++ [r.item] := by simp [items]
    rw [hitems]
    exact h.append (List.nodup_singleton _) (by simpa using hnew)

theorem foldl_add_kept {α : Type} {row : α → Row} {P : Chart → Prop}
    (hadd : ∀ c r, P c → P (c.add r)) (xs : List α) (h : P c) :
    P (xs.foldl (fun c x => c.add (row x)) c) := by
  induction xs generalizing c with
  | nil => exact h
  | cons x xs ih => exact ih (hadd c _ h)

theorem item_mem_foldl_add {α : Type} {row : α → Row} {xs : List α} {x : α} (hx : x ∈ xs) :
    (row x).item ∈ (xs.foldl (fun c x => c.add (row x)) c).items := by
  induction xs generalizing c with
  | nil => cases hx
  | cons y xs ih =>
    obtain rfl | hx := List.mem_cons.mp hx
    · exact foldl_add_kept (fun c r h => items_mono (le_add c r) h) xs (item_mem_add c _)
    · exact ih hx

end Chart

namespace Recognition

open Chart

variable {g : Grammar} {charts : Array Chart} {place bound fuel : Nat} {c : Chart}

section Growth

variable {P : Chart → Prop} (hadd : ∀ c r, P c → P (c.add r))

include hadd

theorem predictFrom_kept {i : Nat} (h : P c) : P (predictFrom g place fuel i c) := by
  induction fuel generalizing i c with
  | zero => exact h
  | succ fuel ih =>
    rw [predictFrom]
    split
    · exact h
    · exact ih (foldl_add_kept hadd _ h)

theorem advanceFrom_kept {done : Row} {j : Nat} (h : P c) :
    P (advanceFrom charts place done fuel j c) := by
  induction fuel generalizing j c with
  | zero => exact h
  | succ fuel ih =>
    rw [advanceFrom]
    split
    · exact h
    · apply ih
      split_ifs
      · exact hadd c _ h
      · exact h

theorem completeFrom_kept {i : Nat} (h : P c) : P (completeFrom charts place bound fuel i c) := by
  induction fuel generalizing i c with
  | zero => exact h
  | succ fuel ih =>
    rw [completeFrom]
    split
    · exact h
    · apply ih
      split_ifs
      · exact advanceFrom_kept hadd h
      · exact h

theorem saturate_kept (h : P c) : P (saturate g charts place bound fuel c) := by
  induction fuel generalizing c with
  | zero => exact h
  | succ fuel ih =>
    rw [saturate]
    have hnext : P (completeFrom charts place bound bound 0 (predictFrom g place bound 0 c)) :=
      completeFrom_kept hadd (predictFrom_kept hadd h)
    split_ifs
    · exact hnext
    · exact ih hnext

end Growth

theorem nodup_saturate (h : c.items.Nodup) :
    (saturate g charts place bound fuel c).items.Nodup :=
  saturate_kept (P := fun c => c.items.Nodup) (fun _ r hc => nodup_add hc r) h

theorem nodup_scan (w : Word) (place : Nat) : (scan w place .empty).items.Nodup :=
  foldl_add_kept (P := fun c => c.items.Nodup) (fun _ r hc => nodup_add hc r) _ nodup_empty

theorem le_predictFrom {i : Nat} : c ≤ predictFrom g place fuel i c :=
  predictFrom_kept (fun d r h => h.trans (d.le_add r)) (le_refl c)

theorem le_advanceFrom {done : Row} {j : Nat} : c ≤ advanceFrom charts place done fuel j c :=
  advanceFrom_kept (fun d r h => h.trans (d.le_add r)) (le_refl c)

theorem le_completeFrom {i : Nat} : c ≤ completeFrom charts place bound fuel i c :=
  completeFrom_kept (fun d r h => h.trans (d.le_add r)) (le_refl c)

theorem le_saturate : c ≤ saturate g charts place bound fuel c :=
  saturate_kept (fun d r h => h.trans (d.le_add r)) (le_refl c)

section Unchanged

theorem mem_of_predictFrom_eq {i : Nat} (hfix : predictFrom g place fuel i c = c)
    (hfuel : c.size ≤ i + fuel) {k : Nat} (hk : i ≤ k) {r : Row} (hr : c.rows[k]? = some r)
    {rule : Rule} (hrule : rule ∈ g.rules) (hnext : r.item.next? = some rule.lhs) :
    ⟨rule, 0, place⟩ ∈ c.items := by
  have hsize : k < c.size := (Array.getElem?_eq_some_iff.mp hr).1
  induction fuel generalizing i with
  | zero => omega
  | succ fuel ih =>
    rw [predictFrom] at hfix
    split at hfix
    case h_1 hnone =>
      have : c.size ≤ i := Array.getElem?_eq_none_iff.mp hnone
      omega
    case h_2 s hs =>
      dsimp only at hfix
      generalize hd : List.foldl (fun (c : Chart) r => c.add (.fresh ⟨r, 0, place⟩)) c _ = d at hfix
      have hcd : c ≤ d := by
        rw [← hd]
        exact foldl_add_kept (fun d r h => h.trans (d.le_add r)) _ (le_refl c)
      have hdc : d = c := le_antisymm (le_predictFrom.trans_eq hfix) hcd
      by_cases hki : k = i
      · subst hki
        rw [hr, Option.some.injEq] at hs
        subst hs
        have hmem : rule ∈ g.rulesFor rule.lhs := List.mem_filter.mpr ⟨hrule, by simp⟩
        rw [← hdc, ← hd]
        simp only [hnext]
        exact item_mem_foldl_add hmem
      · rw [hdc] at hfix
        exact ih hfix (by omega) (by omega)

/-- The chart in which the rows are that wait for what `done` has read. -/
def source (charts : Array Chart) (place : Nat) (done : Row) (c : Chart) : Chart :=
  if done.item.start = place then c else charts.getD done.item.start .empty

theorem mem_of_advanceFrom_eq {done : Row} {j : Nat}
    (hfix : advanceFrom charts place done fuel j c = c)
    (hfuel : (source charts place done c).size ≤ j + fuel) {k : Nat} (hk : j ≤ k) {r : Row}
    (hr : (source charts place done c).rows[k]? = some r)
    (hnext : r.item.next? = some done.item.rule.lhs) : r.item.advance ∈ c.items := by
  have hsize : k < (source charts place done c).size := (Array.getElem?_eq_some_iff.mp hr).1
  induction fuel generalizing j with
  | zero => omega
  | succ fuel ih =>
    rw [advanceFrom] at hfix
    split at hfix
    case h_1 hnone =>
      have : (source charts place done c).size ≤ j := Array.getElem?_eq_none_iff.mp hnone
      omega
    case h_2 s hs =>
      set d := if (s.item.next? == some done.item.rule.lhs) = true then
        c.add (.advanced s.item.advance s done) else c with hd
      have hcd : c ≤ d := by
        rw [hd]
        split_ifs
        · exact le_add c _
        · exact le_refl c
      have hdc : d = c := le_antisymm (le_advanceFrom.trans_eq hfix) hcd
      by_cases hkj : k = j
      · subst hkj
        have hsr : s = r := Option.some.inj (hs.symm.trans hr)
        subst hsr
        rw [← hdc, hd, if_pos (by simpa using hnext)]
        exact item_mem_add c (.advanced s.item.advance s done)
      · rw [hdc] at hfix
        exact ih hfix (by omega) (by omega)

theorem mem_of_completeFrom_eq {i : Nat} (hfix : completeFrom charts place bound fuel i c = c)
    (hfuel : c.size ≤ i + fuel) (hbound : c.size ≤ bound) {k : Nat} (hk : i ≤ k) {done r : Row}
    (hdone : c.rows[k]? = some done) (hcomplete : done.item.isComplete = true)
    (hr : r ∈ (source charts place done c).rows) (hnext : r.item.next? = some done.item.rule.lhs) :
    r.item.advance ∈ c.items := by
  have hsize : k < c.size := (Array.getElem?_eq_some_iff.mp hdone).1
  induction fuel generalizing i with
  | zero => omega
  | succ fuel ih =>
    rw [completeFrom] at hfix
    split at hfix
    case h_1 hnone =>
      have : c.size ≤ i := Array.getElem?_eq_none_iff.mp hnone
      omega
    case h_2 s hs =>
      set d := if s.item.isComplete = true then
        advanceFrom charts place s (bound + (charts.getD s.item.start .empty).size) 0 c
        else c with hd
      have hcd : c ≤ d := by
        rw [hd]
        split_ifs
        · exact le_advanceFrom
        · exact le_refl c
      have hdc : d = c := le_antisymm (le_completeFrom.trans_eq hfix) hcd
      by_cases hki : k = i
      · subst hki
        rw [hdone, Option.some.injEq] at hs
        subst hs
        rw [if_pos hcomplete] at hd
        obtain ⟨j, hj, hrj⟩ := Array.mem_iff_getElem.mp hr
        refine mem_of_advanceFrom_eq (hd.symm.trans hdc) ?_ (Nat.zero_le j)
          (Array.getElem?_eq_some_iff.mpr ⟨hj, hrj⟩) hnext
        rw [source]
        split_ifs <;> omega
      · rw [hdc] at hfix
        exact ih hfix (by omega) (by omega)

end Unchanged

section Saturated

/-- Each pass but the last adds a row, so with enough passes the last one adds nothing. -/
theorem saturate_fixed {d : Chart} (hd : saturate g charts place bound fuel c = d)
    (hsize : d.size < c.size + fuel) :
    predictFrom g place bound 0 d = d ∧ completeFrom charts place bound bound 0 d = d := by
  induction fuel generalizing c with
  | zero =>
    subst hd
    exact absurd hsize (lt_irrefl _)
  | succ fuel ih =>
    rw [saturate] at hd
    generalize hp : predictFrom g place bound 0 c = p at hd
    generalize hq : completeFrom charts place bound bound 0 p = q at hd
    have hcp : c ≤ p := hp ▸ le_predictFrom
    have hpq : p ≤ q := hq ▸ le_completeFrom
    split_ifs at hd with hsame
    · have hcq : c = q := eq_of_size_le (hcp.trans hpq) (le_of_eq hsame)
      have hpc : p = c := le_antisymm (hpq.trans_eq hcq.symm) hcp
      subst hd hpc hcq
      exact ⟨hp, hq⟩
    · have hgrown : c.size < q.size := lt_of_le_of_ne (size_mono (hcp.trans hpq)) (Ne.symm hsame)
      exact ih hd (by omega)

/-- The items of rules that can be in the chart of a place. -/
def ruleItems (rules : List Rule) (place : Nat) : List Item :=
  rules.flatMap fun r => (List.range (r.length + 1)).flatMap fun dot =>
    (List.range (place + 1)).map fun start => ⟨r, dot, start⟩

def wordItems (words : List Word) : Nat → List Item
  | 0 => []
  | i + 1 => (words[i]?.map lexical).elim [] fun rules => rules.map fun r => ⟨r, 1, i⟩

theorem length_ruleItems (rules : List Rule) (place : Nat) :
    (ruleItems rules place).length = (rules.map fun r => r.length + 1).sum * (place + 1) := by
  induction rules with
  | nil => simp [ruleItems]
  | cons r rules ih =>
    have hcons : ruleItems (r :: rules) place = (List.range (r.length + 1)).flatMap
        (fun dot => (List.range (place + 1)).map fun start => (⟨r, dot, start⟩ : Item)) ++
          ruleItems rules place := rfl
    rw [hcons, List.length_append, ih, List.map_cons, List.sum_cons, Nat.add_mul]
    simp

variable {words : List Word} {rules : List Rule}

theorem mem_items_of_reads {r : Row} (h : r.Reads rules words place) :
    r.item ∈ ruleItems rules place ++ wordItems words place := by
  rw [List.mem_append]
  obtain ⟨hr, hdot, -⟩ | ⟨w, hw, hplace, htag, hrhs, hdot, -⟩ := h.reads
  · left
    have hstart := h.start_le
    simp only [ruleItems, List.mem_flatMap, List.mem_map, List.mem_range]
    exact ⟨r.item.rule, hr, r.item.dot, by omega, r.item.start, by omega, rfl⟩
  · right
    rw [hplace, wordItems, hw]
    refine List.mem_map.mpr ⟨_, List.mem_map.mpr ⟨_, htag, rfl⟩, ?_⟩
    rw [← hrhs, ← hdot]

/-- A chart that is right and has no item twice is not larger than there are items. -/
theorem size_le_of_sound (hs : c.Sound rules words place) (hn : c.items.Nodup) :
    c.size ≤ (rules.map fun r => r.length + 1).sum * (place + 1) + (wordItems words place).length := by
  rw [← length_items, ← length_ruleItems, ← List.length_append]
  refine hn.length_le_of_subset fun i hi => ?_
  obtain ⟨r, hr, rfl⟩ := exists_row hi
  exact mem_items_of_reads (hs r hr)

theorem lt_itemBound (hs : c.Sound (g.goal.rule :: g.rules) words place) (hn : c.items.Nodup)
    {tags : Nat} (htags : (wordItems words place).length ≤ tags) :
    c.size < itemBound g tags place := by
  have hle := size_le_of_sound hs hn
  have hsum : ((g.goal.rule :: g.rules).map fun r => r.length + 1).sum = g.dottedRules + 2 := by
    rw [List.map_cons, List.sum_cons, Nat.add_comm, List.sum_eq_foldr, List.foldr_map]
    rfl
  have hbound : itemBound g tags place = (g.dottedRules + 2) * (place + 1) + tags * (place + 1) + 1 := by
    rw [itemBound]
    ring
  have hmul : tags ≤ tags * (place + 1) := Nat.le_mul_of_pos_right _ (Nat.succ_pos _)
  rw [hsum] at hle
  omega

theorem length_wordItems_le {w : Word} {k : Nat} (hw : words[k]? = some w) :
    (wordItems words (k + 1)).length ≤ w.tags.length := by
  rw [wordItems, hw]
  simp [lexical]

theorem size_saturate_lt (bound fuel : Nat)
    (hcharts : ∀ i, (charts.getD i .empty).Sound (g.goal.rule :: g.rules) words i)
    (hsound : c.Sound (g.goal.rule :: g.rules) words charts.size) (hnodup : c.items.Nodup)
    {tags : Nat} (htags : (wordItems words charts.size).length ≤ tags) :
    (saturate g charts charts.size bound fuel c).size < itemBound g tags charts.size :=
  lt_itemBound (saturate_sound (fun _ hr => List.mem_cons_of_mem _ hr) hcharts bound fuel hsound)
    (nodup_saturate hnodup) htags

end Saturated

section Complete

variable {words : List Word}

/-- The chart of a place misses nothing: neither the categories of the word in front of it, nor a
rule for what is read next, nor what comes from a complete row. -/
structure Closed (g : Grammar) (words : List Word) (charts : Array Chart) (place : Nat) : Prop where
  scanned : ∀ i w tag, place = i + 1 → words[i]? = some w → tag ∈ w.tags →
    ⟨⟨tag, [w.text]⟩, 1, i⟩ ∈ (charts.getD place .empty).items
  predicted : ∀ r ∈ (charts.getD place .empty).rows, ∀ rule ∈ g.rules,
    r.item.next? = some rule.lhs → ⟨rule, 0, place⟩ ∈ (charts.getD place .empty).items
  completed : ∀ done ∈ (charts.getD place .empty).rows, done.item.isComplete = true →
    ∀ r ∈ (charts.getD done.item.start .empty).rows,
      r.item.next? = some done.item.rule.lhs → r.item.advance ∈ (charts.getD place .empty).items

theorem getD_push_self (charts : Array Chart) (c : Chart) :
    (charts.push c).getD charts.size .empty = c := by
  simp [Array.getD_eq_getD_getElem?]

theorem getD_push_of_lt {i : Nat} (hi : i < charts.size) (c : Chart) :
    (charts.push c).getD i .empty = charts.getD i .empty := by
  rw [Array.getD_eq_getD_getElem?, Array.getD_eq_getD_getElem?, Array.getElem?_push_lt hi,
    Array.getElem?_eq_getElem hi]

/-- Further charts do not matter to a chart, as its rows began before. -/
theorem Closed.push (h : Closed g words charts place) (hplace : place < charts.size)
    (hsound : (charts.getD place .empty).Sound (g.goal.rule :: g.rules) words place) (c : Chart) :
    Closed g words (charts.push c) place := by
  constructor
  · rw [getD_push_of_lt hplace]
    exact h.scanned
  · rw [getD_push_of_lt hplace]
    exact h.predicted
  · rw [getD_push_of_lt hplace]
    intro done hdone hcomplete r hr
    have hstart := (hsound done hdone).start_le
    rw [getD_push_of_lt (by omega)] at hr
    exact h.completed done hdone hcomplete r hr

theorem closed_saturate (hsound : c.Sound (g.goal.rule :: g.rules) words charts.size)
    (hcharts : ∀ i, (charts.getD i .empty).Sound (g.goal.rule :: g.rules) words i)
    (hnodup : c.items.Nodup) {tags : Nat} (htags : (wordItems words charts.size).length ≤ tags)
    (hscanned : ∀ i w tag, charts.size = i + 1 → words[i]? = some w → tag ∈ w.tags →
      ⟨⟨tag, [w.text]⟩, 1, i⟩ ∈ c.items) :
    Closed g words (charts.push (saturate g charts charts.size (itemBound g tags charts.size)
      (itemBound g tags charts.size) c)) charts.size := by
  have hg : ∀ r ∈ g.rules, r ∈ g.goal.rule :: g.rules := fun r hr => List.mem_cons_of_mem _ hr
  generalize hd : saturate g charts charts.size (itemBound g tags charts.size)
    (itemBound g tags charts.size) c = d
  have hcd : c ≤ d := hd ▸ le_saturate
  have hdsound : d.Sound (g.goal.rule :: g.rules) words charts.size := by
    rw [← hd]
    exact saturate_sound hg hcharts _ _ hsound
  have hsize : d.size < itemBound g tags charts.size :=
    hd ▸ size_saturate_lt _ _ hcharts hsound hnodup htags
  obtain ⟨hpredict, hcomplete⟩ := saturate_fixed hd (by omega)
  constructor
  · rw [getD_push_self]
    exact fun i w tag hi hw htag => items_mono hcd (hscanned i w tag hi hw htag)
  · rw [getD_push_self]
    intro r hr rule hrule hnext
    obtain ⟨k, hk⟩ := Array.mem_iff_getElem?.mp hr
    exact mem_of_predictFrom_eq hpredict (by omega) (Nat.zero_le k) hk hrule hnext
  · rw [getD_push_self]
    intro done hdone hdc r hr hnext
    have hstart := (hdsound done hdone).start_le
    obtain ⟨k, hk⟩ := Array.mem_iff_getElem?.mp hdone
    refine mem_of_completeFrom_eq hcomplete (by omega) (by omega) (Nat.zero_le k) hk hdc ?_ hnext
    rw [source]
    split_ifs with hplace
    · rwa [hplace, getD_push_self] at hr
    · rwa [getD_push_of_lt (by omega)] at hr

/-- Charts that are read on stay closed, and each word brings a closed chart. -/
theorem closed_read {ws : List Word} {k : Nat} (hsize : charts.size = k + 1)
    (hws : words.drop k = ws)
    (hsound : ∀ i, (charts.getD i .empty).Sound (g.goal.rule :: g.rules) words i)
    (hclosed : ∀ i < charts.size, Closed g words charts i) :
    (∀ i < (read g charts ws).size, Closed g words (read g charts ws) i) ∧
      ∀ i < charts.size, (read g charts ws).getD i .empty = charts.getD i .empty := by
  induction ws generalizing charts k with
  | nil => exact ⟨hclosed, fun _ _ => rfl⟩
  | cons w ws ih =>
    obtain ⟨hw, hrest⟩ := word_of_drop hws
    have hg : ∀ r ∈ g.rules, r ∈ g.goal.rule :: g.rules := fun r hr => List.mem_cons_of_mem _ hr
    have hscan : (scan w charts.size .empty).Sound (g.goal.rule :: g.rules) words charts.size := by
      rw [hsize]
      exact scan_sound hw .empty
    have htags : (wordItems words charts.size).length ≤ w.tags.length :=
      hsize ▸ length_wordItems_le hw
    have hscanned : ∀ i v tag, charts.size = i + 1 → words[i]? = some v → tag ∈ v.tags →
        ⟨⟨tag, [v.text]⟩, 1, i⟩ ∈ (scan w charts.size .empty).items := by
      intro i v tag hi hv htag
      obtain rfl : i = k := by omega
      obtain rfl : w = v := Option.some.inj (hw.symm.trans hv)
      have hmem : (⟨tag, [w.text]⟩ : Rule) ∈ lexical w := List.mem_map.mpr ⟨tag, htag, rfl⟩
      have hplace : (⟨⟨tag, [w.text]⟩, 1, i⟩ : Item) =
          (Row.fresh ⟨⟨tag, [w.text]⟩, 1, charts.size - 1⟩).item := by rw [hi]; rfl
      rw [hplace]
      exact item_mem_foldl_add hmem
    rw [read]
    generalize hd : saturate g charts charts.size (itemBound g w.tags.length charts.size)
      (itemBound g w.tags.length charts.size) (scan w charts.size .empty) = d
    have hnew : Closed g words (charts.push d) charts.size := by
      rw [← hd]
      exact closed_saturate hscan hsound (nodup_scan w _) htags hscanned
    have hpush : ∀ i < (charts.push d).size, Closed g words (charts.push d) i := by
      intro i hi
      rw [Array.size_push] at hi
      obtain hi | rfl := Nat.lt_succ_iff_lt_or_eq.mp hi
      · exact (hclosed i hi).push hi (hsound i) d
      · exact hnew
    have hpushed : ∀ i, ((charts.push d).getD i .empty).Sound (g.goal.rule :: g.rules) words i := by
      rw [← hd]
      exact push_sound hsound (saturate_sound hg hsound _ _ hscan)
    obtain ⟨hall, hkeep⟩ := ih (by rw [Array.size_push, hsize]) hrest hpushed hpush
    refine ⟨hall, fun i hi => ?_⟩
    rw [hkeep i (by rw [Array.size_push]; omega), getD_push_of_lt hi]

end Complete

section Recognised

variable {words : List Word}

mutual

/-- A symbol that is waited for, and that the next words come from, has been read behind them. -/
theorem exists_done (hclosed : ∀ i ≤ words.length, Closed g words charts i) {x : String}
    {t : Tree Label} {ws : List Word} (h : Yields g.rules x t ws) {j : Nat} {rest : List Word}
    (hj : j ≤ words.length) (hws : words.drop j = ws ++ rest) {r : Row}
    (hr : r ∈ (charts.getD j .empty).rows) (hnext : r.item.next? = some x) :
    ∃ done ∈ (charts.getD (j + ws.length) .empty).rows,
      done.item.isComplete = true ∧ done.item.rule.lhs = x ∧ done.item.start = j := by
  cases h with
  | @word tag w htag =>
    have hw : words[j]? = some w := by
      rw [← List.head?_drop, hws]
      rfl
    have hlen : j + 1 ≤ words.length := (List.getElem?_eq_some_iff.mp hw).1
    obtain ⟨done, hdone, hitem⟩ := exists_row ((hclosed (j + 1) hlen).scanned j w x rfl hw htag)
    refine ⟨done, hdone, ?_⟩
    rw [hitem]
    exact ⟨rfl, rfl, rfl⟩
  | @rule rule ts _ hrule hts =>
    have hstart := (hclosed j hj).predicted r hr rule hrule hnext
    have hend := advance_mem hclosed hts hj hws hstart rfl
    obtain ⟨done, hdone, hitem⟩ := exists_row hend
    refine ⟨done, hdone, ?_⟩
    rw [hitem]
    simp [Item.isComplete, Rule.length]

/-- An item whose next symbols the next words come from has read them behind these. -/
theorem advance_mem (hclosed : ∀ i ≤ words.length, Closed g words charts i) {xs : List String}
    {ts : List (Tree Label)} {ws : List Word} (h : YieldsAll g.rules xs ts ws) {j : Nat}
    {rest : List Word} (hj : j ≤ words.length) (hws : words.drop j = ws ++ rest) {i : Item}
    (hi : i ∈ (charts.getD j .empty).items) (hxs : i.rule.rhs.drop i.dot = xs) :
    ⟨i.rule, i.dot + xs.length, i.start⟩ ∈ (charts.getD (j + ws.length) .empty).items := by
  cases h with
  | nil => exact hi
  | @cons x xs t ts ws ws' ht hts =>
    obtain ⟨r, hr, rfl⟩ := exists_row hi
    have hnext : r.item.next? = some x := by
      rw [Item.next?, ← List.head?_drop, hxs]
      rfl
    rw [List.append_assoc] at hws
    obtain ⟨done, hdone, hcomplete, hlhs, hstart⟩ := exists_done hclosed ht hj hws hr hnext
    have hlen : j + ws.length ≤ words.length := by
      have := congrArg List.length hws
      simp only [List.length_drop, List.length_append] at this
      omega
    have hadvance : r.item.advance ∈ (charts.getD (j + ws.length) .empty).items := by
      refine (hclosed _ hlen).completed done hdone hcomplete r ?_ (by rw [hlhs, hnext])
      rwa [hstart]
    have hws' : words.drop (j + ws.length) = ws' ++ rest := by
      rw [← List.drop_drop, hws, List.drop_left]
    have hxs' : r.item.advance.rule.rhs.drop r.item.advance.dot = xs := by
      rw [Item.advance, ← List.drop_drop, hxs]
      rfl
    have hrest := advance_mem hclosed hts hlen hws' hadvance hxs'
    rw [Nat.add_assoc, ← List.length_append] at hrest
    rw [List.length_cons, Nat.add_comm xs.length, ← Nat.add_assoc]
    exact hrest

end

end Recognised

end Recognition

theorem Recognition.charts_closed (g : Grammar) (s : Sentence) :
    (∀ i ≤ s.length, Closed g s.words (charts g s) i) ∧
      g.goal ∈ ((charts g s).getD 0 .empty).items := by
  have hg : ∀ r ∈ g.rules, r ∈ g.goal.rule :: g.rules := fun r hr => List.mem_cons_of_mem _ hr
  have hstart := start_sound g s.words
  have hnodup : (Chart.empty.add (.fresh g.goal)).items.Nodup := Chart.nodup_add Chart.nodup_empty _
  have hscanned : ∀ i w tag, 0 = i + 1 → s.words[i]? = some w → tag ∈ w.tags →
      ⟨⟨tag, [w.text]⟩, 1, i⟩ ∈ (Chart.empty.add (.fresh g.goal)).items := by
    intro i w tag hi
    omega
  have hfirst : Closed g s.words #[saturate g #[] 0 (itemBound g 0 0) (itemBound g 0 0)
      (Chart.empty.add (.fresh g.goal))] 0 :=
    closed_saturate hstart none_sound hnodup (le_refl 0) hscanned
  have hgoal : g.goal ∈ (saturate g #[] 0 (itemBound g 0 0) (itemBound g 0 0)
      (Chart.empty.add (.fresh g.goal))).items :=
    Chart.items_mono le_saturate (Chart.item_mem_add .empty (.fresh g.goal))
  have hsound := push_sound none_sound
    (saturate_sound hg none_sound (itemBound g 0 0) (itemBound g 0 0) hstart)
  obtain ⟨hclosed, hkeep⟩ := closed_read rfl List.drop_zero hsound fun i hi => by
    obtain rfl : i = 0 := by simpa using hi
    exact hfirst
  have hsize := (charts_sound g s).2
  refine ⟨fun i hi => hclosed i (by change i < (charts g s).size; omega), ?_⟩
  have hzero : (charts g s).getD 0 .empty = _ := hkeep 0 (by simp)
  rw [hzero]
  exact hgoal

theorem Grammar.exists_tree {g : Grammar} {s : Sentence} {t : Tree Label}
    (h : Yields g.rules g.start t s.words) : ∃ u, u ∈ g.trees s := by
  obtain ⟨hclosed, hgoal⟩ := Recognition.charts_closed g s
  have hall : YieldsAll g.rules g.goal.rule.rhs [t] (s.words ++ []) := .cons h .nil
  rw [List.append_nil] at hall
  have hend := Recognition.advance_mem hclosed hall (Nat.zero_le _)
    (by rw [List.drop_zero, List.append_nil]) hgoal rfl
  obtain ⟨r, hr, hitem⟩ := Chart.exists_row hend
  refine ⟨r.tree, List.mem_map_of_mem (List.mem_filter.mpr ⟨?_, ?_⟩)⟩
  · rw [Nat.zero_add] at hr
    rw [Recognition.back_charts]
    exact Array.mem_toList_iff.mpr hr
  · rw [hitem]
    simp [Grammar.goal, Item.isComplete, Rule.length]

section Language

variable {rules : List Rule} {top : Rule}

mutual

/-- A rule for a symbol that stands on no right side is of no use below another symbol. -/
theorem Yields.of_cons (hunused : ∀ r ∈ rules, top.lhs ∉ r.rhs) {x : String} {t : Tree Label}
    {ws : List Word} (h : Yields (top :: rules) x t ws) (hx : x ≠ top.lhs) :
    Yields rules x t ws := by
  cases h with
  | word htag => exact .word htag
  | @rule r ts _ hr hts =>
    obtain rfl | hr := List.mem_cons.mp hr
    · exact absurd rfl hx
    · exact .rule hr (YieldsAll.of_cons hunused hts (hunused r hr))

theorem YieldsAll.of_cons (hunused : ∀ r ∈ rules, top.lhs ∉ r.rhs) {xs : List String}
    {ts : List (Tree Label)} {ws : List Word} (h : YieldsAll (top :: rules) xs ts ws)
    (hxs : top.lhs ∉ xs) : YieldsAll rules xs ts ws := by
  cases h with
  | nil => exact .nil
  | cons ht hts =>
    obtain ⟨hx, hxs⟩ := not_or.mp (mt List.mem_cons.mpr hxs)
    exact .cons (Yields.of_cons hunused ht (Ne.symm hx)) (YieldsAll.of_cons hunused hts hxs)

end

theorem Yields.elim {x : String} {t : Tree Label} {ws : List Word} (h : Yields rules x t ws) :
    (∃ w, x ∈ w.tags ∧ ws = [w]) ∨
      ∃ r ∈ rules, r.lhs = x ∧ ∃ ts, YieldsAll rules r.rhs ts ws := by
  cases h with
  | @word _ w htag => exact .inl ⟨w, htag, rfl⟩
  | @rule r ts _ hr hts => exact .inr ⟨r, hr, rfl, ts, hts⟩

theorem Grammar.exists_below {g : Grammar} {ws : List Word} {u : Tree Label}
    (hu : Yields (g.goal.rule :: g.rules) topSymbol u ws)
    (hlhs : ∀ r ∈ g.rules, r.lhs ≠ topSymbol) (htags : ∀ w ∈ ws, topSymbol ∉ w.tags) :
    ∃ t, u = Tree.word topSymbol [t] ∧ Yields (g.goal.rule :: g.rules) g.start t ws := by
  generalize htop : topSymbol = x at hu
  cases hu with
  | @word _ w htag => exact absurd (htop ▸ htag) (htags w List.mem_cons_self)
  | @rule r ts _ hr hts =>
    obtain rfl | hr := List.mem_cons.mp hr
    · have hbelow : YieldsAll (g.goal.rule :: g.rules) [g.start] ts ws := hts
      cases hbelow with
      | cons ht hnil =>
        cases hnil
        rw [List.append_nil]
        exact ⟨_, rfl, ht⟩
    · exact absurd htop.symm (hlhs r hr)

theorem Grammar.exists_yields {g : Grammar} {s : Sentence} {u : Tree Label} (hu : u ∈ g.trees s)
    (hlhs : ∀ r ∈ g.rules, r.lhs ≠ topSymbol) (hrhs : ∀ r ∈ g.rules, topSymbol ∉ r.rhs)
    (htags : ∀ w ∈ s.words, topSymbol ∉ w.tags) (hstart : g.start ≠ topSymbol) :
    ∃ t, Yields g.rules g.start t s.words := by
  obtain ⟨t, -, ht⟩ := exists_below (trees_sound hu) hlhs htags
  exact ⟨t, ht.of_cons hrhs hstart⟩

theorem Grammar.start_eq {g : Grammar} (h : g.start? ≠ some "") : g.start = g.start?.getD "S" := by
  rw [start]
  cases hs : g.start? with
  | none => rfl
  | some x =>
    have hx : x ≠ "" := fun hx => h (by rw [hs, hx])
    rw [Option.filter_some, if_pos (by simpa using hx)]

/-- Recognition accepts the sentences of the grammar and no others. The grammar has to leave alone
the symbol that recognition puts above the start symbol, on both sides of its rules. -/
theorem Grammar.completeRows_ne_nil_iff {g : Grammar} {s : Sentence}
    (hlhs : ∀ r ∈ g.rules, r.lhs ≠ topSymbol) (hrhs : ∀ r ∈ g.rules, topSymbol ∉ r.rhs)
    (htags : ∀ w ∈ s.words, topSymbol ∉ w.tags) (hstart : g.start? ≠ some "") :
    Recognition.completeRows (Recognition.charts g s) ≠ [] ↔
      ∃ t, Yields g.rules (g.start?.getD "S") t s.words := by
  rw [← start_eq hstart]
  constructor
  · intro h
    obtain ⟨r, hr⟩ := List.exists_mem_of_ne_nil _ h
    refine exists_yields (List.mem_map_of_mem hr) hlhs hrhs htags ?_
    rw [start_eq hstart, start?]
    cases hrules : g.rules with
    | nil => decide
    | cons r rs => exact hlhs r (by simp [hrules])
  · rintro ⟨t, ht⟩
    obtain ⟨u, hu⟩ := exists_tree ht
    obtain ⟨r, hr, -⟩ := List.mem_map.mp hu
    exact List.ne_nil_of_mem hr

/-- Rules with a cycle, with a symbol that may stand for nothing, and with one that starts with
itself. -/
def doubling : Grammar :=
  ⟨[⟨"S", ["S", "S"]⟩, ⟨"S", ["A"]⟩, ⟨"A", ["S"]⟩, ⟨"A", []⟩, ⟨"A", ["a"]⟩]⟩

theorem Grammar.completeRows_doubling :
    (∃ t, Yields doubling.rules "S" t [⟨"x", ["a", "b"]⟩, ⟨"y", ["a"]⟩]) ∧
      Recognition.completeRows
        (Recognition.charts doubling ⟨[⟨"x", ["a", "b"]⟩, ⟨"y", ["a"]⟩]⟩) ≠ [] := by
  have hone : ∀ w : Word, "a" ∈ w.tags → ∃ t, Yields doubling.rules "S" t [w] := fun w htag =>
    ⟨_, .rule (r := ⟨"S", ["A"]⟩) (by decide)
      (.cons (.rule (r := ⟨"A", ["a"]⟩) (by decide) (.cons (.word htag) .nil)) .nil)⟩
  obtain ⟨t, ht⟩ := hone ⟨"x", ["a", "b"]⟩ (by decide)
  obtain ⟨u, hu⟩ := hone ⟨"y", ["a"]⟩ (by decide)
  have htwo : ∃ t, Yields doubling.rules "S" t [⟨"x", ["a", "b"]⟩, ⟨"y", ["a"]⟩] :=
    ⟨_, .rule (r := ⟨"S", ["S", "S"]⟩) (by decide) (.cons ht (.cons hu .nil))⟩
  exact ⟨htwo, (completeRows_ne_nil_iff (g := doubling)
    (s := ⟨[⟨"x", ["a", "b"]⟩, ⟨"y", ["a"]⟩]⟩) (by decide) (by decide) (by decide) (by decide)).mpr
    htwo⟩

/-- A rule that reads the symbol above the start symbol. -/
def rereading : Grammar :=
  ⟨[⟨"S", ["γ", "b"]⟩, ⟨"S", ["a"]⟩]⟩

/-- The symbol above the start symbol has no rule, but where it is read, recognition takes a whole
sentence for it. -/
theorem Grammar.completeRows_rereading :
    (∀ r ∈ rereading.rules, r.lhs ≠ topSymbol) ∧
      (∀ w ∈ [(⟨"a", ["a"]⟩ : Word), ⟨"b", ["b"]⟩], topSymbol ∉ w.tags) ∧
      Recognition.completeRows
        (Recognition.charts rereading ⟨[⟨"a", ["a"]⟩, ⟨"b", ["b"]⟩]⟩) ≠ [] ∧
      ¬∃ t, Yields rereading.rules (rereading.start?.getD "S") t [⟨"a", ["a"]⟩, ⟨"b", ["b"]⟩] := by
  refine ⟨by decide, by decide, by decide +kernel, ?_⟩
  have honly : ∀ r ∈ rereading.rules, r.lhs = "S" := by decide
  rintro ⟨t, ht⟩
  obtain ⟨w, -, hw⟩ | ⟨r, hr, -, ts, hts⟩ := ht.elim
  · simp at hw
  generalize hws : [(⟨"a", ["a"]⟩ : Word), ⟨"b", ["b"]⟩] = ws at hts
  obtain rfl | rfl : r = ⟨"S", ["γ", "b"]⟩ ∨ r = ⟨"S", ["a"]⟩ := by simpa [rereading] using hr
  · cases hts with
    | cons htop _ =>
      obtain ⟨w, htag, rfl⟩ | ⟨r, hr, hlhs, -⟩ := htop.elim
      · simp only [List.singleton_append, List.cons.injEq] at hws
        simp [← hws.1] at htag
      · exact absurd ((honly r hr).symm.trans hlhs) (by decide)
  · cases hts with
    | cons hone hnil =>
      cases hnil
      obtain ⟨w, -, rfl⟩ | ⟨r, hr, hlhs, -⟩ := hone.elim
      · simp at hws
      · exact absurd ((honly r hr).symm.trans hlhs) (by decide)

end Language

end WhileSketch
