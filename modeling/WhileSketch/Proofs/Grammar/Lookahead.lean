import Mathlib
import WhileSketch.Proofs.Grammar.Derivations

/-! A check by which a grammar gives each sentence at most one derivation. It takes a table of the
categories with which each symbol can go on, and asks that wherever two rules for a symbol part, the
next word tells which of them it is. -/

namespace WhileSketch

namespace Grammar

variable (g : Grammar)

def isTerminal (x : String) : Bool :=
  g.rules.all (·.lhs != x)

/-- Whether two right sides are the same, or part where the next word tells them apart: both go on
with different categories, or only one goes on, with one of the given categories. -/
def parts (tags : List String) : List String → List String → Bool
  | [], [] => true
  | [], y :: _ => g.isTerminal y && tags.contains y
  | x :: _, [] => g.isTerminal x && tags.contains x
  | x :: xs, y :: ys => if x = y then parts tags xs ys else g.isTerminal x && g.isTerminal y

/-- Whether no symbol of a right side can go on with what follows it: the next symbol, or behind the
last one whatever the whole cannot go on with. -/
def seams (goesOn : String → List String) (z : String) : List String → Bool
  | [] => true
  | [x] => (goesOn x).all (goesOn z).contains
  | x :: y :: ys =>
    ((goesOn x).isEmpty || g.isTerminal y && !(goesOn x).contains y) && seams goesOn z (y :: ys)

/-- Whether one word ahead is enough to tell the rules of each symbol apart. -/
def looksAhead (goesOn : String → List String) : Bool :=
  g.rules.all fun r => g.seams goesOn r.lhs r.rhs &&
    g.rules.all fun r' => r.lhs != r'.lhs || g.parts (goesOn r.lhs) r.rhs r'.rhs

/-- A word of a single category, for which there is no rule. -/
def Plain (w : Word) : Prop :=
  ∃ tag, w.tags = [tag] ∧ g.isTerminal tag = true

end Grammar

def Stops (tags : List String) (ws : List Word) : Prop :=
  ∀ w ∈ ws.head?, ∀ tag ∈ w.tags, tag ∉ tags

theorem stops_nil (tags : List String) : Stops tags [] := by
  intro w hw
  cases hw

theorem Stops.mono {tags tags' : List String} {ws : List Word} (h : Stops tags ws)
    (hsub : ∀ tag ∈ tags', tag ∈ tags) : Stops tags' ws :=
  fun w hw tag htag hmem => h w hw tag htag (hsub tag hmem)

section Unique

variable {g : Grammar} {goesOn : String → List String}

theorem Grammar.looksAhead_seams (h : g.looksAhead goesOn = true) {r : Rule} (hr : r ∈ g.rules) :
    g.seams goesOn r.lhs r.rhs = true := by
  have hall := List.all_eq_true.mp h r hr
  exact (Bool.and_eq_true_iff.mp hall).1

theorem Grammar.looksAhead_parts (h : g.looksAhead goesOn = true) {r r' : Rule} (hr : r ∈ g.rules)
    (hr' : r' ∈ g.rules) (hlhs : r'.lhs = r.lhs) :
    g.parts (goesOn r.lhs) r.rhs r'.rhs = true := by
  have hall := List.all_eq_true.mp h r hr
  have hpair := List.all_eq_true.mp (Bool.and_eq_true_iff.mp hall).2 r' hr'
  simpa [hlhs] using hpair

theorem Yields.of_isTerminal {x : String} {t : Tree Label} {ws : List Word}
    (h : Yields g.rules x t ws) (hx : g.isTerminal x = true) :
    ∃ w, x ∈ w.tags ∧ ws = [w] ∧ t = Tree.word x [Tree.word w.text []] := by
  cases h with
  | @word _ w htag => exact ⟨w, htag, rfl, rfl⟩
  | @rule r _ _ hr _ =>
    have hne := List.all_eq_true.mp hx r hr
    simp at hne

theorem Grammar.Plain.lhs_not_mem {w : Word} (hw : g.Plain w) {r : Rule} (hr : r ∈ g.rules) :
    r.lhs ∉ w.tags := by
  obtain ⟨tag, htags, hterminal⟩ := hw
  have hne := List.all_eq_true.mp hterminal r hr
  simpa [htags] using hne

theorem Grammar.Plain.eq_of_mem {w : Word} (hw : g.Plain w) {x y : String} (hx : x ∈ w.tags)
    (hy : y ∈ w.tags) : x = y := by
  obtain ⟨tag, htags, -⟩ := hw
  rw [htags, List.mem_singleton] at hx hy
  rw [hx, hy]

theorem Yields.not_stops {x : String} {tags : List String} {t : Tree Label} {us ws : List Word}
    (h : Yields g.rules x t us) (hx : (g.isTerminal x && tags.contains x) = true) :
    ¬ Stops tags (us ++ ws) := by
  rw [Bool.and_eq_true] at hx
  obtain ⟨w, htag, rfl, -⟩ := h.of_isTerminal hx.1
  exact fun hstops => hstops w rfl x htag (List.contains_iff_mem.mp hx.2)

theorem Yields.append_ne {x x' : String} {t t' : Tree Label} {us us' rest rest' : List Word}
    (h : Yields g.rules x t us) (h' : Yields g.rules x' t' us')
    (hterminal : (g.isTerminal x && g.isTerminal x') = true) (hne : x ≠ x')
    (hplain : ∀ w ∈ us ++ rest, g.Plain w) : us ++ rest ≠ us' ++ rest' := by
  rw [Bool.and_eq_true] at hterminal
  obtain ⟨w, htag, rfl, -⟩ := h.of_isTerminal hterminal.1
  obtain ⟨w', htag', rfl, -⟩ := h'.of_isTerminal hterminal.2
  intro heq
  obtain ⟨rfl, -⟩ := List.cons.inj heq
  exact hne ((hplain w List.mem_cons_self).eq_of_mem htag htag')

theorem YieldsAll.stops_cons {y : String} {ys tags : List String} {ts : List (Tree Label)}
    {ws rest : List Word} (h : YieldsAll g.rules (y :: ys) ts ws) (hy : g.isTerminal y = true)
    (hmem : y ∉ tags) (hplain : ∀ w ∈ ws, g.Plain w) : Stops tags (ws ++ rest) := by
  cases h with
  | cons ht hts =>
    obtain ⟨w, htag, rfl, -⟩ := ht.of_isTerminal hy
    rintro v ⟨⟩ tag hv
    rwa [(hplain w (by simp)).eq_of_mem hv htag]

/-- A symbol of a right side cannot go on with what comes from the symbols behind it. -/
theorem YieldsAll.stops {x z : String} {xs : List String} {ts : List (Tree Label)}
    {ws rest : List Word} (h : YieldsAll g.rules xs ts ws)
    (hseams : g.seams goesOn z (x :: xs) = true) (hplain : ∀ w ∈ ws, g.Plain w)
    (hrest : Stops (goesOn z) rest) : Stops (goesOn x) (ws ++ rest) := by
  cases xs with
  | nil =>
    cases h
    refine hrest.mono fun tag htag => ?_
    simpa using List.all_eq_true.mp hseams tag htag
  | cons y ys =>
    rw [Grammar.seams, Bool.and_eq_true, Bool.or_eq_true, Bool.and_eq_true] at hseams
    obtain hnone | ⟨hy, hmem⟩ := hseams.1
    · rw [List.isEmpty_iff.mp hnone]
      exact fun w _ tag _ => List.not_mem_nil
    · exact h.stops_cons hy (by simpa using hmem) hplain

theorem Grammar.seams_tail {x z : String} {xs : List String}
    (h : g.seams goesOn z (x :: xs) = true) : g.seams goesOn z xs = true := by
  cases xs with
  | nil => rfl
  | cons y ys =>
    rw [Grammar.seams, Bool.and_eq_true] at h
    exact h.2

mutual

/-- Of two derivations from one symbol that read the same words, as far as they go, each ends where
the other one does, if the symbol cannot go on with what either leaves over. -/
theorem Yields.eq_of_append (hg : g.looksAhead goesOn = true) {x : String} {t t' : Tree Label}
    {us us' rest rest' : List Word} (h : Yields g.rules x t us) (h' : Yields g.rules x t' us')
    (heq : us ++ rest = us' ++ rest') (hplain : ∀ w ∈ us ++ rest, g.Plain w)
    (hrest : Stops (goesOn x) rest) (hrest' : Stops (goesOn x) rest') : t = t' ∧ us = us' := by
  cases h with
  | @word _ w htag =>
    have hw : g.Plain w := hplain w (by simp)
    generalize hx : x = y at h'
    cases h' with
    | @word _ w' htag' =>
      obtain ⟨rfl, -⟩ := List.cons.inj heq
      exact ⟨rfl, rfl⟩
    | @rule r ts' _ hr hts' => exact absurd (hx ▸ htag) (hw.lhs_not_mem hr)
  | @rule r ts _ hr hts =>
    generalize hx : r.lhs = y at h'
    cases h' with
    | @word _ w' htag' =>
      have hw' : g.Plain w' := hplain w' (by rw [heq]; simp)
      exact absurd (hx ▸ htag') (hw'.lhs_not_mem hr)
    | @rule r' ts' _ hr' hts' =>
      obtain ⟨rfl, rfl⟩ := YieldsAll.eq_of_append hg hts hts' (g.looksAhead_parts hg hr hr' hx.symm)
        (g.looksAhead_seams hg hr) (hx ▸ g.looksAhead_seams hg hr') heq hplain hrest hrest'
      exact ⟨rfl, rfl⟩

theorem YieldsAll.eq_of_append (hg : g.looksAhead goesOn = true) {z : String} {xs xs' : List String}
    {ts ts' : List (Tree Label)} {us us' rest rest' : List Word} (h : YieldsAll g.rules xs ts us)
    (h' : YieldsAll g.rules xs' ts' us') (hparts : g.parts (goesOn z) xs xs' = true)
    (hseams : g.seams goesOn z xs = true) (hseams' : g.seams goesOn z xs' = true)
    (heq : us ++ rest = us' ++ rest') (hplain : ∀ w ∈ us ++ rest, g.Plain w)
    (hrest : Stops (goesOn z) rest) (hrest' : Stops (goesOn z) rest') : ts = ts' ∧ us = us' := by
  cases h with
  | nil =>
    cases h' with
    | nil => exact ⟨rfl, rfl⟩
    | cons ht' hts' =>
      rw [List.nil_append, List.append_assoc] at heq
      exact absurd (heq ▸ hrest) (ht'.not_stops hparts)
  | @cons x xs t ts us us₂ ht hts =>
    cases h' with
    | nil =>
      rw [List.nil_append, List.append_assoc] at heq
      exact absurd (heq ▸ hrest') (ht.not_stops hparts)
    | @cons x' xs' t' ts' us' us₂' ht' hts' =>
      rw [List.append_assoc, List.append_assoc] at heq
      rw [List.append_assoc] at hplain
      rw [Grammar.parts] at hparts
      split_ifs at hparts with hx
      · subst hx
        have hplain' : ∀ w ∈ us' ++ (us₂' ++ rest'), g.Plain w := heq ▸ hplain
        have hstops : Stops (goesOn x) (us₂ ++ rest) :=
          hts.stops hseams (fun w hw => hplain w (by simp [hw])) hrest
        have hstops' : Stops (goesOn x) (us₂' ++ rest') :=
          hts'.stops hseams' (fun w hw => hplain' w (by simp [hw])) hrest'
        obtain ⟨rfl, rfl⟩ := Yields.eq_of_append hg ht ht' heq hplain hstops hstops'
        obtain ⟨rfl, rfl⟩ := YieldsAll.eq_of_append hg hts hts' hparts (g.seams_tail hseams)
          (g.seams_tail hseams') (List.append_cancel_left heq)
          (fun w hw => hplain w (List.mem_append_right us hw)) hrest hrest'
        exact ⟨rfl, rfl⟩
      · exact absurd heq (ht.append_ne ht' hparts hx hplain)

end

/-- Plain words have at most one derivation from a symbol. -/
theorem Yields.unique (hg : g.looksAhead goesOn = true) {x : String} {t t' : Tree Label}
    {ws : List Word} (h : Yields g.rules x t ws) (h' : Yields g.rules x t' ws)
    (hplain : ∀ w ∈ ws, g.Plain w) : t = t' := by
  have hsame : ws ++ [] = ws ++ [] := rfl
  exact (Yields.eq_of_append hg h h' hsame (by simpa using hplain) (stops_nil _) (stops_nil _)).1

end Unique

end WhileSketch
