import Mathlib
import WhileSketch.Lambda.Pure
import WhileSketch.Lambda.Typed
import WhileSketch.Proofs.Grammar.Lookahead
import WhileSketch.Proofs.Lambda.Terms
import WhileSketch.Proofs.Lexing.Segments

/-! Derivations by the grammars of both dialects, and what becomes of their nodes. -/

namespace WhileSketch.Lambda

namespace Dialect

def language : Dialect → Language
  | .pure => Pure.language
  | .typed => Typed.language

def condenseWithin : Dialect → Nat → Tree Label → Except Fault (Tree Label)
  | .pure => Pure.condenseWithin
  | .typed => Typed.condenseWithin

def parse : Dialect → String → Except Fault (Option (Tree Label))
  | .pure => Pure.parse
  | .typed => Typed.parse

def parameterSymbol : Dialect → String
  | .pure => "L"
  | .typed => "A"

def rules (d : Dialect) : List Rule :=
  d.language.grammar.rules

def outcomes (d : Dialect) (x : String) : List (List String) :=
  (d.rules.filter (·.lhs == x)).map Rule.rhs

end Dialect

variable {d : Dialect}

section Tokens

def marks : List String :=
  ["let", "in", "\\", ".", "(", ")", "=", ":", "->"]

/-- Marks, names and numerals. -/
inductive IsToken : Word → Prop
  | mark {s : String} (hs : s ∈ marks) : IsToken (markWord s)
  | name {x : String} (hx : x.toList.all Text.isWordChar = true) : IsToken (nameWord x)
  | numeral {s : String} (hs : s.toList.all Text.isDigit = true) : IsToken (numeralWord s)

theorem isToken_of_mem {text : String} {w : Word} (hw : w ∈ d.language.tokens text) :
    IsToken w := by
  obtain ⟨k, hk, htags, hne, rest, hreach⟩ := Lexing.exists_class_of_mem hw
  have hkeyword : ∀ {texts : List String}, texts ⊆ marks →
      k = ⟨.keyword texts, none⟩ ∨ k = ⟨.spelling texts, none⟩ → IsToken w := by
    intro texts htexts hkind
    have hmem : w.text ∈ texts := by
      rw [← String.ofList_toList (s := w.text)]
      obtain rfl | rfl := hkind
      · exact Lexing.mem_of_reach_keyword hne hreach
      · exact Lexing.mem_of_reach_spelling hne hreach
    have hword : w = markWord w.text := by
      obtain rfl | rfl := hkind <;> exact congrArg (Word.mk w.text) htags
    rw [hword]
    exact .mark (htexts hmem)
  have hname : k = ⟨.name, some "id"⟩ → IsToken w := by
    rintro rfl
    have hword : w = nameWord w.text := congrArg (Word.mk w.text) htags
    rw [hword]
    exact .name (List.all_eq_true.mpr (Lexing.forall_isWordChar_of_reach_name hne hreach))
  have hnumeral : k = ⟨.numeral false, some "num"⟩ → IsToken w := by
    rintro rfl
    have hword : w = numeralWord w.text := congrArg (Word.mk w.text) htags
    rw [hword]
    exact .numeral (List.all_eq_true.mpr (Lexing.forall_isDigit_of_reach_numeral hne hreach))
  cases d with
  | pure =>
    simp only [Dialect.language, Pure.language, List.mem_cons, List.not_mem_nil, or_false] at hk
    obtain hk | hk | hk | hk := hk
    · exact hkeyword (by decide) (.inl hk)
    · exact hname hk
    · exact hnumeral hk
    · exact hkeyword (by decide) (.inr hk)
  | typed =>
    simp only [Dialect.language, Typed.language, List.mem_cons, List.not_mem_nil, or_false] at hk
    obtain hk | hk | hk | hk | hk := hk
    · exact hkeyword (by decide) (.inl hk)
    · exact hname hk
    · exact hnumeral hk
    · exact hkeyword (by decide) (.inr hk)
    · exact hkeyword (by decide) (.inr hk)

variable {x s : String} {t : Tree Label} {ws : List Word}

theorem IsToken.isWord (h : IsToken (nameWord x)) : x.toList.all Text.isWordChar = true := by
  generalize hw : nameWord x = w at h
  cases h with
  | @mark s hs =>
    have htags : "id" = s := by simpa using congrArg Word.tags hw
    exact absurd (htags ▸ hs) (by decide)
  | name hx =>
    obtain rfl : x = _ := congrArg Word.text hw
    exact hx
  | numeral _ => exact absurd (congrArg Word.tags hw) (by simp)

def terminals : List String :=
  "id" :: "num" :: marks

theorem IsToken.mem_terminals {w : Word} (hw : IsToken w) {tag : String} (htag : tag ∈ w.tags) :
    tag ∈ terminals := by
  cases hw with
  | mark hs =>
    rw [tags_markWord, List.mem_singleton] at htag
    exact List.mem_cons_of_mem _ (List.mem_cons_of_mem _ (htag ▸ hs))
  | name _ =>
    rw [tags_nameWord, List.mem_singleton] at htag
    simp [terminals, htag]
  | numeral _ =>
    rw [tags_numeralWord, List.mem_singleton] at htag
    simp [terminals, htag]

theorem isTerminal_of_mem (hx : x ∈ terminals) : d.language.grammar.isTerminal x = true := by
  have hall : ∀ x ∈ terminals, d.language.grammar.isTerminal x = true := by
    cases d <;> decide
  exact hall x hx

/-- What comes from a symbol comes from one of its outcomes. -/
theorem exists_outcome (h : Yields d.rules x t ws) (hws : ∀ w ∈ ws, IsToken w)
    (hx : x ∉ terminals) :
    ∃ rhs ∈ d.outcomes x, ∃ ts, t = Tree.word x ts ∧ YieldsAll d.rules rhs ts ws := by
  cases h with
  | @word _ w htag => exact absurd ((hws w (by simp)).mem_terminals htag) hx
  | @rule r ts _ hr hts =>
    refine ⟨r.rhs, ?_, ts, rfl, hts⟩
    exact List.mem_map.mpr ⟨r, List.mem_filter.mpr ⟨hr, by simp⟩, rfl⟩

theorem exists_only_outcome {rhs : List String} (hrhs : d.outcomes x = [rhs])
    (h : Yields d.rules x t ws) (hws : ∀ w ∈ ws, IsToken w) (hx : x ∉ terminals) :
    ∃ ts, t = Tree.word x ts ∧ YieldsAll d.rules rhs ts ws := by
  obtain ⟨rhs', hmem, ts, rfl, hts⟩ := exists_outcome h hws hx
  rw [hrhs, List.mem_singleton] at hmem
  exact ⟨ts, rfl, hmem ▸ hts⟩

theorem eq_mark (hs : s ∈ marks) (h : Yields d.rules s t ws) (hws : ∀ w ∈ ws, IsToken w) :
    t = markTree s ∧ ws = [markWord s] := by
  have hterminal : s ∈ terminals := List.mem_cons_of_mem _ (List.mem_cons_of_mem _ hs)
  obtain ⟨w, htag, rfl, rfl⟩ := h.of_isTerminal (isTerminal_of_mem hterminal)
  have hid : "id" ∉ marks := by decide
  have hnum : "num" ∉ marks := by decide
  cases hws w (by simp) with
  | mark _ =>
    rw [tags_markWord, List.mem_singleton] at htag
    subst htag
    exact ⟨rfl, rfl⟩
  | name _ =>
    rw [tags_nameWord, List.mem_singleton] at htag
    exact absurd (htag ▸ hs) hid
  | numeral _ =>
    rw [tags_numeralWord, List.mem_singleton] at htag
    exact absurd (htag ▸ hs) hnum

theorem exists_sides {x y : String} {ts : List (Tree Label)} (hs : s ∈ marks)
    (h : YieldsAll d.rules [x, s, y] ts ws) (hws : ∀ w ∈ ws, IsToken w) :
    ∃ t u vs us, ts = [t, markTree s, u] ∧ ws = vs ++ markWord s :: us ∧
      Yields d.rules x t vs ∧ Yields d.rules y u us ∧ (∀ w ∈ vs, IsToken w) ∧
      ∀ w ∈ us, IsToken w := by
  obtain ⟨t, m, u, vs, ms, us, rfl, rfl, ht, hm, hu⟩ := yieldsAll_three_iff.mp h
  simp only [List.forall_mem_append] at hws
  obtain ⟨hvs, hms, hus⟩ := hws
  obtain ⟨rfl, rfl⟩ := eq_mark hs hm hms
  exact ⟨t, u, vs, us, rfl, rfl, ht, hu, hvs, hus⟩

theorem exists_enclosed {s' : String} {ts : List (Tree Label)} (hs : s ∈ marks) (hs' : s' ∈ marks)
    (h : YieldsAll d.rules [s, x, s'] ts ws) (hws : ∀ w ∈ ws, IsToken w) :
    ∃ t vs, ts = [markTree s, t, markTree s'] ∧ ws = markWord s :: (vs ++ [markWord s']) ∧
      Yields d.rules x t vs ∧ ∀ w ∈ vs, IsToken w := by
  obtain ⟨m, t, m', ms, vs, ms', rfl, rfl, hm, ht, hm'⟩ := yieldsAll_three_iff.mp h
  simp only [List.forall_mem_append] at hws
  obtain ⟨hms, hvs, hms'⟩ := hws
  obtain ⟨rfl, rfl⟩ := eq_mark hs hm hms
  obtain ⟨rfl, rfl⟩ := eq_mark hs' hm' hms'
  exact ⟨t, vs, rfl, rfl, ht, hvs⟩

theorem exists_name (h : Yields d.rules "id" t ws) (hws : ∀ w ∈ ws, IsToken w) :
    ∃ x : String, x.toList.all Text.isWordChar = true ∧ t = nameTree x ∧
      ws = [nameWord x] := by
  obtain ⟨w, htag, rfl, rfl⟩ := h.of_isTerminal (isTerminal_of_mem (by decide))
  cases hws w (by simp) with
  | mark hs =>
    rw [tags_markWord, List.mem_singleton] at htag
    exact absurd (htag ▸ hs) (by decide)
  | @name x hx => exact ⟨x, hx, rfl, rfl⟩
  | numeral _ => simp at htag

theorem exists_numeral (h : Yields d.rules "num" t ws) (hws : ∀ w ∈ ws, IsToken w) :
    ∃ s : String, s.toList.all Text.isDigit = true ∧
      t = Tree.word "num" [Tree.word s []] ∧ ws = [numeralWord s] := by
  obtain ⟨w, htag, rfl, rfl⟩ := h.of_isTerminal (isTerminal_of_mem (by decide))
  cases hws w (by simp) with
  | mark hs =>
    rw [tags_markWord, List.mem_singleton] at htag
    exact absurd (htag ▸ hs) (by decide)
  | name _ => simp at htag
  | @numeral s hs => exact ⟨s, hs, rfl, rfl⟩

end Tokens

section Reading

/-- What is read from some words: the value, unless a name among them cannot be read. -/
def Dialect.reading {α : Type} (d : Dialect) (ws : List Word) (a : α) : Except Fault α :=
  if ws.any d.isUnread then .error .noSuchItem else .ok a

variable {α β : Type} {ws vs : List Word} {a : α} {b : β}

theorem isUnread_markWord {s : String} (hs : s ∈ marks) : d.isUnread (markWord s) = false := by
  have hid : s ≠ "id" := by
    rintro rfl
    exact absurd hs (by decide)
  simp [Dialect.isUnread, hid]

theorem reading_mark {s : String} (hs : s ∈ marks) (ws vs : List Word) (a : α) :
    d.reading (ws ++ markWord s :: vs) a = d.reading (ws ++ vs) a := by
  simp [Dialect.reading, isUnread_markWord hs]

theorem reading_enclosed {s s' : String} (hs : s ∈ marks) (hs' : s' ∈ marks) (ws : List Word)
    (a : α) : d.reading (markWord s :: (ws ++ [markWord s'])) a = d.reading ws a := by
  simp [Dialect.reading, isUnread_markWord hs, isUnread_markWord hs']

theorem reading_mark_cons {s : String} (hs : s ∈ marks) (ws : List Word) (a : α) :
    d.reading (markWord s :: ws) a = d.reading ws a :=
  reading_mark hs [] ws a

/-- The second of two steps is made only where the words of the first can be read. -/
theorem reading_bind_of_read {f : α → Except Fault β}
    (hf : ws.any d.isUnread = false → f a = d.reading vs b) :
    d.reading ws a >>= f = d.reading (ws ++ vs) b := by
  rw [Dialect.reading, Dialect.reading, List.any_append]
  cases hws : ws.any d.isUnread with
  | true => rfl
  | false => exact hf hws

theorem reading_bind {f : α → Except Fault β} (hf : f a = d.reading vs b) :
    d.reading ws a >>= f = d.reading (ws ++ vs) b :=
  reading_bind_of_read fun _ => hf

theorem reading_bind_ok {f : α → Except Fault β} (hf : f a = .ok b) :
    d.reading ws a >>= f = d.reading ws b := by
  have hall : d.reading ws a >>= f = d.reading (ws ++ []) b := reading_bind hf
  rwa [List.append_nil] at hall

theorem reading_map (f : α → β) : (do return f (← d.reading ws a)) = d.reading ws (f a) := by
  rw [Dialect.reading, Dialect.reading]
  split_ifs <;> rfl

theorem reading_map₂ {γ : Type} (f : α → β → γ) :
    (do let x ← d.reading ws a; return f x (← d.reading vs b)) = d.reading (ws ++ vs) (f a b) :=
  reading_bind (reading_map (f a))

theorem mapM_reading {f : α → Except Fault β} {as : List α} {bs : List β}
    (ha : f a = d.reading ws b) (has : as.mapM f = d.reading vs bs) :
    (a :: as).mapM f = d.reading (ws ++ vs) (b :: bs) := by
  rw [List.mapM_cons, ha]
  refine reading_bind ?_
  rw [has]
  exact reading_map _

theorem mapM_reading_one {f : α → Except Fault β} (ha : f a = d.reading ws b) :
    [a].mapM f = d.reading ws [b] := by
  have hnil : ([] : List α).mapM f = d.reading [] [] := rfl
  have hone := mapM_reading ha hnil
  rwa [List.append_nil] at hone

end Reading

section Condense

/-! What becomes of each form of derivation. -/

variable {n : Nat} {t : Tree Label}

theorem condense_level {x : String} (hx : x ∈ ["γ", "E", "E0", "E1", "E1'"]) :
    d.condenseWithin (n + 1) (Tree.word x [t]) = d.condenseWithin n t := by
  simp only [List.mem_cons, List.not_mem_nil, or_false] at hx
  cases d <;> obtain rfl | rfl | rfl | rfl | rfl := hx <;> rfl

theorem condense_brackets (ds us : List (Tree Label)) :
    d.condenseWithin (n + 1) (Tree.word "E0" [Tree.word "(" ds, t, Tree.word ")" us]) =
      d.condenseWithin n t := by
  cases d <;> rfl

theorem condense_primed (ts : List (Tree Label)) :
    d.condenseWithin (n + 1) (Tree.word "@'" ts) = do
      return Tree.word "@" (← ts.mapM (d.condenseWithin n)) := by
  cases d <;> rfl

theorem condense_kept {x : String} (hx : x ∈ "@" :: "let_" :: terminals)
    (ts : List (Tree Label)) :
    d.condenseWithin (n + 1) (Tree.word x ts) = do
      return Tree.word x (← ts.mapM (d.condenseWithin n)) := by
  simp only [terminals, marks, List.mem_cons, List.not_mem_nil, or_false] at hx
  cases d <;>
    obtain rfl | rfl | rfl | rfl | rfl | rfl | rfl | rfl | rfl | rfl | rfl | rfl | rfl := hx <;> rfl

/-- A leaf is kept, unless it is called like a node that is not. -/
theorem condense_leaf {x : String} (hx : x ∉ ["\\.", "@'", "L:T", "id:T", "T>"]) :
    d.condenseWithin (n + 1) (Tree.word x []) =
      if x ∈ d.unread then .error .noSuchItem else .ok (Tree.word (d.shown x) []) := by
  simp only [List.mem_cons, List.not_mem_nil, or_false, not_or] at hx
  obtain ⟨habs, happ, hgroup, hlet, harrow⟩ := hx
  by_cases hunread : x ∈ d.unread
  · rw [if_pos hunread]
    cases d <;> simp only [Dialect.unread, List.mem_cons, List.not_mem_nil, or_false] at hunread
    · subst hunread
      rfl
    · obtain rfl | rfl | rfl := hunread <;> rfl
  by_cases hdotted : x ∈ d.dotted
  · rw [if_neg hunread, Dialect.shown, if_pos hdotted]
    cases d <;> simp only [Dialect.dotted, List.mem_cons, List.not_mem_nil, or_false] at hdotted
    · subst hdotted
      rfl
    · obtain rfl | rfl := hdotted <;> rfl
  rw [if_neg hunread, Dialect.shown, if_neg hdotted]
  cases d with
  | pure =>
    simp only [Dialect.unread, Dialect.dotted, List.mem_singleton] at hunread hdotted
    simp [Dialect.condenseWithin, Pure.condenseWithin, Pure.isLevel, Pure.isBracketed, Tree.word,
      Label.isWord, Label.text?, hunread, hdotted, habs, happ, bind, Except.bind, pure, Except.pure]
  | typed =>
    simp only [Dialect.unread, Dialect.dotted, List.mem_cons, List.not_mem_nil, or_false,
      not_or] at hunread hdotted
    simp [Dialect.condenseWithin, Typed.condenseWithin, Typed.isLevel, Typed.isBracketed, Tree.word,
      Label.isWord, Label.text?, hunread, hdotted, habs, happ, hgroup, hlet, harrow, bind,
      Except.bind, pure, Except.pure]

theorem condense_mark {s : String} (hs : s ∈ marks) (hn : 2 ≤ n) :
    d.condenseWithin n (markTree s) = d.reading [markWord s] (markTree s) := by
  obtain ⟨n, rfl⟩ := Nat.exists_eq_add_of_le' hn
  have hleaf : ∀ s ∈ marks, s ∉ ["\\.", "@'", "L:T", "id:T", "T>"] ∧ s ∉ d.unread ∧
      d.shown s = s := by
    cases d <;> decide
  obtain ⟨hnode, hunread, hshown⟩ := hleaf s hs
  rw [reading_mark_cons hs, markTree, condense_kept (by simp [terminals, hs]), List.mapM_cons,
    condense_leaf hnode, if_neg hunread, hshown]
  rfl

theorem condense_name {x : String} (hx : x.toList.all Text.isWordChar = true) (hn : 2 ≤ n) :
    d.condenseWithin n (nameTree x) = d.reading [nameWord x] (nameTree (d.shown x)) := by
  obtain ⟨n, rfl⟩ := Nat.exists_eq_add_of_le' hn
  have hnode : x ∉ ["\\.", "@'", "L:T", "id:T", "T>"] := by
    intro hmem
    simp only [List.mem_cons, List.not_mem_nil, or_false] at hmem
    obtain rfl | rfl | rfl | rfl | rfl := hmem <;> exact absurd hx (by decide)
  have hunread : d.isUnread (nameWord x) = decide (x ∈ d.unread) := by
    simp [Dialect.isUnread, nameWord]
  rw [nameTree, condense_kept (by simp [terminals]), List.mapM_cons, condense_leaf hnode,
    Dialect.reading, List.any_cons, List.any_nil, Bool.or_false, hunread]
  by_cases hmem : x ∈ d.unread
  · rw [if_pos hmem, decide_eq_true hmem]
    rfl
  · rw [if_neg hmem, decide_eq_false hmem]
    rfl

theorem condense_numeral {s : String} (hs : s.toList.all Text.isDigit = true) (hn : 2 ≤ n) :
    d.condenseWithin n (Tree.word "num" [Tree.word s []]) =
      d.reading [numeralWord s] (Tree.word "num" [Tree.word s []]) := by
  obtain ⟨n, rfl⟩ := Nat.exists_eq_add_of_le' hn
  have hspecial : ∀ x ∈ ["\\.", "@'", "L:T", "id:T", "T>"] ++ d.unread ++ d.dotted,
      ¬ x.toList.all Text.isDigit = true := by
    cases d <;> decide
  have hnot : s ∉ ["\\.", "@'", "L:T", "id:T", "T>"] ++ d.unread ++ d.dotted := fun hmem =>
    hspecial s hmem hs
  simp only [List.mem_append, not_or] at hnot
  obtain ⟨⟨hnode, hunread⟩, hdotted⟩ := hnot
  rw [condense_kept (by simp [terminals]), List.mapM_cons, condense_leaf hnode, if_neg hunread,
    Dialect.shown, if_neg hdotted]
  rfl

end Condense

end WhileSketch.Lambda
