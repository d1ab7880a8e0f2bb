import Mathlib
import WhileSketch.Proofs.Grammar.SingleTree
import WhileSketch.Proofs.Lambda.Parameters
import WhileSketch.Proofs.Lambda.Spines

/-! What is read from a text whose tokens come from the symbol of terms: which names are kept, and
when the outcome is a term. -/

namespace WhileSketch.Lambda

variable {d : Dialect}

section Terms

variable {n : Nat} {t : Tree Label} {ws : List Word}

def Dialect.abstract (d : Dialect) (n : Nat) (body : Tree Label) (bs : List (Tree Label)) :
    Except Fault (Tree Label) :=
  if bs.isEmpty then do
    return .node body.root (← body.subtrees.mapM (d.condenseWithin n))
  else do
    let bs ← bs.mapM (d.condenseWithin n)
    return bs.foldr (fun b t => Tree.word "\\" [b, t]) (← d.condenseWithin n body)

theorem condense_abs_pure (m l m' body : Tree Label) :
    Dialect.condenseWithin .pure (n + 1) (Tree.word "\\." [m, l, m', body]) =
      Dialect.abstract .pure n body (l.split none) :=
  rfl

theorem condense_abs_typed (m a m' body : Tree Label) :
    Dialect.condenseWithin .typed (n + 1) (Tree.word "\\." [m, a, m', body]) =
      Dialect.condenseWithin .typed n a >>= fun u =>
        Dialect.abstract .typed n body (u.split none) :=
  rfl

theorem abstract_nil {c v : Tree Label} {vs : List Word}
    (hv : d.condenseWithin n c = d.reading vs v) :
    d.abstract n (Tree.word "E" [c]) [] = d.reading vs (abstraction [] v) := by
  have hone : [c].mapM (d.condenseWithin n) = d.reading vs [v] := mapM_reading_one hv
  change (do return Tree.word "E" (← [c].mapM (d.condenseWithin n))) = _
  rw [hone]
  exact reading_map _

theorem abstract_cons {body u : Tree Label} {bs bs' : List (Tree Label)} {us vs : List Word}
    (hne : bs ≠ []) (hne' : bs' ≠ []) (hbs : bs.mapM (d.condenseWithin n) = d.reading us bs')
    (hu : d.condenseWithin n body = d.reading vs u) :
    d.abstract n body bs = d.reading (us ++ vs) (abstraction bs' u) := by
  rw [Dialect.abstract, if_neg (by simpa using hne), hbs, hu, abstraction,
    if_neg (by simpa using hne')]
  exact reading_map₂ fun (bs : List (Tree Label)) t => bs.foldr (fun b t => Tree.word "\\" [b, t]) t

def termSymbols : List String :=
  ["E", "E1", "E1'", "E0", "\\.", "@", "@'", "let_"]

/-- What may stand around a term that comes from a symbol. -/
def symbolLevel (x : String) : Level :=
  if x = "E0" then .operand
  else if x ∈ ["E1", "@"] then .chain
  else if x = "\\." then .tail
  else .whole

/-- A term is read from a derivation, at the level of its symbol. -/
def ReadsTerm (d : Dialect) (n : Nat) (x : String) (t : Tree Label) (ws : List Word) : Prop :=
  ∃ u, d.condenseWithin n t = d.reading ws u ∧ (symbolLevel x).Reads d u ws

def ReadsTerms (d : Dialect) (n : Nat) : Prop :=
  ∀ {x t ws}, x ∈ termSymbols → t.size ≤ n → Yields d.rules x t ws → (∀ w ∈ ws, IsToken w) →
    ReadsTerm d n x t ws

/-- There is one part below a symbol that only says how tightly its parts bind. -/
theorem exists_part {x : String} (hx : x ∈ ["E", "E1", "E1'"]) (h : Yields d.rules x t ws)
    (hws : ∀ w ∈ ws, IsToken w) :
    ∃ y ∈ termSymbols, (symbolLevel y).fits (symbolLevel x) = true ∧
      ∃ c, t = Tree.word x [c] ∧ Yields d.rules y c ws := by
  have hterminal : ∀ x ∈ ["E", "E1", "E1'"], x ∉ terminals := by decide
  have houtcomes : ∀ x ∈ ["E", "E1", "E1'"], ∀ rhs ∈ d.outcomes x,
      ∃ y ∈ termSymbols, (symbolLevel y).fits (symbolLevel x) = true ∧ rhs = [y] := by
    cases d <;> decide
  obtain ⟨rhs, hrhs, ts, rfl, hts⟩ := exists_outcome h hws (hterminal x hx)
  obtain ⟨y, hy, hfits, rfl⟩ := houtcomes x hx rhs hrhs
  obtain ⟨c, rfl, hc⟩ := yieldsAll_one_iff.mp hts
  exact ⟨y, hy, hfits, c, rfl, hc⟩

theorem reading_abs {α : Type} (us vs : List Word) (a : α) :
    d.reading (markWord "\\" :: (us ++ markWord "." :: vs)) a = d.reading (us ++ vs) a := by
  rw [reading_mark_cons (by decide), reading_mark (by decide)]

theorem readsTerm_abs (ih : ReadsTerms d n) (hn : t.size ≤ n + 1)
    (h : Yields d.rules "\\." t ws) (hws : ∀ w ∈ ws, IsToken w) :
    ReadsTerm d (n + 1) "\\." t ws := by
  have houtcomes : d.outcomes "\\." = [["\\", d.parameterSymbol, ".", "E"]] := by
    cases d <;> decide
  obtain ⟨ts, rfl, hts⟩ := exists_only_outcome houtcomes h hws (by decide)
  obtain ⟨m, ts, ms, vs', rfl, rfl, hm, hrest⟩ := yieldsAll_cons_iff.mp hts
  obtain ⟨hms, hvs'⟩ := List.forall_mem_append.mp hws
  obtain ⟨rfl, rfl⟩ := eq_mark (by decide) hm hms
  obtain ⟨a, body, us, vs, rfl, rfl, ha, hbody, hus, hvs⟩ := exists_sides (by decide) hrest hvs'
  simp only [Tree.word, Tree.size, Tree.sizeList, markTree] at hn
  obtain ⟨u, hu, huu⟩ := ih (by simp [termSymbols]) (by omega) hbody hvs
  obtain ⟨y, hy, -, c, rfl, hc⟩ := exists_part (by simp) hbody hvs
  simp only [Tree.word, Tree.size, Tree.sizeList] at hn
  obtain ⟨v, hv, hvv⟩ := ih hy (by omega) hc hvs
  simp only [List.singleton_append]
  cases d with
  | pure =>
    obtain ⟨xs, rfl, hsplit, -, hsize⟩ := exists_names ha hus
    rw [ReadsTerm, condense_abs_pure, hsplit]
    simp only [reading_abs]
    cases xs with
    | nil => exact ⟨_, abstract_nil hv, reads_abs .nil hvv.whole⟩
    | cons x xs =>
      exact ⟨_, abstract_cons (by simp) (by simp) (mapM_names hus (by omega)) hu,
        reads_abs (bindersRead_names (x :: xs)) huu.whole⟩
  | typed =>
    obtain ⟨w, hw, -, hread⟩ := readsRows n (by simp [Dialect.parameterSymbol]) (by omega) ha hus
    have hlength := ha.length_le
    rw [ReadsTerm, condense_abs_typed, hw]
    simp only [reading_abs]
    cases hbs : w.split none with
    | nil =>
      rw [hbs] at hread
      exact ⟨_, reading_bind (hbs ▸ abstract_nil hv), reads_abs hread hvv.whole⟩
    | cons b bs =>
      refine ⟨_, reading_bind_of_read fun hlegible => ?_, reads_abs (hbs ▸ hread) huu.whole⟩
      have hsettled : (w.split none).mapM (Dialect.condenseWithin .typed n) =
          Dialect.reading .typed [] (w.split none) := hread.settled
        (fun w hw => ⟨hus w hw, by simpa using List.any_eq_false.mp hlegible w hw⟩) (by omega)
      rw [hbs] at hsettled ⊢
      exact abstract_cons (by simp) (by simp) hsettled hu

theorem exists_binder {x : String} (hx : x = "id" ∨ x = "id:T" ∧ d = .typed) (hn : t.size ≤ n)
    (h : Yields d.rules x t ws) (hws : ∀ w ∈ ws, IsToken w) :
    ∃ b, d.condenseWithin n t = d.reading ws b ∧ BindersRead d [b] ws := by
  obtain rfl | ⟨rfl, rfl⟩ := hx
  · obtain ⟨x, hx, rfl, rfl⟩ := exists_name h hws
    exact ⟨_, condense_name hx hn, .name x .nil⟩
  · have houtcomes : Dialect.outcomes .typed "id:T" = [["id", ":", "T"]] := by decide
    obtain ⟨ts, rfl, hts⟩ := exists_only_outcome houtcomes h hws (by decide)
    obtain ⟨t, u, vs, us, rfl, rfl, ht, hu, hvs, hus⟩ := exists_sides (by decide) hts hws
    obtain ⟨x, hx, rfl, rfl⟩ := exists_name ht hvs
    simp only [Tree.word, Tree.size, Tree.sizeList, markTree, nameTree] at hn
    obtain ⟨n, rfl⟩ : ∃ m, n = m + 1 := ⟨n - 1, by omega⟩
    obtain ⟨u', hu', huu⟩ := exists_type (n := n) (by simp) (by omega) hu hus
    refine ⟨Tree.word ":" [nameTree (Dialect.shown .typed x), u'], ?_, .last rfl [x] huu⟩
    rw [markTree, condense_sign (by simp), condense_name hx (by omega), hu']
    refine (reading_map₂ fun t u => Tree.word ":" [t, u]).trans ?_
    exact (reading_mark (by decide) [nameWord x] us _).symm

theorem readsTerm_let (ih : ReadsTerms d n) (hn : t.size ≤ n + 1)
    (h : Yields d.rules "let_" t ws) (hws : ∀ w ∈ ws, IsToken w) :
    ReadsTerm d (n + 1) "let_" t ws := by
  obtain ⟨rhs, hrhs, ts, rfl, hts⟩ := exists_outcome h hws (by decide)
  obtain ⟨y, hy, rfl⟩ : ∃ y, (y = "id" ∨ y = "id:T" ∧ d = .typed) ∧
      rhs = ["let", y, "=", "E", "in", "E"] := by
    cases d with
    | pure =>
      have houtcomes : Dialect.outcomes .pure "let_" = [["let", "id", "=", "E", "in", "E"]] := by
        decide
      rw [houtcomes, List.mem_singleton] at hrhs
      exact ⟨"id", .inl rfl, hrhs⟩
    | typed =>
      have houtcomes : Dialect.outcomes .typed "let_" =
          [["let", "id", "=", "E", "in", "E"], ["let", "id:T", "=", "E", "in", "E"]] := by
        decide
      simp only [houtcomes, List.mem_cons, List.not_mem_nil, or_false] at hrhs
      obtain hrhs | hrhs := hrhs
      · exact ⟨"id", .inl rfl, hrhs⟩
      · exact ⟨"id:T", .inr ⟨rfl, rfl⟩, hrhs⟩
  obtain ⟨m, ts, ms, ws, rfl, rfl, hm, hts⟩ := yieldsAll_cons_iff.mp hts
  obtain ⟨b, ts, bs, ws, rfl, rfl, hb, hts⟩ := yieldsAll_cons_iff.mp hts
  obtain ⟨m', ts, ms', ws, rfl, rfl, hm', hts⟩ := yieldsAll_cons_iff.mp hts
  obtain ⟨t, m'', u, vs, ms'', us, rfl, rfl, ht, hm'', hu⟩ := yieldsAll_three_iff.mp hts
  simp only [List.forall_mem_append] at hws
  obtain ⟨hms, hbs, hms', hvs, hms'', hus⟩ := hws
  obtain ⟨rfl, rfl⟩ := eq_mark (by decide) hm hms
  obtain ⟨rfl, rfl⟩ := eq_mark (by decide) hm' hms'
  obtain ⟨rfl, rfl⟩ := eq_mark (by decide) hm'' hms''
  simp only [Tree.word, Tree.size, Tree.sizeList, markTree] at hn
  obtain ⟨b', hb', hread⟩ := exists_binder (n := n) hy (by omega) hb hbs
  obtain ⟨t', ht', htt⟩ := ih (by simp [termSymbols]) (by omega) ht hvs
  obtain ⟨u', hu', huu⟩ := ih (by simp [termSymbols]) (by omega) hu hus
  refine ⟨_, ?_, ReadsOn.letIn hread htt.whole huu.whole⟩
  rw [condense_kept (by simp), mapM_reading (condense_mark (by decide) (by omega))
    (mapM_reading hb' (mapM_reading (condense_mark (by decide) (by omega)) (mapM_reading ht'
      (mapM_reading (condense_mark (by decide) (by omega)) (mapM_reading_one hu')))))]
  exact reading_map _

theorem readsTerm_operand (ih : ReadsTerms d n) (hn : t.size ≤ n + 1)
    (h : Yields d.rules "E0" t ws) (hws : ∀ w ∈ ws, IsToken w) :
    ReadsTerm d (n + 1) "E0" t ws := by
  obtain ⟨rhs, hrhs, ts, rfl, hts⟩ := exists_outcome h hws (by decide)
  have houtcomes : d.outcomes "E0" = [["id"], ["num"], ["(", "E", ")"]] := by cases d <;> decide
  simp only [houtcomes, List.mem_cons, List.not_mem_nil, or_false] at hrhs
  obtain rfl | rfl | rfl := hrhs
  · obtain ⟨t, rfl, ht⟩ := yieldsAll_one_iff.mp hts
    obtain ⟨x, hx, rfl, rfl⟩ := exists_name ht hws
    simp only [Tree.word, Tree.size, Tree.sizeList, nameTree] at hn
    exact ⟨_, (condense_level (by decide)).trans (condense_name hx (by omega)), reads_name x⟩
  · obtain ⟨t, rfl, ht⟩ := yieldsAll_one_iff.mp hts
    obtain ⟨s, hs, rfl, rfl⟩ := exists_numeral ht hws
    simp only [Tree.word, Tree.size, Tree.sizeList] at hn
    exact ⟨_, (condense_level (by decide)).trans (condense_numeral hs (by omega)),
      reads_numeral s⟩
  · obtain ⟨t, vs, rfl, rfl, ht, hvs⟩ := exists_enclosed (by decide) (by decide) hts hws
    simp only [Tree.word, Tree.size, Tree.sizeList] at hn
    obtain ⟨u, hu, huu⟩ := ih (by simp [termSymbols]) (by omega) ht hvs
    refine ⟨u, ?_, reads_brackets huu.whole⟩
    rw [markTree, markTree, condense_brackets, hu, reading_enclosed (by decide) (by decide)]

theorem readsTerm_level (ih : ReadsTerms d n) {x : String} (hx : x ∈ ["E", "E1", "E1'"])
    (hn : t.size ≤ n + 1) (h : Yields d.rules x t ws) (hws : ∀ w ∈ ws, IsToken w) :
    ReadsTerm d (n + 1) x t ws := by
  have hlevel : ∀ x ∈ ["E", "E1", "E1'"], x ∈ ["γ", "E", "E0", "E1", "E1'"] := by decide
  obtain ⟨y, hy, hfits, c, rfl, hc⟩ := exists_part hx h hws
  simp only [Tree.word, Tree.size, Tree.sizeList] at hn
  obtain ⟨u, hu, huu⟩ := ih hy (by omega) hc hws
  exact ⟨u, (condense_level (hlevel x hx)).trans hu, huu.fit hfits⟩

theorem readsTerm_app (ih : ReadsTerms d n) {x : String} (hx : x ∈ ["@", "@'"])
    (hn : t.size ≤ n + 1) (h : Yields d.rules x t ws) (hws : ∀ w ∈ ws, IsToken w) :
    ReadsTerm d (n + 1) x t ws := by
  have hterminal : ∀ x ∈ ["@", "@'"], x ∉ terminals := by decide
  have houtcomes : ∀ x ∈ ["@", "@'"], ∀ rhs ∈ d.outcomes x, ∃ y ∈ termSymbols,
      (x = "@" ∧ y = "E0" ∨ x = "@'" ∧ y = "\\.") ∧ rhs = ["E1", y] := by
    cases d <;> decide
  have hcondense : ∀ ts : List (Tree Label), d.condenseWithin (n + 1) (Tree.word x ts) = do
      return Tree.word "@" (← ts.mapM (d.condenseWithin n)) := by
    simp only [List.mem_cons, List.not_mem_nil, or_false] at hx
    obtain rfl | rfl := hx
    · exact condense_kept (by simp)
    · exact condense_primed
  obtain ⟨rhs, hrhs, ts, rfl, hts⟩ := exists_outcome h hws (hterminal x hx)
  obtain ⟨y, hy, hxy, rfl⟩ := houtcomes x hx rhs hrhs
  obtain ⟨t, u, vs, us, rfl, rfl, ht, hu⟩ := yieldsAll_two_iff.mp hts
  obtain ⟨hvs, hus⟩ := List.forall_mem_append.mp hws
  simp only [Tree.word, Tree.size, Tree.sizeList] at hn
  obtain ⟨t', ht', htt⟩ := ih (by simp [termSymbols]) (by omega) ht hvs
  obtain ⟨u', hu', huu⟩ := ih hy (by omega) hu hus
  refine ⟨Tree.word "@" [t', u'], ?_, ?_⟩
  · rw [hcondense, mapM_reading ht' (mapM_reading_one hu')]
    exact reading_map _
  · obtain ⟨rfl, rfl⟩ | ⟨rfl, rfl⟩ := hxy
    · exact reads_app htt huu
    · exact reads_app_tail htt huu

theorem readsTerms (d : Dialect) (n : Nat) : ReadsTerms d n := by
  induction n with
  | zero =>
    intro x t ws _ hn
    rw [Tree.size_eq] at hn
    omega
  | succ n ih =>
    intro x t ws hx hn h hws
    simp only [termSymbols, List.mem_cons, List.not_mem_nil, or_false] at hx
    obtain rfl | rfl | rfl | rfl | rfl | rfl | rfl | rfl := hx
    · exact readsTerm_level ih (by simp) hn h hws
    · exact readsTerm_level ih (by simp) hn h hws
    · exact readsTerm_level ih (by simp) hn h hws
    · exact readsTerm_operand ih hn h hws
    · exact readsTerm_abs ih hn h hws
    · exact readsTerm_app ih (by simp) hn h hws
    · exact readsTerm_app ih (by simp) hn h hws
    · exact readsTerm_let ih hn h hws

end Terms

section Parsing

variable {text : String} {t : Tree Label}

/-! The grammars leave alone the symbol that is put above that of terms. -/

theorem lhs_ne_topSymbol (d : Dialect) : ∀ r ∈ d.rules, r.lhs ≠ Grammar.topSymbol := by
  cases d <;> decide

theorem topSymbol_notMem_rhs (d : Dialect) : ∀ r ∈ d.rules, Grammar.topSymbol ∉ r.rhs := by
  cases d <;> decide

theorem topSymbol_notMem_tags (d : Dialect) (text : String) :
    ∀ w ∈ d.language.tokens text, Grammar.topSymbol ∉ w.tags := by
  intro w hw htag
  exact absurd ((isToken_of_mem hw).mem_terminals htag) (by decide)

theorem start_eq (d : Dialect) : d.language.grammar.start = "E" := by
  cases d <;> decide

theorem exists_derivation (h : Yields d.rules "E" t (d.language.tokens text)) :
    ∃ u, d.language.derive? text = some (Tree.word "γ" [u]) ∧
      Yields d.rules "E" u (d.language.tokens text) := by
  obtain ⟨v, hv⟩ := Grammar.exists_tree (g := d.language.grammar) (s := ⟨d.language.tokens text⟩)
    (start_eq d ▸ h)
  obtain ⟨r, hr, -⟩ := List.mem_map.mp hv
  obtain ⟨u, htrees, -, hu⟩ := Grammar.trees_eq_singleton (s := ⟨d.language.tokens text⟩)
    (lhs_ne_topSymbol d) (topSymbol_notMem_tags d text) (List.ne_nil_of_mem hr)
  refine ⟨u, ?_, start_eq d ▸ hu (topSymbol_notMem_rhs d)⟩
  rw [Language.derive?, htrees]
  rfl

/-- The tokens of a text with a derivation come from the symbol of terms. -/
theorem exists_yields_of_derive (d : Dialect) (text : String)
    (h : (d.language.derive? text).isSome = true) :
    ∃ t, Yields d.rules "E" t (d.language.tokens text) := by
  obtain ⟨u, hu⟩ := Option.isSome_iff_exists.mp h
  rw [← start_eq d]
  exact Grammar.exists_yields (s := ⟨d.language.tokens text⟩) (List.mem_of_head? hu)
    (lhs_ne_topSymbol d) (topSymbol_notMem_rhs d) (topSymbol_notMem_tags d text)
    (by rw [start_eq d]; decide)

/-- The steps that are given to the reader are enough for a derivation. -/
theorem exists_parse_eq {u : Tree Label}
    (h : d.language.derive? text = some (Tree.word "γ" [u])) :
    ∃ n, u.size ≤ n ∧ d.parse text = do return some (← d.condenseWithin n u) := by
  have hsize : (Tree.word "γ" [u]).size = u.size + 1 := by
    simp only [Tree.word, Tree.size, Tree.sizeList]
    omega
  have hlevel : ∀ n, d.condenseWithin (n + 1) (Tree.word "γ" [u]) = d.condenseWithin n u :=
    fun n => condense_level (by simp)
  cases d with
  | pure =>
    refine ⟨u.size, le_rfl, ?_⟩
    have hparse : Dialect.parse .pure text = (Pure.language.derive? text).mapM
        fun t => Dialect.condenseWithin .pure t.size t := rfl
    rw [hparse, show Pure.language.derive? text = _ from h, ← hlevel, ← hsize]
    rfl
  | typed =>
    refine ⟨2 * u.size + 1, by omega, ?_⟩
    have hparse : Dialect.parse .typed text = (Typed.language.derive? text).mapM
        fun t => Dialect.condenseWithin .typed (2 * t.size) t := rfl
    have htwice : 2 * u.size + 1 + 1 = 2 * (Tree.word "γ" [u]).size := by omega
    rw [hparse, show Typed.language.derive? text = _ from h, ← hlevel, htwice]
    rfl

/-- What a text is read as whose tokens come from the symbol of terms, word by word. -/
theorem exists_parse_readsOn (h : Yields d.rules "E" t (d.language.tokens text)) :
    ∃ u, d.parse text = d.reading (d.language.tokens text) (some u) ∧
      ReadsOn d none u (d.language.tokens text) := by
  have hws : ∀ w ∈ d.language.tokens text, IsToken w := fun w hw => isToken_of_mem hw
  obtain ⟨u, hderive, hu⟩ := exists_derivation h
  obtain ⟨n, hn, hparse⟩ := exists_parse_eq hderive
  obtain ⟨v, hv, hreads⟩ := readsTerms d n (by simp [termSymbols]) hn hu hws
  refine ⟨v, ?_, hreads.whole⟩
  rw [hparse, hv]
  exact reading_map some

theorem exists_parse (h : Yields d.rules "E" t (d.language.tokens text)) :
    ∃ u, d.parse text = d.reading (d.language.tokens text) (some u) ∧
      TermReads d u (d.language.tokens text) := by
  obtain ⟨u, hparse, hreads⟩ := exists_parse_readsOn h
  exact ⟨u, hparse, hreads.extends⟩

theorem any_isUnread_iff (d : Dialect) (ws : List Word) :
    ws.any d.isUnread = true ↔ ∃ x ∈ d.unread, nameWord x ∈ ws := by
  rw [List.any_eq_true]
  constructor
  · rintro ⟨w, hw, hunread⟩
    simp only [Dialect.isUnread, Bool.and_eq_true, beq_iff_eq, List.contains_iff_mem] at hunread
    have hname : w = nameWord w.text := congrArg (Word.mk w.text) hunread.1
    exact ⟨w.text, hunread.2, hname ▸ hw⟩
  · rintro ⟨x, hx, hmem⟩
    exact ⟨nameWord x, hmem, by simp [Dialect.isUnread, nameWord, hx]⟩

theorem map_shownWord_eq_iff (d : Dialect) (ws : List Word) :
    (wordAtoms ws).map d.shownWord = wordAtoms ws ↔ ∀ x ∈ d.dotted, nameWord x ∉ ws := by
  have hdot : "." ∉ d.dotted := by cases d <;> decide
  nth_rewrite 2 [← List.map_id (wordAtoms ws)]
  rw [List.map_inj_left]
  constructor
  · intro h x hx hmem
    have hword : d.shownWord (nameWord x) = nameWord x :=
      h (nameWord x) (List.mem_filter.mpr ⟨hmem, by simp⟩)
    have hshown : d.shown x = x := congrArg Word.text hword
    rw [Dialect.shown, if_pos hx] at hshown
    exact hdot (hshown ▸ hx)
  · intro h w hw
    obtain ⟨hmem, -⟩ := List.mem_filter.mp hw
    rw [Dialect.shownWord, id]
    split_ifs with htags
    · have hname : w = nameWord w.text := congrArg (Word.mk w.text) htags
      have hkept : w.text ∉ d.dotted := fun hx => h w.text hx (hname ▸ hmem)
      rw [Dialect.shown, if_neg hkept, ← hname]
    · rfl

/-- A text whose tokens come from the symbol of terms is not read if one of a few names is among
them. Otherwise its names and numerals outside types are those of the term, except for a few more
names that come out as dots, and it is a well formed term just where each abstraction has a
parameter. -/
theorem parse_of_yields (d : Dialect) {text : String} {t : Tree Label}
    (h : Yields d.rules "E" t (d.language.tokens text)) :
    ((∃ x ∈ d.unread, nameWord x ∈ d.language.tokens text) → d.parse text = .error .noSuchItem) ∧
    ((∀ x ∈ d.unread, nameWord x ∉ d.language.tokens text) → ∃ u, d.parse text = .ok (some u) ∧
      atoms u = (wordAtoms (outside none (d.language.tokens text))).map d.shownWord ∧
      (atoms u = wordAtoms (outside none (d.language.tokens text)) ↔
        ∀ x ∈ d.dotted, nameWord x ∉ outside none (d.language.tokens text)) ∧
      (IsTerm d u ↔ bindsNames (outside none (d.language.tokens text)) = true)) := by
  obtain ⟨u, hparse, hreads⟩ := exists_parse h
  constructor
  · intro hunread
    rw [hparse, Dialect.reading, if_pos ((any_isUnread_iff d _).mpr hunread)]
  · intro hread
    have hnone : ¬ (d.language.tokens text).any d.isUnread = true := by
      rw [any_isUnread_iff]
      rintro ⟨x, hx, hmem⟩
      exact hread x hx hmem
    refine ⟨u, ?_, hreads.outline.atoms_eq, ?_, ?_⟩
    · rw [hparse, Dialect.reading, if_neg hnone]
    · rw [hreads.outline.atoms_eq, map_shownWord_eq_iff]
    · have hbinds := hreads.outline.bindsNames_iff []
      rw [List.append_nil] at hbinds
      simp [hbinds, bindsNames]

def grouped : String :=
  "\\f (x y : L). f 3"

theorem parse_of_yields_grouped :
    (∃ t, Yields (Dialect.rules .typed) "E" t (Typed.language.tokens grouped)) ∧
    (∀ x ∈ Dialect.unread .typed, nameWord x ∉ Typed.language.tokens grouped) ∧
    ∃ u, Typed.parse grouped = .ok (some u) ∧ IsTerm .typed u ∧
      atoms u = [nameWord "f", nameWord "x", nameWord "y", nameWord "f", numeralWord "3"] := by
  obtain ⟨t, ht⟩ := exists_yields_of_derive .typed grouped (by decide +kernel)
  have hread : ∀ x ∈ Dialect.unread .typed, nameWord x ∉ Typed.language.tokens grouped := by
    decide +kernel
  obtain ⟨u, hparse, hatoms, -, hterm⟩ := (parse_of_yields .typed ht).2 hread
  refine ⟨⟨t, ht⟩, hread, u, hparse, hterm.mpr (by decide +kernel), hatoms.trans ?_⟩
  decide +kernel

/-- A parameter called like the symbol of parameters comes out as a dot, a variable called like a
symbol of terms is not read, and an abstraction without parameters leaves a node that is no term. -/
theorem parse_pure_not_faithful :
    (Pure.parse "\\L. L").toOption.join.map atoms = some [nameWord ".", nameWord "."] ∧
    ((∃ t, Yields (Dialect.rules .pure) "E" t (Pure.language.tokens "E0")) ∧
      Pure.parse "E0" = .error .noSuchItem) ∧
    ∃ u, Pure.parse "\\. x" = .ok (some u) ∧ ¬ IsTerm .pure u := by
  refine ⟨by decide +kernel, ?_, ?_⟩
  · obtain ⟨t, ht⟩ := exists_yields_of_derive .pure "E0" (by decide +kernel)
    obtain ⟨u, hparse, -⟩ := exists_parse ht
    refine ⟨⟨t, ht⟩, hparse.trans ?_⟩
    rw [Dialect.reading, if_pos (by decide +kernel)]
  · obtain ⟨t, ht⟩ := exists_yields_of_derive .pure "\\. x" (by decide +kernel)
    obtain ⟨u, hparse, hreads⟩ := exists_parse ht
    refine ⟨u, hparse.trans ?_, ?_⟩
    · rw [Dialect.reading, if_neg (by decide +kernel)]
    · intro hterm
      have hbinds := (hreads.outline.bindsNames_iff []).mpr ⟨hterm, rfl⟩
      exact absurd hbinds (by decide +kernel)

end Parsing

end WhileSketch.Lambda
