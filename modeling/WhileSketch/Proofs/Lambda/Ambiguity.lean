import Mathlib
import WhileSketch.Proofs.Lambda.Parsing

/-! A row of tokens may have several derivations, but all of them are read as the same term. A
single operand comes from two symbols, and apart from that each word tells what comes next. -/

namespace WhileSketch.Lambda

variable {d : Dialect}

section Alike

/-! ### Derivations that are read alike -/

/-- Derivations of the same size that are read alike, however many steps the reader takes. -/
structure Alike (d : Dialect) (t u : Tree Label) : Prop where
  size_eq : t.size = u.size
  condense_eq : ∀ n, d.condenseWithin n t = d.condenseWithin n u

variable {t t' u u' v : Tree Label} {x y : String}

namespace Alike

theorem refl (t : Tree Label) : Alike d t t :=
  ⟨rfl, fun _ => rfl⟩

theorem symm (h : Alike d t u) : Alike d u t :=
  ⟨h.size_eq.symm, fun n => (h.condense_eq n).symm⟩

theorem trans (h : Alike d t u) (h' : Alike d u v) : Alike d t v :=
  ⟨h.size_eq.trans h'.size_eq, fun n => (h.condense_eq n).trans (h'.condense_eq n)⟩

theorem of_step (hsize : t.size = u.size)
    (h : ∀ n, d.condenseWithin (n + 1) t = d.condenseWithin (n + 1) u) : Alike d t u := by
  refine ⟨hsize, fun n => ?_⟩
  cases n with
  | zero => cases d <;> rfl
  | succ n => exact h n

/-- What only says how tightly a term binds does not matter. -/
theorem level (hx : x ∈ ["γ", "E", "E0", "E1", "E1'"]) (hy : y ∈ ["γ", "E", "E0", "E1", "E1'"])
    (h : Alike d t u) : Alike d (Tree.word x [t]) (Tree.word y [u]) := by
  refine of_step (by simp [Tree.word, Tree.size, Tree.sizeList, h.size_eq]) fun n => ?_
  rw [condense_level hx, condense_level hy, h.condense_eq]

theorem of_level (hx : x ∈ ["γ", "E", "E0", "E1", "E1'"])
    (h : Alike d (Tree.word x [t]) (Tree.word x [u])) : Alike d t u := by
  refine ⟨by simpa [Tree.word, Tree.size, Tree.sizeList] using h.size_eq, fun n => ?_⟩
  have hstep := h.condense_eq (n + 1)
  rwa [condense_level hx, condense_level hx] at hstep

theorem brackets (ds us : List (Tree Label)) (h : Alike d t u) :
    Alike d (Tree.word "E0" [Tree.word "(" ds, t, Tree.word ")" us])
      (Tree.word "E0" [Tree.word "(" ds, u, Tree.word ")" us]) := by
  refine of_step (by simp [Tree.word, Tree.size, Tree.sizeList, h.size_eq]) fun n => ?_
  rw [condense_brackets, condense_brackets, h.condense_eq]

theorem app (hx : x ∈ ["@", "@'"]) (h : Alike d t t') (h' : Alike d u u') :
    Alike d (Tree.word x [t, u]) (Tree.word x [t', u']) := by
  refine of_step (by simp [Tree.word, Tree.size, Tree.sizeList, h.size_eq, h'.size_eq]) fun n => ?_
  simp only [List.mem_cons, List.not_mem_nil, or_false] at hx
  obtain rfl | rfl := hx
  · simp only [condense_kept (x := "@") (by decide), List.mapM_cons, h.condense_eq, h'.condense_eq]
  · simp only [condense_primed, List.mapM_cons, h.condense_eq, h'.condense_eq]

theorem letIn (m b m' m'' : Tree Label) (h : Alike d t t') (h' : Alike d u u') :
    Alike d (Tree.word "let_" [m, b, m', t, m'', u])
      (Tree.word "let_" [m, b, m', t', m'', u']) := by
  refine of_step (by simp [Tree.word, Tree.size, Tree.sizeList, h.size_eq, h'.size_eq]) fun n => ?_
  simp only [condense_kept (x := "let_") (by decide), List.mapM_cons, h.condense_eq, h'.condense_eq]

/-- Without parameters the node of the body stays, and what is below it is read. -/
theorem abs (m l m' : Tree Label) (h : Alike d (Tree.word "E" [t]) (Tree.word "E" [u])) :
    Alike d (Tree.word "\\." [m, l, m', Tree.word "E" [t]])
      (Tree.word "\\." [m, l, m', Tree.word "E" [u]]) := by
  have hpart := h.of_level (by simp)
  refine of_step (by simp [Tree.word, Tree.size, Tree.sizeList, hpart.size_eq]) fun n => ?_
  have habstract : d.abstract n (Tree.word "E" [t]) = d.abstract n (Tree.word "E" [u]) := by
    funext bs
    have hparts : [t].mapM (d.condenseWithin n) = [u].mapM (d.condenseWithin n) := by
      simp only [List.mapM_cons, hpart.condense_eq]
    rw [Dialect.abstract, Dialect.abstract, h.condense_eq]
    simp only [Tree.word, Tree.subtrees, Tree.root, hparts]
  cases d with
  | pure => rw [condense_abs_pure, condense_abs_pure, habstract]
  | typed => simp only [condense_abs_typed, habstract]

end Alike

end Alike

section Deciding

/-! ### Symbols whose derivations the words decide -/

def AllPlain (d : Dialect) (ws : List Word) : Prop :=
  ∀ w ∈ ws, d.language.grammar.Plain w

/-- The categories with which what comes from a symbol can go on. -/
def goesOn (x : String) : List String :=
  if x ∈ ["E", "\\.", "let_"] then ["id", "num", "(", "\\"]
  else if x ∈ ["T", "T>", "L:T", "id:T"] then ["->"]
  else if x ∈ ["A0", "A1"] then ["id", "("]
  else if x = "A" then ["id", "(", ":", "->"]
  else if x = "L" then ["id"]
  else []

/-- Derivations of terms need only be read alike. -/
def Related (d : Dialect) (x : String) (t u : Tree Label) : Prop :=
  if x ∈ termSymbols then Alike d t u else t = u

inductive RelatedAll (d : Dialect) : List String → List (Tree Label) → List (Tree Label) → Prop
  | nil : RelatedAll d [] [] []
  | cons {x : String} {xs : List String} {t u : Tree Label} {ts us : List (Tree Label)}
      (h : Related d x t u) (hs : RelatedAll d xs ts us) :
      RelatedAll d (x :: xs) (t :: ts) (u :: us)

/-- Of two derivations from a symbol that read the same words, up to some number of them, each ends
where the other one does, if the symbol cannot go on with what either leaves over. -/
def Decides (d : Dialect) (x : String) (n : Nat) : Prop :=
  ∀ ⦃t t' us us' rest rest'⦄, us.length ≤ n → Yields d.rules x t us → Yields d.rules x t' us' →
    us ++ rest = us' ++ rest' → AllPlain d (us ++ rest) → WhileSketch.Stops (goesOn x) rest →
    WhileSketch.Stops (goesOn x) rest' → Related d x t t' ∧ us = us'

variable {x z : String} {xs xs' : List String} {t t' : Tree Label} {ts ts' : List (Tree Label)}
  {us us' rest rest' ws : List Word} {n : Nat}

theorem AllPlain.left (h : AllPlain d (us ++ ws)) : AllPlain d us :=
  (List.forall_mem_append.mp h).1

theorem AllPlain.right (h : AllPlain d (us ++ ws)) : AllPlain d ws :=
  (List.forall_mem_append.mp h).2

theorem exists_outcome_of_allPlain (h : Yields d.rules x t ws) (hws : AllPlain d ws)
    (hx : d.outcomes x ≠ []) :
    ∃ rhs ∈ d.outcomes x, ∃ ts, t = Tree.word x ts ∧ YieldsAll d.rules rhs ts ws := by
  cases h with
  | @word _ w htag =>
    obtain ⟨rhs, hrhs⟩ := List.exists_mem_of_ne_nil _ hx
    obtain ⟨r, hr, -⟩ := List.mem_map.mp hrhs
    obtain ⟨hr, hlhs⟩ := List.mem_filter.mp hr
    exact absurd ((beq_iff_eq.mp hlhs).symm ▸ htag) ((hws w (by simp)).lhs_not_mem hr)
  | @rule r ts _ hr hts =>
    refine ⟨r.rhs, ?_, ts, rfl, hts⟩
    exact List.mem_map.mpr ⟨r, List.mem_filter.mpr ⟨hr, by simp⟩, rfl⟩

theorem exists_word (h : Yields d.rules x t ws) (hws : AllPlain d ws) (hx : x ∈ terminals) :
    ∃ w, w.tags = [x] ∧ ws = [w] ∧ t = Tree.word x [Tree.word w.text []] := by
  obtain ⟨w, htag, rfl, rfl⟩ := h.of_isTerminal (isTerminal_of_mem hx)
  obtain ⟨tag, htags, -⟩ := hws w (by simp)
  rw [htags, List.mem_singleton] at htag
  exact ⟨w, htag ▸ htags, rfl, rfl⟩

theorem related_of_notMem (hx : x ∉ termSymbols) : Related d x t t' ↔ t = t' := by
  rw [Related, if_neg hx]

theorem related_of_mem (hx : x ∈ termSymbols) : Related d x t t' ↔ Alike d t t' := by
  rw [Related, if_pos hx]

theorem terminals_notMem (hx : x ∈ terminals) : x ∉ termSymbols := by
  have hall : ∀ x ∈ terminals, x ∉ termSymbols := by decide
  exact hall x hx

theorem decides_terminal (hx : x ∈ terminals) : Decides d x n := by
  intro t t' us us' rest rest' _ h h' heq hplain _ _
  obtain ⟨w, -, rfl, rfl⟩ := exists_word h hplain.left hx
  obtain ⟨w', -, rfl, rfl⟩ := exists_word h' (AllPlain.left (heq ▸ hplain)) hx
  obtain ⟨rfl, -⟩ := List.cons.inj heq
  exact ⟨(related_of_notMem (terminals_notMem hx)).mpr rfl, rfl⟩

/-- The number of words that are read before any other symbol has a say. -/
def lead : List String → Nat
  | [] => 0
  | x :: _ => if x ∈ terminals then 1 else 0

/-- Two outcomes of a symbol at the same words are the same if they part only where the next word
tells them apart. -/
theorem rows_decided
    (hxs : ∀ x ∈ xs, x ∉ terminals → ∀ m, m + lead xs ≤ us.length → Decides d x m)
    (hparts : d.language.grammar.parts (goesOn z) xs xs' = true)
    (hseams : d.language.grammar.seams goesOn z xs = true)
    (hseams' : d.language.grammar.seams goesOn z xs' = true)
    (h : YieldsAll d.rules xs ts us) (h' : YieldsAll d.rules xs' ts' us')
    (heq : us ++ rest = us' ++ rest') (hplain : AllPlain d (us ++ rest))
    (hrest : WhileSketch.Stops (goesOn z) rest) (hrest' : WhileSketch.Stops (goesOn z) rest') :
    xs = xs' ∧ RelatedAll d xs ts ts' ∧ us = us' := by
  induction xs generalizing xs' ts ts' us us' with
  | nil =>
    cases h
    cases h' with
    | nil => exact ⟨rfl, .nil, rfl⟩
    | cons ht' _ =>
      rw [List.nil_append, List.append_assoc] at heq
      exact absurd (heq ▸ hrest) (ht'.not_stops hparts)
  | cons x xs ih =>
    cases h with
    | @cons _ _ t ts vs us ht hts =>
      cases h' with
      | nil =>
        rw [List.nil_append, List.append_assoc] at heq
        exact absurd (heq ▸ hrest') (ht.not_stops hparts)
      | @cons x' xs' t' ts' vs' us' ht' hts' =>
        rw [List.append_assoc, List.append_assoc] at heq
        rw [List.append_assoc] at hplain
        rw [Grammar.parts] at hparts
        rw [List.length_append] at hxs
        split_ifs at hparts with hx
        · subst hx
          have hplain' : AllPlain d (vs' ++ (us' ++ rest')) := heq ▸ hplain
          have hdecides : Decides d x vs.length := by
            by_cases hx : x ∈ terminals
            · exact decides_terminal hx
            · exact hxs x (by simp) hx _ (by simp [lead, hx])
          have hlead : lead (x :: xs) ≤ vs.length := by
            by_cases hx : x ∈ terminals
            · obtain ⟨w, -, rfl, -⟩ := exists_word ht hplain.left hx
              simp [lead, hx]
            · simp [lead, hx]
          obtain ⟨hrelated, rfl⟩ := hdecides le_rfl ht ht' heq hplain
            (hts.stops hseams hplain.right.left hrest)
            (hts'.stops hseams' hplain'.right.left hrest')
          obtain ⟨rfl, hall, rfl⟩ := ih (fun y hy hterminal m hm => hxs y (by simp [hy]) hterminal m
              (by omega)) hparts (Grammar.seams_tail hseams) (Grammar.seams_tail hseams') hts hts'
            (List.append_cancel_left heq) hplain.right
          exact ⟨rfl, .cons hrelated hall, rfl⟩
        · exact absurd heq (ht.append_ne ht' hparts hx hplain)

def Dialect.looksAhead (d : Dialect) (x : String) : Bool :=
  !(d.outcomes x).isEmpty && (d.outcomes x).all fun rhs =>
    d.language.grammar.seams goesOn x rhs &&
      (d.outcomes x).all fun rhs' => d.language.grammar.parts (goesOn x) rhs rhs'

/-- The words decide about the symbols in the outcomes of a symbol. -/
def BelowDecided (d : Dialect) (x : String) (n : Nat) : Prop :=
  ∀ rhs ∈ d.outcomes x, ∀ y ∈ rhs, y ∉ terminals → ∀ m, m + lead rhs ≤ n → Decides d y m

/-- Fewer words matter for symbols that stand behind a word. -/
theorem belowDecided (before behind : List String)
    (hcheck : ∀ rhs ∈ d.outcomes x, ∀ y ∈ rhs,
      y ∈ terminals ∨ y ∈ before ∨ lead rhs = 1 ∧ y ∈ behind)
    (hbefore : ∀ y ∈ before, ∀ m ≤ n, Decides d y m)
    (hbehind : ∀ y ∈ behind, ∀ m < n, Decides d y m) : BelowDecided d x n := by
  intro rhs hrhs y hy hterminal m hm
  obtain h | h | ⟨hlead, h⟩ := hcheck rhs hrhs y hy
  · exact absurd h hterminal
  · exact hbefore y h m (by omega)
  · exact hbehind y h m (by omega)

theorem BelowDecided.mono {m : Nat} (h : BelowDecided d x n) (hm : m ≤ n) : BelowDecided d x m :=
  fun rhs hrhs y hy hterminal k hk => h rhs hrhs y hy hterminal k (hk.trans hm)

theorem exists_row (hx : d.looksAhead x = true) (hbelow : BelowDecided d x us.length)
    (h : Yields d.rules x t us) (h' : Yields d.rules x t' us') (heq : us ++ rest = us' ++ rest')
    (hplain : AllPlain d (us ++ rest)) (hrest : WhileSketch.Stops (goesOn x) rest)
    (hrest' : WhileSketch.Stops (goesOn x) rest') :
    ∃ rhs ∈ d.outcomes x, ∃ ts ts', t = Tree.word x ts ∧ t' = Tree.word x ts' ∧
      RelatedAll d rhs ts ts' ∧ YieldsAll d.rules rhs ts us ∧ YieldsAll d.rules rhs ts' us ∧
      us = us' := by
  rw [Dialect.looksAhead, Bool.and_eq_true, Bool.not_eq_true', List.isEmpty_eq_false_iff] at hx
  obtain ⟨hne, hall⟩ := hx
  obtain ⟨rhs, hrhs, ts, rfl, hts⟩ := exists_outcome_of_allPlain h hplain.left hne
  obtain ⟨rhs', hrhs', ts', rfl, hts'⟩ :=
    exists_outcome_of_allPlain h' (AllPlain.left (heq ▸ hplain)) hne
  have hrow := Bool.and_eq_true_iff.mp (List.all_eq_true.mp hall rhs hrhs)
  have hrow' := Bool.and_eq_true_iff.mp (List.all_eq_true.mp hall rhs' hrhs')
  obtain ⟨rfl, hrelated, rfl⟩ := rows_decided (hbelow rhs hrhs)
    (List.all_eq_true.mp hrow.2 rhs' hrhs') hrow.1 hrow'.1 hts hts' heq hplain hrest hrest'
  exact ⟨rhs, hrhs, ts, ts', rfl, rfl, hrelated, hts, hts', rfl⟩

theorem relatedAll_cons_iff : RelatedAll d (x :: xs) ts ts' ↔ ∃ t us t' us', ts = t :: us ∧
    ts' = t' :: us' ∧ Related d x t t' ∧ RelatedAll d xs us us' := by
  constructor
  · intro h
    cases h with
    | cons h hs => exact ⟨_, _, _, _, rfl, rfl, h, hs⟩
  · rintro ⟨t, us, t', us', rfl, rfl, h, hs⟩
    exact .cons h hs

theorem relatedAll_one_iff : RelatedAll d [x] ts ts' ↔ ∃ t t', ts = [t] ∧ ts' = [t'] ∧
    Related d x t t' := by
  rw [relatedAll_cons_iff]
  constructor
  · rintro ⟨t, us, t', us', rfl, rfl, h, hs⟩
    cases hs
    exact ⟨t, t', rfl, rfl, h⟩
  · rintro ⟨t, t', rfl, rfl, h⟩
    exact ⟨t, [], t', [], rfl, rfl, h, .nil⟩

theorem RelatedAll.same (h : RelatedAll d (x :: xs) ts ts') (hx : x ∉ termSymbols) :
    ∃ t us us', ts = t :: us ∧ ts' = t :: us' ∧ RelatedAll d xs us us' := by
  obtain ⟨t, us, t', us', rfl, rfl, h, hs⟩ := relatedAll_cons_iff.mp h
  obtain rfl := (related_of_notMem hx).mp h
  exact ⟨t, us, us', rfl, rfl, hs⟩

theorem RelatedAll.eq (h : RelatedAll d xs ts ts') (hxs : ∀ x ∈ xs, x ∉ termSymbols) :
    ts = ts' := by
  induction h with
  | nil => rfl
  | cons h _ ih =>
    obtain ⟨hx, hxs⟩ := List.forall_mem_cons.mp hxs
    rw [(related_of_notMem hx).mp h, ih hxs]

/-- The words decide about a symbol that is no term and has no terms below it if the next word tells
its outcomes apart and the words decide about the symbols in these. -/
theorem decides_of_looksAhead (hx : d.looksAhead x = true)
    (hterms : ∀ rhs ∈ d.outcomes x, ∀ y ∈ x :: rhs, y ∉ termSymbols)
    (hbelow : BelowDecided d x n) : Decides d x n := by
  intro t t' us us' rest rest' hlength h h' heq hplain hrest hrest'
  obtain ⟨rhs, hrhs, ts, ts', rfl, rfl, hrelated, -, -, rfl⟩ :=
    exists_row hx (hbelow.mono hlength) h h' heq hplain hrest hrest'
  obtain ⟨hterm, hterms⟩ := List.forall_mem_cons.mp (hterms rhs hrhs)
  exact ⟨(related_of_notMem hterm).mpr (by rw [hrelated.eq hterms]), rfl⟩

theorem decides_names (d : Dialect) (n : Nat) : Decides d "L" n := by
  have hahead : d.looksAhead "L" = true := by cases d <;> decide
  have hterms : ∀ rhs ∈ d.outcomes "L", ∀ y ∈ "L" :: rhs, y ∉ termSymbols := by cases d <;> decide
  have hcheck : ∀ rhs ∈ d.outcomes "L", ∀ y ∈ rhs,
      y ∈ terminals ∨ y ∈ [] ∨ lead rhs = 1 ∧ y ∈ ["L"] := by
    cases d <;> decide
  induction n using Nat.strong_induction_on with
  | _ n ih =>
    exact decides_of_looksAhead hahead hterms
      (belowDecided [] ["L"] hcheck (by simp) (by simpa using ih))

/-! Types, where an arrow goes on with what may be a whole type before it. -/

theorem exists_typeParts (h : Yields (Dialect.rules .typed) "T" t us) (hus : AllPlain .typed us) :
    ∃ a vs, Yields (Dialect.rules .typed) "T1" a vs ∧
      (us = vs ∧ t = Tree.word "T" [a] ∨
        ∃ w b ws, w.tags = ["->"] ∧ us = vs ++ w :: ws ∧ Yields (Dialect.rules .typed) "T" b ws ∧
          t = Tree.word "T" [Tree.word "T>" [a, Tree.word "->" [Tree.word w.text []], b]]) := by
  have houtcomes : Dialect.outcomes .typed "T" = [["T>"], ["T1"]] := by decide
  obtain ⟨rhs, hrhs, ts, rfl, hts⟩ := exists_outcome_of_allPlain h hus (by rw [houtcomes]; simp)
  simp only [houtcomes, List.mem_cons, List.not_mem_nil, or_false] at hrhs
  obtain rfl | rfl := hrhs
  · obtain ⟨t, rfl, ht⟩ := yieldsAll_one_iff.mp hts
    have harrow : Dialect.outcomes .typed "T>" = [["T1", "->", "T"]] := by decide
    obtain ⟨rhs, hrhs, ts, rfl, hts⟩ := exists_outcome_of_allPlain ht hus (by rw [harrow]; simp)
    rw [harrow, List.mem_singleton] at hrhs
    subst hrhs
    obtain ⟨a, m, b, vs, ms, ws, rfl, rfl, ha, hm, hb⟩ := yieldsAll_three_iff.mp hts
    obtain ⟨w, hw, rfl, rfl⟩ := exists_word hm hus.right.left (by decide)
    exact ⟨a, vs, ha, .inr ⟨w, b, ws, hw, rfl, hb, rfl⟩⟩
  · obtain ⟨t, rfl, ht⟩ := yieldsAll_one_iff.mp hts
    exact ⟨t, us, ht, .inl ⟨rfl, rfl⟩⟩

theorem stops_nil_tags (ws : List Word) : WhileSketch.Stops [] ws :=
  fun _ _ _ _ => List.not_mem_nil

theorem not_stops {tag : String} {tags : List String} {w : Word} (hw : w.tags = [tag])
    (htag : tag ∈ tags) : ¬ WhileSketch.Stops tags (w :: ws) :=
  fun h => h w (by simp) tag (by simp [hw]) htag

theorem decides_types_step (hone : Decides .typed "T1" n) (ih : ∀ m < n, Decides .typed "T" m) :
    Decides .typed "T" n := by
  intro t t' us us' rest rest' hlength h h' heq hplain hrest hrest'
  rw [related_of_notMem (by decide)]
  obtain ⟨a, vs, ha, ht⟩ := exists_typeParts h hplain.left
  obtain ⟨a', vs', ha', ht'⟩ := exists_typeParts h' (AllPlain.left (heq ▸ hplain))
  have hfirst : ∀ {more more'}, us = vs ++ more → us' = vs' ++ more' →
      a = a' ∧ vs = vs' ∧ more ++ rest = more' ++ rest' := by
    rintro more more' rfl rfl
    rw [List.append_assoc, List.append_assoc] at heq
    rw [List.append_assoc] at hplain
    rw [List.length_append] at hlength
    obtain ⟨hrelated, rfl⟩ := hone (by omega) ha ha' heq hplain (stops_nil_tags _)
      (stops_nil_tags _)
    exact ⟨(related_of_notMem (by decide)).mp hrelated, rfl, List.append_cancel_left heq⟩
  obtain ⟨rfl, rfl⟩ | ⟨w, b, ws, hw, rfl, hb, rfl⟩ := ht <;>
    obtain ⟨rfl, rfl⟩ | ⟨w', b', ws', hw', rfl, hb', rfl⟩ := ht'
  · obtain ⟨rfl, rfl, -⟩ := hfirst (List.append_nil us).symm (List.append_nil us').symm
    exact ⟨rfl, rfl⟩
  · obtain ⟨-, -, rfl⟩ := hfirst (List.append_nil us).symm rfl
    exact absurd hrest (not_stops hw' (by decide))
  · obtain ⟨-, -, heq⟩ := hfirst rfl (List.append_nil us').symm
    rw [List.nil_append] at heq
    subst heq
    exact absurd hrest' (not_stops hw (by decide))
  · obtain ⟨rfl, rfl, hmore⟩ := hfirst rfl rfl
    obtain ⟨hsign, htail⟩ := List.cons.inj hmore
    subst hsign
    rw [List.length_append, List.length_cons] at hlength
    rw [List.append_assoc] at hplain
    obtain ⟨hrelated, rfl⟩ := ih ws.length (by omega) le_rfl hb hb' htail
      (List.forall_mem_cons.mp hplain.right).2 hrest hrest'
    rw [(related_of_notMem (by decide)).mp hrelated]
    exact ⟨rfl, rfl⟩

theorem decides_types (n : Nat) : Decides .typed "T1" n ∧ Decides .typed "T" n := by
  induction n using Nat.strong_induction_on with
  | _ n ih =>
    have hone : Decides .typed "T1" n := decides_of_looksAhead (by decide) (by decide)
      (belowDecided [] ["T"] (by decide) (by simp) (by simpa using fun m hm => (ih m hm).2))
    exact ⟨hone, decides_types_step hone fun m hm => (ih m hm).2⟩

/-! Parameters, where a colon behind names tells whether they have a type in common. -/

theorem decides_group (n : Nat) : Decides .typed "L:T" n := by
  refine decides_of_looksAhead (by decide) (by decide)
    (belowDecided ["L", "T"] [] (by decide) ?_ (by simp))
  simpa using ⟨fun m _ => decides_names .typed m, fun m _ => (decides_types m).2⟩

theorem decides_annotated (n : Nat) : Decides .typed "id:T" n := by
  refine decides_of_looksAhead (by decide) (by decide)
    (belowDecided ["T"] [] (by decide) ?_ (by simp))
  simpa using fun m _ => (decides_types m).2

theorem exists_first {firsts : List String} (h : Yields d.rules x t us) (hus : AllPlain d us)
    (hx : d.outcomes x ≠ []) (hfirsts : ∀ rhs ∈ d.outcomes x, ∃ y ∈ firsts, y ∈ terminals ∧
      rhs.head? = some y) : ∃ w vs, us = w :: vs ∧ ∃ y ∈ firsts, w.tags = [y] := by
  obtain ⟨rhs, hrhs, ts, rfl, hts⟩ := exists_outcome_of_allPlain h hus hx
  obtain ⟨y, hy, hterminal, hhead⟩ := hfirsts rhs hrhs
  obtain ⟨rhs, rfl⟩ := List.head?_eq_some_iff.mp hhead
  obtain ⟨t, ts, vs, ws, rfl, rfl, ht, -⟩ := yieldsAll_cons_iff.mp hts
  obtain ⟨w, hw, rfl, -⟩ := exists_word ht hus.left hterminal
  exact ⟨w, ws, rfl, y, hy, hw⟩

theorem exists_first_parameter (h : Yields (Dialect.rules .typed) "A1" t us)
    (hus : AllPlain .typed us) : ∃ w vs, us = w :: vs ∧ ∃ y ∈ ["(", "id"], w.tags = [y] :=
  exists_first h hus (by decide) (by decide)

theorem exists_moreParameters (h : Yields (Dialect.rules .typed) "A0" t us)
    (hus : AllPlain .typed us) :
    (∃ a, t = Tree.word "A0" [a] ∧ Yields (Dialect.rules .typed) "A1" a us) ∨
      t = Tree.word "A0" [] ∧ us = [] := by
  have houtcomes : Dialect.outcomes .typed "A0" = [["A1"], []] := by decide
  obtain ⟨rhs, hrhs, ts, rfl, hts⟩ := exists_outcome_of_allPlain h hus (by rw [houtcomes]; simp)
  simp only [houtcomes, List.mem_cons, List.not_mem_nil, or_false] at hrhs
  obtain rfl | rfl := hrhs
  · obtain ⟨a, rfl, ha⟩ := yieldsAll_one_iff.mp hts
    exact .inl ⟨a, rfl, ha⟩
  · obtain ⟨rfl, rfl⟩ := yieldsAll_nil_iff.mp hts
    exact .inr ⟨rfl, rfl⟩

theorem not_stops_parameter (h : Yields (Dialect.rules .typed) "A1" t us)
    (hus : AllPlain .typed us) {tags : List String} (htags : ∀ y ∈ ["(", "id"], y ∈ tags) :
    ¬ WhileSketch.Stops tags (us ++ rest) := by
  obtain ⟨w, vs, rfl, y, hy, hw⟩ := exists_first_parameter h hus
  exact not_stops hw (htags y hy)

theorem decides_moreParameters (hone : Decides .typed "A1" n) : Decides .typed "A0" n := by
  intro t t' us us' rest rest' hlength h h' heq hplain hrest hrest'
  rw [related_of_notMem (by decide)]
  have hplain' : AllPlain .typed us' := AllPlain.left (heq ▸ hplain)
  obtain ⟨a, rfl, ha⟩ | ⟨rfl, rfl⟩ := exists_moreParameters h hplain.left <;>
    obtain ⟨a', rfl, ha'⟩ | ⟨rfl, rfl⟩ := exists_moreParameters h' hplain'
  · obtain ⟨hrelated, rfl⟩ := hone hlength ha ha' heq hplain hrest hrest'
    rw [(related_of_notMem (by decide)).mp hrelated]
    exact ⟨rfl, rfl⟩
  · rw [List.nil_append] at heq
    exact absurd (heq ▸ hrest') (not_stops_parameter ha hplain.left (by decide))
  · rw [List.nil_append] at heq
    exact absurd (heq ▸ hrest) (not_stops_parameter ha' hplain' (by decide))
  · exact ⟨rfl, rfl⟩

theorem decides_parameter (n : Nat) : Decides .typed "A1" n := by
  induction n using Nat.strong_induction_on with
  | _ n ih =>
    refine decides_of_looksAhead (by decide) (by decide)
      (belowDecided ["L:T"] ["A0"] (by decide) ?_ ?_)
    · simpa using fun m _ => decides_group m
    · simpa using fun m hm => decides_moreParameters (ih m hm)

/-- A colon does not follow names that are parameters one by one. -/
theorem no_colon {l : Tree Label} {ls vs : List Word} {w : Word} (hw : w.tags = [":"])
    (hl : Yields (Dialect.rules .typed) "L" l ls) (ht : Yields (Dialect.rules .typed) "A0" t us)
    (heq : ls ++ w :: vs = us ++ rest) (hplain : AllPlain .typed (us ++ rest))
    (hrest : WhileSketch.Stops (goesOn "A") rest) : False := by
  -- By induction on the number of names: the parameters take them one by one, until the colon
  -- comes, with which no parameter begins and none goes on.
  induction hn : ls.length generalizing l ls t us with
  | zero =>
    obtain rfl := List.length_eq_zero_iff.mp hn
    obtain ⟨a, rfl, ha⟩ | ⟨rfl, rfl⟩ := exists_moreParameters ht hplain.left
    · obtain ⟨w', vs', rfl, y, hy, hw'⟩ := exists_first_parameter ha hplain.left
      obtain ⟨rfl, -⟩ := List.cons.inj heq
      rw [hw, List.singleton_inj] at hw'
      exact absurd (hw' ▸ hy) (by decide)
    · rw [List.nil_append, List.nil_append] at heq
      exact not_stops hw (by decide) (heq ▸ hrest)
  | succ n ih =>
    have hls : AllPlain .typed ls := AllPlain.left (heq ▸ hplain)
    have hnames : Dialect.outcomes .typed "L" = [["id", "L"], []] := by decide
    obtain ⟨rhs, hrhs, ts, rfl, hts⟩ := exists_outcome_of_allPlain hl hls (by rw [hnames]; simp)
    simp only [hnames, List.mem_cons, List.not_mem_nil, or_false] at hrhs
    obtain rfl | rfl := hrhs
    · obtain ⟨m, l, ms, ls, rfl, rfl, hm, hmore⟩ := yieldsAll_two_iff.mp hts
      obtain ⟨v, hv, rfl, -⟩ := exists_word hm hls.left (by decide)
      obtain ⟨a, rfl, ha⟩ | ⟨rfl, rfl⟩ := exists_moreParameters ht hplain.left
      · have hparameter : Dialect.outcomes .typed "A1" =
            [["(", "L:T", ")", "A0"], ["id", "A0"]] := by decide
        obtain ⟨rhs, hrhs, ts, rfl, hts⟩ :=
          exists_outcome_of_allPlain ha hplain.left (by rw [hparameter]; simp)
        simp only [hparameter, List.mem_cons, List.not_mem_nil, or_false] at hrhs
        obtain rfl | rfl := hrhs
        · obtain ⟨m', -, ms', us, -, rfl, hm', -⟩ := yieldsAll_cons_iff.mp hts
          obtain ⟨v', hv', rfl, -⟩ := exists_word hm' hplain.left.left (by decide)
          obtain ⟨rfl, -⟩ := List.cons.inj heq
          simp [hv] at hv'
        · obtain ⟨m', a, ms', us, rfl, rfl, hm', hmore'⟩ := yieldsAll_two_iff.mp hts
          obtain ⟨v', hv', rfl, -⟩ := exists_word hm' hplain.left.left (by decide)
          obtain ⟨-, htail⟩ := List.cons.inj heq
          rw [List.append_assoc] at hplain
          exact ih hmore hmore' htail hplain.right (by simpa using hn)
      · rw [List.nil_append] at heq
        exact not_stops hv (by decide) (heq ▸ hrest)
    · obtain ⟨-, rfl⟩ := yieldsAll_nil_iff.mp hts
      simp at hn

theorem no_group_and_parameter {l a : Tree Label} {vs : List Word}
    (hl : Yields (Dialect.rules .typed) "L:T" l us) (ha : Yields (Dialect.rules .typed) "A1" a vs)
    (heq : us ++ rest = vs ++ rest') (hplain : AllPlain .typed (us ++ rest))
    (hrest' : WhileSketch.Stops (goesOn "A") rest') : False := by
  have houtcomes : Dialect.outcomes .typed "L:T" = [["L", ":", "T"]] := by decide
  obtain ⟨rhs, hrhs, ts, rfl, hts⟩ :=
    exists_outcome_of_allPlain hl hplain.left (by rw [houtcomes]; simp)
  rw [houtcomes, List.mem_singleton] at hrhs
  subst hrhs
  obtain ⟨l, m, u, ls, ms, us, rfl, rfl, hnames, hm, -⟩ := yieldsAll_three_iff.mp hts
  obtain ⟨w, hw, rfl, -⟩ := exists_word hm hplain.left.right.left (by decide)
  have hrule : ⟨"A0", ["A1"]⟩ ∈ Dialect.rules .typed := by decide
  have hwords : ls ++ w :: (us ++ rest) = vs ++ rest' := by
    rw [← heq]
    simp
  exact no_colon hw hnames (.rule hrule (yieldsAll_one_iff.mpr ⟨a, rfl, ha⟩)) hwords
    (heq ▸ hplain) hrest'

theorem decides_parameters (n : Nat) : Decides d d.parameterSymbol n := by
  cases d with
  | pure => exact decides_names .pure n
  | typed =>
    intro t t' us us' rest rest' hlength h h' heq hplain hrest hrest'
    rw [related_of_notMem (by decide)]
    have hplain' : AllPlain .typed (us' ++ rest') := heq ▸ hplain
    have houtcomes : Dialect.outcomes .typed "A" = [["L:T"], ["A1"]] := by decide
    have hcases : ∀ {t us}, Yields (Dialect.rules .typed) "A" t us → AllPlain .typed us →
        ∃ x ∈ ["L:T", "A1"], ∃ a, t = Tree.word "A" [a] ∧ Yields (Dialect.rules .typed) x a us := by
      intro t us h hus
      obtain ⟨rhs, hrhs, ts, rfl, hts⟩ := exists_outcome_of_allPlain h hus (by rw [houtcomes]; simp)
      simp only [houtcomes, List.mem_cons, List.not_mem_nil, or_false] at hrhs
      obtain rfl | rfl := hrhs <;> obtain ⟨a, rfl, ha⟩ := yieldsAll_one_iff.mp hts
      · exact ⟨"L:T", by simp, a, rfl, ha⟩
      · exact ⟨"A1", by simp, a, rfl, ha⟩
    obtain ⟨x, hx, a, rfl, ha⟩ := hcases h hplain.left
    obtain ⟨x', hx', a', rfl, ha'⟩ := hcases h' hplain'.left
    simp only [List.mem_cons, List.not_mem_nil, or_false] at hx hx'
    obtain rfl | rfl := hx <;> obtain rfl | rfl := hx'
    · obtain ⟨hrelated, rfl⟩ := decides_group n hlength ha ha' heq hplain
        (hrest.mono (by decide)) (hrest'.mono (by decide))
      rw [(related_of_notMem (by decide)).mp hrelated]
      exact ⟨rfl, rfl⟩
    · exact (no_group_and_parameter ha ha' heq hplain hrest').elim
    · exact (no_group_and_parameter ha' ha heq.symm hplain' hrest).elim
    · obtain ⟨hrelated, rfl⟩ := decides_parameter n hlength ha ha' heq hplain
        (hrest.mono (by decide)) (hrest'.mono (by decide))
      rw [(related_of_notMem (by decide)).mp hrelated]
      exact ⟨rfl, rfl⟩

end Deciding

section Terms

/-! ### Terms -/

variable {x : String} {f f' : Option (Tree Label)} {t t' u u' : Tree Label}
  {us us' vs ws rest rest' : List Word} {n : Nat}

theorem exists_below (hx : x ∈ ["E", "E1", "E1'"]) (h : Yields d.rules x t ws)
    (hws : AllPlain d ws) :
    ∃ rhs ∈ d.outcomes x, ∃ y c, rhs = [y] ∧ t = Tree.word x [c] ∧ Yields d.rules y c ws := by
  have houtcomes : ∀ x ∈ ["E", "E1", "E1'"], d.outcomes x ≠ [] ∧ ∀ rhs ∈ d.outcomes x,
      rhs.length = 1 := by
    cases d <;> decide
  obtain ⟨rhs, hrhs, ts, rfl, hts⟩ := exists_outcome_of_allPlain h hws (houtcomes x hx).1
  obtain ⟨y, rfl⟩ := List.length_eq_one_iff.mp ((houtcomes x hx).2 rhs hrhs)
  obtain ⟨c, rfl, hc⟩ := yieldsAll_one_iff.mp hts
  exact ⟨[y], hrhs, y, c, rfl, rfl, hc⟩

theorem decides_operand (ih : ∀ m < n, Decides d "E" m) : Decides d "E0" n := by
  have hahead : d.looksAhead "E0" = true := by cases d <;> decide
  have hcheck : ∀ rhs ∈ d.outcomes "E0", ∀ y ∈ rhs,
      y ∈ terminals ∨ y ∈ [] ∨ lead rhs = 1 ∧ y ∈ ["E"] := by
    cases d <;> decide
  have hbelow := belowDecided [] ["E"] hcheck (by simp) (by simpa using ih)
  intro t t' us us' rest rest' hlength h h' heq hplain hrest hrest'
  rw [related_of_mem (by decide)]
  obtain ⟨rhs, hrhs, ts, ts', rfl, rfl, hrelated, hts, -, rfl⟩ :=
    exists_row hahead (hbelow.mono hlength) h h' heq hplain hrest hrest'
  have houtcomes : d.outcomes "E0" = [["id"], ["num"], ["(", "E", ")"]] := by cases d <;> decide
  simp only [houtcomes, List.mem_cons, List.not_mem_nil, or_false] at hrhs
  obtain rfl | rfl | rfl := hrhs
  · rw [hrelated.eq (by decide)]
    exact ⟨.refl _, rfl⟩
  · rw [hrelated.eq (by decide)]
    exact ⟨.refl _, rfl⟩
  · obtain ⟨m, ts, ts', rfl, rfl, hbehind⟩ := hrelated.same (by decide)
    obtain ⟨e, ts, e', ts', rfl, rfl, he, hclose⟩ := relatedAll_cons_iff.mp hbehind
    obtain rfl := hclose.eq (by decide)
    obtain ⟨_, _, m', ms, es, ms', hparts, rfl, hm, -, hm'⟩ := yieldsAll_three_iff.mp hts
    cases hparts
    obtain ⟨w, -, -, rfl⟩ := exists_word hm hplain.left.left (by decide)
    obtain ⟨w', -, -, rfl⟩ := exists_word hm' hplain.left.right.right (by decide)
    exact ⟨.brackets _ _ ((related_of_mem (by decide)).mp he), rfl⟩

theorem exists_body {m l m' e : Tree Label}
    (h : YieldsAll d.rules ["\\", x, ".", "E"] [m, l, m', e] us) (hus : AllPlain d us) :
    ∃ c, e = Tree.word "E" [c] := by
  obtain ⟨_, _, ms, vs, hts, rfl, -, h⟩ := yieldsAll_cons_iff.mp h
  cases hts
  obtain ⟨_, _, _, ls, ms', es, hts, rfl, -, -, he⟩ := yieldsAll_three_iff.mp h
  cases hts
  obtain ⟨-, -, -, c, -, rfl, -⟩ := exists_below (by simp) he hus.right.right.right
  exact ⟨c, rfl⟩

theorem decides_abs (ih : ∀ m < n, Decides d "E" m) : Decides d "\\." n := by
  have hahead : d.looksAhead "\\." = true := by cases d <;> decide
  have houtcomes : d.outcomes "\\." = [["\\", d.parameterSymbol, ".", "E"]] := by
    cases d <;> decide
  have hcheck : ∀ rhs ∈ d.outcomes "\\.", ∀ y ∈ rhs,
      y ∈ terminals ∨ y ∈ [d.parameterSymbol] ∨ lead rhs = 1 ∧ y ∈ ["E"] := by
    cases d <;> decide
  have hparameters : d.parameterSymbol ∉ termSymbols := by cases d <;> decide
  have hbelow := belowDecided [d.parameterSymbol] ["E"] hcheck
    (by simpa using fun m _ => decides_parameters m) (by simpa using ih)
  intro t t' us us' rest rest' hlength h h' heq hplain hrest hrest'
  rw [related_of_mem (by decide)]
  obtain ⟨rhs, hrhs, ts, ts', rfl, rfl, hrelated, hts, hts', rfl⟩ :=
    exists_row hahead (hbelow.mono hlength) h h' heq hplain hrest hrest'
  rw [houtcomes, List.mem_singleton] at hrhs
  subst hrhs
  obtain ⟨m, ts, ts', rfl, rfl, hbehind⟩ := hrelated.same (by decide)
  obtain ⟨l, ts, ts', rfl, rfl, hdot⟩ := hbehind.same hparameters
  obtain ⟨m', ts, ts', rfl, rfl, hbody⟩ := hdot.same (by decide)
  obtain ⟨e, e', rfl, rfl, he⟩ := relatedAll_one_iff.mp hbody
  obtain ⟨c, rfl⟩ := exists_body hts hplain.left
  obtain ⟨c', rfl⟩ := exists_body hts' hplain.left
  exact ⟨.abs _ _ _ ((related_of_mem (by decide)).mp he), rfl⟩

/-- What a local definition gives a value to, and whether it has a type, shows before the equals
sign. -/
theorem no_name_and_annotated {b : Tree Label} {w : Word} (hw : w.tags = ["="])
    (ht : Yields (Dialect.rules .typed) "id" t us) (hb : Yields (Dialect.rules .typed) "id:T" b us')
    (heq : us ++ w :: rest = us' ++ rest') (hplain : AllPlain .typed (us ++ w :: rest)) :
    False := by
  have houtcomes : Dialect.outcomes .typed "id:T" = [["id", ":", "T"]] := by decide
  have hplain' : AllPlain .typed (us' ++ rest') := heq ▸ hplain
  obtain ⟨rhs, hrhs, ts, rfl, hts⟩ :=
    exists_outcome_of_allPlain hb hplain'.left (by rw [houtcomes]; simp)
  rw [houtcomes, List.mem_singleton] at hrhs
  subst hrhs
  obtain ⟨m, m', u, ms, ms', vs, rfl, rfl, hm, hm', -⟩ := yieldsAll_three_iff.mp hts
  obtain ⟨v, -, rfl, -⟩ := exists_word ht hplain.left (by decide)
  obtain ⟨v', -, rfl, -⟩ := exists_word hm hplain'.left.left (by decide)
  obtain ⟨v'', hv'', rfl, -⟩ := exists_word hm' hplain'.left.right.left (by decide)
  obtain ⟨-, htail⟩ := List.cons.inj heq
  obtain ⟨rfl, -⟩ := List.cons.inj htail
  simp [hw] at hv''

def letRow (y : String) : List String :=
  ["let", y, "=", "E", "in", "E"]

theorem exists_let (h : Yields d.rules "let_" t us) (hus : AllPlain d us) :
    ∃ y ∈ ["id", "id:T"], (y = "id:T" → d = .typed) ∧ ∃ ts, t = Tree.word "let_" ts ∧
      YieldsAll d.rules (letRow y) ts us := by
  have houtcomes : d.outcomes "let_" ≠ [] ∧ ∀ rhs ∈ d.outcomes "let_", ∃ y ∈ ["id", "id:T"],
      (y = "id:T" → d = .typed) ∧ rhs = letRow y := by
    cases d <;> decide
  obtain ⟨rhs, hrhs, ts, rfl, hts⟩ := exists_outcome_of_allPlain h hus houtcomes.1
  obtain ⟨y, hy, htyped, rfl⟩ := houtcomes.2 rhs hrhs
  exact ⟨y, hy, htyped, ts, rfl, hts⟩

theorem no_letRows {ts ts' : List (Tree Label)}
    (h : YieldsAll (Dialect.rules .typed) (letRow "id") ts us)
    (h' : YieldsAll (Dialect.rules .typed) (letRow "id:T") ts' us')
    (heq : us ++ rest = us' ++ rest') (hplain : AllPlain .typed (us ++ rest)) : False := by
  have hplain' : AllPlain .typed (us' ++ rest') := heq ▸ hplain
  obtain ⟨m, ts, ms, us, rfl, rfl, hm, h⟩ := yieldsAll_cons_iff.mp h
  obtain ⟨b, ts, bs, us, rfl, rfl, hb, h⟩ := yieldsAll_cons_iff.mp h
  obtain ⟨e, ts, es, us, rfl, rfl, he, -⟩ := yieldsAll_cons_iff.mp h
  obtain ⟨m', ts', ms', us', rfl, rfl, hm', h'⟩ := yieldsAll_cons_iff.mp h'
  obtain ⟨b', ts', bs', us', rfl, rfl, hb', -⟩ := yieldsAll_cons_iff.mp h'
  obtain ⟨w, -, rfl, -⟩ := exists_word hm hplain.left.left (by decide)
  obtain ⟨w', -, rfl, -⟩ := exists_word hm' hplain'.left.left (by decide)
  obtain ⟨v, hv, rfl, -⟩ := exists_word he hplain.left.right.right.left (by decide)
  simp only [List.append_assoc, List.cons_append, List.cons.injEq] at heq
  simp only [List.append_assoc, List.cons_append] at hplain
  exact no_name_and_annotated hv hb hb' heq.2 (List.forall_mem_cons.mp hplain).2

theorem parts_self (tags xs : List String) : d.language.grammar.parts tags xs xs = true := by
  induction xs with
  | nil => rfl
  | cons x xs ih => rw [Grammar.parts, if_pos rfl, ih]

theorem decides_let (ih : ∀ m < n, Decides d "E" m) : Decides d "let_" n := by
  intro t t' us us' rest rest' hlength h h' heq hplain hrest hrest'
  rw [related_of_mem (by decide)]
  obtain ⟨y, hy, htyped, ts, rfl, hts⟩ := exists_let h hplain.left
  obtain ⟨y', hy', htyped', ts', rfl, hts'⟩ := exists_let h' (AllPlain.left (heq ▸ hplain))
  have hsame : y = y' := by
    simp only [List.mem_cons, List.not_mem_nil, or_false] at hy hy'
    obtain rfl | rfl := hy <;> obtain rfl | rfl := hy'
    · rfl
    · obtain rfl := htyped' rfl
      exact (no_letRows hts hts' heq hplain).elim
    · obtain rfl := htyped rfl
      exact (no_letRows hts' hts heq.symm (heq ▸ hplain)).elim
    · rfl
  subst hsame
  have hseams : ∀ y ∈ ["id", "id:T"], d.language.grammar.seams goesOn "let_" (letRow y) = true := by
    cases d <;> decide
  have hterm : ∀ y ∈ ["id", "id:T"], y ∉ termSymbols := by decide
  have hsymbols : ∀ x ∈ letRow y, x ∈ terminals ∨ x = "E" ∨ x = y := by
    simp only [letRow, List.forall_mem_cons]
    simp [terminals, marks]
  have hdecides : ∀ x ∈ letRow y, x ∉ terminals → ∀ m, m + lead (letRow y) ≤ us.length →
      Decides d x m := by
    intro x hx hterminal m hm
    obtain hx | rfl | rfl := hsymbols x hx
    · exact absurd hx hterminal
    · have hlead : lead (letRow y) = 1 := rfl
      exact ih m (by omega)
    · simp only [List.mem_cons, List.not_mem_nil, or_false] at hy
      obtain rfl | rfl := hy
      · exact absurd (by decide) hterminal
      · obtain rfl := htyped rfl
        exact decides_annotated m
  obtain ⟨-, hrelated, rfl⟩ := rows_decided hdecides (parts_self _ _) (hseams y hy) (hseams y hy)
    hts hts' heq hplain hrest hrest'
  obtain ⟨m, ts, ts', rfl, rfl, hrow₁⟩ := hrelated.same (by decide)
  obtain ⟨b, ts, ts', rfl, rfl, hrow₂⟩ := hrow₁.same (hterm y hy)
  obtain ⟨m', ts, ts', rfl, rfl, hrow₃⟩ := hrow₂.same (by decide)
  obtain ⟨e, ts, e', ts', rfl, rfl, he, hrow₄⟩ := relatedAll_cons_iff.mp hrow₃
  obtain ⟨m'', ts, ts', rfl, rfl, hrow₅⟩ := hrow₄.same (by decide)
  obtain ⟨c, c', rfl, rfl, hc⟩ := relatedAll_one_iff.mp hrow₅
  exact ⟨.letIn _ _ _ _ ((related_of_mem (by decide)).mp he) ((related_of_mem (by decide)).mp hc),
    rfl⟩

/-- A derivation of terms word by word, where what has been read of a row of operands is given
first. -/
inductive Spine (d : Dialect) : Option (Tree Label) → Tree Label → List Word → Prop
  | done (f : Tree Label) : Spine d (some f) (Tree.word "E" [f]) []
  | operand {f : Option (Tree Label)} {t u : Tree Label} {ws vs : List Word}
      (ht : Yields d.rules "E0" t ws)
      (h : Spine d (some (f.elim (Tree.word "E1" [t]) fun f =>
        Tree.word "E1" [Tree.word "@" [f, t]])) u vs) : Spine d f u (ws ++ vs)
  | abs {t : Tree Label} {ws : List Word} (ht : Yields d.rules "\\." t ws) :
      Spine d none (Tree.word "E" [t]) ws
  | last {t : Tree Label} {ws : List Word} (f : Tree Label) (ht : Yields d.rules "\\." t ws) :
      Spine d (some f) (Tree.word "E" [Tree.word "E1'" [Tree.word "@'" [f, t]]]) ws
  | letIn {t : Tree Label} {ws : List Word} (ht : Yields d.rules "let_" t ws) :
      Spine d none (Tree.word "E" [t]) ws

theorem Spine.of_chain {g : Tree Label} (h : Yields d.rules "E1" g ws) (hws : AllPlain d ws)
    (hspine : Spine d (some g) u vs) : Spine d none u (ws ++ vs) := by
  have houtcomes : d.outcomes "E1" = [["@"], ["E0"]] := by cases d <;> decide
  have happ : d.outcomes "@" = [["E1", "E0"]] := by cases d <;> decide
  induction hn : g.size using Nat.strong_induction_on generalizing g ws vs with
  | _ n ih =>
    obtain ⟨rhs, hrhs, y, c, rfl, rfl, hc⟩ := exists_below (by simp) h hws
    simp only [houtcomes, List.mem_cons, List.not_mem_nil, or_false, List.cons.injEq,
      and_true] at hrhs
    obtain rfl | rfl := hrhs
    · obtain ⟨rhs, hrhs, ts, rfl, hts⟩ := exists_outcome_of_allPlain hc hws (by rw [happ]; simp)
      rw [happ, List.mem_singleton] at hrhs
      subst hrhs
      obtain ⟨g, t, us, ws, rfl, rfl, hg, ht⟩ := yieldsAll_two_iff.mp hts
      rw [List.append_assoc]
      refine ih g.size ?_ hg hws.left (.operand ht hspine) rfl
      simp only [Tree.word, Tree.size, Tree.sizeList] at hn
      omega
    · exact .operand hc hspine

/-- Each derivation of a term is read like one word by word. -/
theorem exists_spine (h : Yields d.rules "E" t ws) (hws : AllPlain d ws) :
    ∃ u, Alike d t u ∧ Spine d none u ws := by
  have houtcomes : d.outcomes "E" = [["\\."], ["let_"], ["E1"], ["E1'"]] := by cases d <;> decide
  have hprimed : d.outcomes "E1'" = [["@'"], ["E0"]] := by cases d <;> decide
  have happ : d.outcomes "@'" = [["E1", "\\."]] := by cases d <;> decide
  obtain ⟨rhs, hrhs, y, c, rfl, rfl, hc⟩ := exists_below (by simp) h hws
  simp only [houtcomes, List.mem_cons, List.not_mem_nil, or_false, List.cons.injEq,
    and_true] at hrhs
  obtain rfl | rfl | rfl | rfl := hrhs
  · exact ⟨_, .refl _, .abs hc⟩
  · exact ⟨_, .refl _, .letIn hc⟩
  · have hspine := Spine.of_chain hc hws (.done c)
    rw [List.append_nil] at hspine
    exact ⟨_, .refl _, hspine⟩
  · obtain ⟨rhs, hrhs, y, c, rfl, rfl, hc⟩ := exists_below (by simp) hc hws
    simp only [hprimed, List.mem_cons, List.not_mem_nil, or_false, List.cons.injEq,
      and_true] at hrhs
    obtain rfl | rfl := hrhs
    · obtain ⟨rhs, hrhs, ts, rfl, hts⟩ := exists_outcome_of_allPlain hc hws (by rw [happ]; simp)
      rw [happ, List.mem_singleton] at hrhs
      subst hrhs
      obtain ⟨g, a, us, vs, rfl, rfl, hg, ha⟩ := yieldsAll_two_iff.mp hts
      exact ⟨_, .refl _, .of_chain hg hws.left (.last g ha)⟩
    · have hspine : Spine d none (Tree.word "E" [Tree.word "E1" [c]]) (ws ++ []) :=
        .operand hc (.done _)
      rw [List.append_nil] at hspine
      exact ⟨_, .level (by simp) (by simp) (.level (by simp) (by simp) (.refl c)), hspine⟩

/-- The categories of words with which the parts of a row of operands begin. -/
def firstTags (x : String) : List String :=
  if x = "E0" then ["id", "num", "("] else if x = "\\." then ["\\"] else ["let"]

theorem exists_first_term (hx : x ∈ ["E0", "\\.", "let_"]) (h : Yields d.rules x t us)
    (hus : AllPlain d us) : ∃ w vs, us = w :: vs ∧ ∃ y ∈ firstTags x, w.tags = [y] := by
  have hcheck : ∀ x ∈ ["E0", "\\.", "let_"], d.outcomes x ≠ [] ∧ ∀ rhs ∈ d.outcomes x,
      ∃ y ∈ firstTags x, y ∈ terminals ∧ rhs.head? = some y := by
    cases d <;> decide
  exact exists_first h hus (hcheck x hx).1 (hcheck x hx).2

theorem eq_of_first {y : String} (hx : x ∈ ["E0", "\\.", "let_"]) (hy : y ∈ ["E0", "\\.", "let_"])
    (h : Yields d.rules x t us) (h' : Yields d.rules y t' us') (heq : us ++ rest = us' ++ rest')
    (hplain : AllPlain d (us ++ rest)) : x = y := by
  have hcheck : ∀ x ∈ ["E0", "\\.", "let_"], ∀ y ∈ ["E0", "\\.", "let_"],
      ∀ z ∈ firstTags x, z ∈ firstTags y → x = y := by decide
  obtain ⟨w, vs, rfl, z, hz, hw⟩ := exists_first_term hx h hplain.left
  obtain ⟨w', vs', rfl, z', hz', hw'⟩ := exists_first_term hy h' (AllPlain.left (heq ▸ hplain))
  obtain ⟨rfl, -⟩ := List.cons.inj heq
  rw [hw, List.singleton_inj] at hw'
  exact hcheck x hx y hy z hz (hw' ▸ hz')

theorem not_stops_term (hx : x ∈ ["E0", "\\."]) (h : Yields d.rules x t us) (hus : AllPlain d us) :
    ¬ WhileSketch.Stops (goesOn "E") (us ++ rest) := by
  have hcheck : ∀ x ∈ ["E0", "\\."], x ∈ ["E0", "\\.", "let_"] ∧
      ∀ y ∈ firstTags x, y ∈ goesOn "E" := by decide
  obtain ⟨w, vs, rfl, y, hy, hw⟩ := exists_first_term (hcheck x hx).1 h hus
  exact not_stops hw ((hcheck x hx).2 y hy)

theorem extend_alike {f f' : Option (Tree Label)} (hf : Option.Rel (Alike d) f f')
    (ht : Alike d t t') : Option.Rel (Alike d)
      (some (f.elim (Tree.word "E1" [t]) fun f => Tree.word "E1" [Tree.word "@" [f, t]]))
      (some (f'.elim (Tree.word "E1" [t']) fun f => Tree.word "E1" [Tree.word "@" [f, t']])) := by
  cases hf with
  | none => exact .some (.level (by simp) (by simp) ht)
  | some hf => exact .some (.level (by simp) (by simp) (.app (by simp) hf ht))

/-- Word by word there is one derivation, up to what is read alike. -/
theorem Spine.unique (hoperand : Decides d "E0" n) (habs : Decides d "\\." n)
    (hlet : Decides d "let_" n) (h : Spine d f t us) (h' : Spine d f' t' us')
    (hf : Option.Rel (Alike d) f f') (hlength : us.length ≤ n) (heq : us ++ rest = us' ++ rest')
    (hplain : AllPlain d (us ++ rest)) (hrest : WhileSketch.Stops (goesOn "E") rest)
    (hrest' : WhileSketch.Stops (goesOn "E") rest') : Alike d t t' ∧ us = us' := by
  have hplain' : AllPlain d (us' ++ rest') := heq ▸ hplain
  induction h generalizing f' t' us' with
  | done f =>
    rw [List.nil_append] at heq
    cases h' with
    | done f' =>
      cases hf with
      | some hf => exact ⟨.level (by simp) (by simp) hf, rfl⟩
    | operand ht _ =>
      rw [List.append_assoc] at heq hplain'
      exact absurd (heq ▸ hrest) (not_stops_term (by simp) ht hplain'.left)
    | last _ ht => exact absurd (heq ▸ hrest) (not_stops_term (by simp) ht hplain'.left)
    | abs | letIn => cases hf
  | @operand f t u ws vs ht _ ih =>
    rw [List.append_assoc] at heq hplain
    cases h' with
    | done f' =>
      rw [List.nil_append] at heq
      exact absurd (heq ▸ hrest') (not_stops_term (by simp) ht hplain.left)
    | @operand _ t' u' ws' vs' ht' h' =>
      rw [List.append_assoc] at heq hplain'
      rw [List.length_append] at hlength
      obtain ⟨hrelated, rfl⟩ := hoperand (by omega) ht ht' heq hplain (stops_nil_tags _)
        (stops_nil_tags _)
      have halike := (related_of_mem (by decide)).mp hrelated
      have hextended := extend_alike hf halike
      obtain ⟨hu, rfl⟩ := ih h' hextended (by omega) (List.append_cancel_left heq) hplain.right
        hplain'.right
      exact ⟨hu, rfl⟩
    | abs ht' | last _ ht' | letIn ht' =>
      exact absurd (eq_of_first (by simp) (by simp) ht ht' heq hplain) (by decide)
  | abs ht =>
    cases h' with
    | abs ht' =>
      obtain ⟨hrelated, rfl⟩ := habs hlength ht ht' heq hplain hrest hrest'
      exact ⟨.level (by simp) (by simp) ((related_of_mem (by decide)).mp hrelated), rfl⟩
    | operand ht' _ =>
      rw [List.append_assoc] at heq
      exact absurd (eq_of_first (by simp) (by simp) ht ht' heq hplain) (by decide)
    | letIn ht' => exact absurd (eq_of_first (by simp) (by simp) ht ht' heq hplain) (by decide)
    | done | last => cases hf
  | last f ht =>
    cases h' with
    | last f' ht' =>
      obtain ⟨hrelated, rfl⟩ := habs hlength ht ht' heq hplain hrest hrest'
      cases hf with
      | some hf =>
        exact ⟨.level (by simp) (by simp) (.level (by simp) (by simp)
          (.app (by simp) hf ((related_of_mem (by decide)).mp hrelated))), rfl⟩
    | operand ht' _ =>
      rw [List.append_assoc] at heq
      exact absurd (eq_of_first (by simp) (by simp) ht ht' heq hplain) (by decide)
    | done f' =>
      rw [List.nil_append] at heq
      exact absurd (heq ▸ hrest') (not_stops_term (by simp) ht hplain.left)
    | abs | letIn => cases hf
  | letIn ht =>
    cases h' with
    | letIn ht' =>
      obtain ⟨hrelated, rfl⟩ := hlet hlength ht ht' heq hplain hrest hrest'
      exact ⟨.level (by simp) (by simp) ((related_of_mem (by decide)).mp hrelated), rfl⟩
    | operand ht' _ =>
      rw [List.append_assoc] at heq
      exact absurd (eq_of_first (by simp) (by simp) ht ht' heq hplain) (by decide)
    | abs ht' => exact absurd (eq_of_first (by simp) (by simp) ht ht' heq hplain) (by decide)
    | done | last => cases hf

theorem decides_term (d : Dialect) (n : Nat) : Decides d "E" n := by
  induction n using Nat.strong_induction_on with
  | _ n ih =>
    intro t t' us us' rest rest' hlength h h' heq hplain hrest hrest'
    rw [related_of_mem (by decide)]
    obtain ⟨u, htu, hu⟩ := exists_spine h hplain.left
    obtain ⟨u', htu', hu'⟩ := exists_spine h' (AllPlain.left (heq ▸ hplain))
    obtain ⟨halike, rfl⟩ := hu.unique (decides_operand ih) (decides_abs ih) (decides_let ih) hu'
      .none hlength heq hplain hrest hrest'
    exact ⟨htu.trans (halike.trans htu'.symm), rfl⟩

/-- All derivations of some words are read alike. -/
theorem alike_of_yields (h : Yields d.rules "E" t ws) (h' : Yields d.rules "E" t' ws)
    (hws : AllPlain d ws) : Alike d t t' := by
  have hsame : ws ++ [] = ws ++ [] := rfl
  have hdecides := decides_term d ws.length le_rfl h h' hsame (by simpa using hws)
    (WhileSketch.stops_nil _) (WhileSketch.stops_nil _)
  exact (related_of_mem (by decide)).mp hdecides.1

end Terms

section Choice

/-! ### The choice of a derivation -/

def Dialect.condense : Dialect → Tree Label → Except Fault (Tree Label)
  | .pure => Pure.condense
  | .typed => Typed.condense

variable {t u : Tree Label} {text : String}

theorem Alike.whole_eq (h : Alike d t u) : d.condense t = d.condense u := by
  cases d with
  | pure => exact (congrArg (Pure.condenseWithin · t) h.size_eq).trans (h.condense_eq _)
  | typed =>
    exact (congrArg (fun n => Typed.condenseWithin (2 * n) t) h.size_eq).trans (h.condense_eq _)

theorem plain_of_isToken {w : Word} (hw : IsToken w) : d.language.grammar.Plain w := by
  have hterminal : ∀ tag ∈ terminals, d.language.grammar.isTerminal tag = true := fun _ =>
    isTerminal_of_mem
  cases hw with
  | @mark s hs => exact ⟨s, rfl, hterminal s (by simp [terminals, hs])⟩
  | name => exact ⟨"id", rfl, hterminal _ (by decide)⟩
  | numeral => exact ⟨"num", rfl, hterminal _ (by decide)⟩

theorem parse_eq_condense (h : d.language.derive? text = some u) :
    d.parse text = some <$> d.condense u := by
  cases d with
  | pure => exact congrArg (Option.mapM Pure.condense) h
  | typed => exact congrArg (Option.mapM Typed.condense) h

/-- The reader comes to an end with the derivation of a term. -/
theorem condense_ne_endless (h : Yields d.rules "E" t ws) (hws : ∀ w ∈ ws, IsToken w) :
    d.condense t ≠ .error .endless := by
  have hreading : ∀ n, t.size ≤ n → d.condenseWithin n t ≠ .error .endless := by
    intro n hn
    obtain ⟨v, hv, -⟩ := readsTerms d n (by simp [termSymbols]) hn h hws
    rw [hv, Dialect.reading]
    split_ifs <;> simp
  cases d with
  | pure => exact hreading t.size le_rfl
  | typed => exact hreading (2 * t.size) (by omega)

end Choice

/-- All derivations of some words as a term are read as the same term, or none of them is read. So
it does not matter which of them is found for a text. -/
theorem condense_eq_of_yields (d : Dialect) {t t' : Tree Label} {ws : List Word}
    (hws : ∀ w ∈ ws, d.language.grammar.Plain w) (h : Yields d.rules "E" t ws)
    (h' : Yields d.rules "E" t' ws) :
    d.condense t = d.condense t' ∧
    d.condense (Tree.word "γ" [t]) = d.condense (Tree.word "γ" [t']) ∧
    ∀ text, d.language.tokens text = ws → d.condense t ≠ .error .endless ∧
      d.parse text = some <$> d.condense (Tree.word "γ" [t]) := by
  have htop : ∀ {u u'}, Yields d.rules "E" u ws → Yields d.rules "E" u' ws →
      d.condense (Tree.word "γ" [u]) = d.condense (Tree.word "γ" [u']) := fun hu hu' =>
    ((alike_of_yields hu hu' hws).level (by simp) (by simp)).whole_eq
  refine ⟨(alike_of_yields h h' hws).whole_eq, htop h h', ?_⟩
  rintro text rfl
  obtain ⟨u, hderive, hu⟩ := exists_derivation h
  refine ⟨condense_ne_endless h fun w hw => isToken_of_mem hw, ?_⟩
  rw [parse_eq_condense hderive, htop hu h]

def operandBy (y x : String) : Tree Label :=
  Tree.word "E" [Tree.word y [Tree.word "E0" [nameTree x]]]

theorem yields_operandBy {y : String} (hy : y ∈ ["E1", "E1'"]) (x : String) :
    Yields d.rules "E" (operandBy y x) [nameWord x] := by
  have hrules : ∀ y ∈ ["E1", "E1'"], ⟨"E", [y]⟩ ∈ d.rules ∧ ⟨y, ["E0"]⟩ ∈ d.rules := by
    cases d <;> decide
  have hoperand : ⟨"E0", ["id"]⟩ ∈ d.rules := by cases d <;> decide
  have hname : Yields d.rules "id" (nameTree x) [nameWord x] := .word (w := nameWord x) (by simp)
  exact .rule (hrules y hy).1 (.cons (.rule (hrules y hy).2 (.cons (.rule hoperand
    (.cons hname .nil)) .nil)) .nil)

def identityBy (y : String) : Tree Label :=
  Tree.word "E" [Tree.word "\\." [markTree "\\",
    Tree.word "A" [Tree.word "L:T" [
      Tree.word "L" [nameTree "x", Tree.word "L" [nameTree "y", Tree.word "L" []]],
      markTree ":",
      Tree.word "T" [Tree.word "T1" [nameTree "a"]]]],
    markTree ".", operandBy y "x"]]

theorem yields_identityBy {y : String} (hy : y ∈ ["E1", "E1'"]) :
    Yields (Dialect.rules .typed) "E" (identityBy y) (Typed.language.tokens "\\x y: a. x") := by
  have htokens : Typed.language.tokens "\\x y: a. x" = [markWord "\\", nameWord "x", nameWord "y",
      markWord ":", nameWord "a", markWord ".", nameWord "x"] := by
    decide +kernel
  have hmark : ∀ s, Yields (Dialect.rules .typed) s (markTree s) [markWord s] := fun s =>
    .word (w := markWord s) (by simp)
  have hname : ∀ x, Yields (Dialect.rules .typed) "id" (nameTree x) [nameWord x] := fun x =>
    .word (w := nameWord x) (by simp)
  have hrule : ∀ {x rhs ts ws}, ⟨x, rhs⟩ ∈ Dialect.rules .typed →
      YieldsAll (Dialect.rules .typed) rhs ts ws →
      Yields (Dialect.rules .typed) x (Tree.word x ts) ws := fun hr hts => .rule hr hts
  have hlast := hrule (x := "L") (by decide) (.cons (hname "y")
    (.cons (hrule (x := "L") (by decide) .nil) .nil))
  have hnames := hrule (x := "L") (by decide) (.cons (hname "x") (.cons hlast .nil))
  have htype := hrule (x := "T") (by decide) (.cons (hrule (x := "T1") (by decide)
    (.cons (hname "a") .nil)) .nil)
  have hparameters := hrule (x := "A") (by decide) (.cons (hrule (x := "L:T") (by decide)
    (.cons hnames (.cons (hmark ":") (.cons htype .nil)))) .nil)
  have hbody := yields_operandBy (d := .typed) hy "x"
  have habs := hrule (x := "\\.") (by decide)
    (.cons (hmark "\\") (.cons hparameters (.cons (hmark ".") (.cons hbody .nil))))
  rw [htokens]
  exact hrule (x := "E") (by decide) (.cons habs .nil)

theorem condense_identityBy :
    identityBy "E1" ≠ identityBy "E1'" ∧
    Typed.condense (identityBy "E1") = Typed.condense (identityBy "E1'") ∧
    Typed.parse "\\x y: a. x" = .ok (some (Tree.word "\\" [
      Tree.word ":" [nameTree "x", nameTree "a"],
      Tree.word "\\" [Tree.word ":" [nameTree "y", nameTree "a"], nameTree "x"]])) := by
  have hws : ∀ w ∈ Typed.language.tokens "\\x y: a. x", Typed.language.grammar.Plain w :=
    fun w hw => plain_of_isToken (d := .typed) (isToken_of_mem (d := .typed) hw)
  obtain ⟨hsame, -, hparse⟩ := condense_eq_of_yields .typed hws
    (yields_identityBy (y := "E1") (by simp)) (yields_identityBy (y := "E1'") (by simp))
  exact ⟨by simp [identityBy, operandBy, Tree.word], hsame, (hparse _ rfl).2⟩

end WhileSketch.Lambda
