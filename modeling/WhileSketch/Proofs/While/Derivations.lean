import Mathlib
import WhileSketch.Proofs.Grammar.Lookahead
import WhileSketch.Proofs.Grammar.Recognition
import WhileSketch.Proofs.Tree.Nodes
import WhileSketch.Proofs.While.ConcreteSyntax
import WhileSketch.Proofs.While.Quiet

/-! From derivations by the grammar of programs to statements, and that tokens have at most one
derivation. -/

namespace WhileSketch.While

def rules : List Rule :=
  language.grammar.goal.rule :: language.grammar.rules

def Derives (x : String) (d : Tree Label) (ts : List Token) : Prop :=
  Yields rules x d (ts.map Token.word)

def DerivesAll (xs : List String) (ds : List (Tree Label)) (ts : List Token) : Prop :=
  YieldsAll rules xs ds (ts.map Token.word)

theorem tag_not_symbol (t : Token) : t.tag ∉ ["γ", "S", "S1", "E", "E0"] := by
  cases t with
  | mark m => cases m <;> decide
  | _ => simp [Token.tag]

theorem Derives.elim {x : String} {d : Tree Label} {ts : List Token} (h : Derives x d ts) :
    (∃ t, ts = [t] ∧ t.tag = x ∧ d = Tree.word x [Tree.word t.text []]) ∨
      ∃ rhs ds, ⟨x, rhs⟩ ∈ rules ∧ d = Tree.word x ds ∧ DerivesAll rhs ds ts := by
  rw [Derives] at h
  generalize hws : ts.map Token.word = ws at h
  cases h with
  | word htag =>
    obtain ⟨t, rfl, rfl⟩ := List.map_eq_singleton_iff.mp hws
    exact .inl ⟨t, rfl, (List.mem_singleton.mp htag).symm, rfl⟩
  | @rule r ds _ hr hds =>
    subst hws
    exact .inr ⟨r.rhs, ds, hr, rfl, hds⟩

theorem derivesAll_cons {x : String} {xs : List String} {ds : List (Tree Label)}
    {ts : List Token} :
    DerivesAll (x :: xs) ds ts ↔
      ∃ d ds' us vs, ds = d :: ds' ∧ ts = us ++ vs ∧ Derives x d us ∧ DerivesAll xs ds' vs := by
  rw [DerivesAll, yieldsAll_cons_iff]
  constructor
  · rintro ⟨d, ds', ws, ws', rfl, hws, hd, hds⟩
    obtain ⟨us, vs, rfl, rfl, rfl⟩ := List.map_eq_append_iff.mp hws
    exact ⟨d, ds', us, vs, rfl, rfl, hd, hds⟩
  · rintro ⟨d, ds', us, vs, rfl, rfl, hd, hds⟩
    exact ⟨d, ds', us.map Token.word, vs.map Token.word, rfl, List.map_append, hd, hds⟩

theorem derivesAll_one {x : String} {ds : List (Tree Label)} {ts : List Token} :
    DerivesAll [x] ds ts ↔ ∃ d, ds = [d] ∧ Derives x d ts :=
  yieldsAll_one_iff

theorem Derives.terminal {x : String} (hx : x ∉ ["γ", "S", "S1", "E", "E0"]) {d : Tree Label}
    {ts : List Token} (h : Derives x d ts) :
    ∃ t, ts = [t] ∧ t.tag = x ∧ d = Tree.word x [Tree.word t.text []] := by
  obtain h | ⟨rhs, ds, hr, -, -⟩ := h.elim
  · exact h
  · exfalso
    apply hx
    have hlhs : ∀ r ∈ rules, r.lhs ∈ ["γ", "S", "S1", "E", "E0"] := by decide
    exact hlhs _ hr

theorem Derives.nonterminal {x : String} (hx : x ∈ ["γ", "S", "S1", "E", "E0"]) {d : Tree Label}
    {ts : List Token} (h : Derives x d ts) :
    ∃ rhs ds, ⟨x, rhs⟩ ∈ rules ∧ d = Tree.word x ds ∧ DerivesAll rhs ds ts := by
  obtain ⟨t, -, rfl, -⟩ | h := h.elim
  · exact absurd hx (tag_not_symbol t)
  · exact h

section Condense

/-! What is left of each form of derivation. -/

theorem condense_one {x : String} (hx : x ∈ ["γ", "S", "S1", "E", "E0"]) (d : Tree Label) :
    condense (Tree.word x [d]) = condense d := by
  simp only [List.mem_cons, List.not_mem_nil, or_false] at hx
  obtain rfl | rfl | rfl | rfl | rfl := hx <;> rfl

theorem condense_between {x m : String} (hx : x ∈ ["S", "S1", "E"]) (hm : m ∈ [":=", ";", "op"])
    (a b : Tree Label) (s : String) :
    condense (Tree.word x [a, Tree.word m [Tree.word s []], b]) = do
      let t ← condense a
      return Tree.word s [t, ← condense b] := by
  simp only [List.mem_cons, List.not_mem_nil, or_false] at hx hm
  obtain rfl | rfl | rfl := hx <;> obtain rfl | rfl | rfl := hm <;> rfl

theorem condense_brackets {x y : String} (hx : x ∈ ["S1", "E0"]) (hy : y ∈ ["S", "E"])
    (ds us es : List (Tree Label)) :
    condense (Tree.word x [Tree.word "(" ds, Tree.word y us, Tree.word ")" es]) =
      condense (Tree.word y us) := by
  simp only [List.mem_cons, List.not_mem_nil, or_false] at hx hy
  obtain rfl | rfl := hx <;> obtain rfl | rfl := hy <;> rfl

theorem condense_cond {k : String} (hk : k ∈ ["if", "if_unrolled"]) (ks es : List (Tree Label))
    (m a n b : Tree Label) :
    condense (Tree.word "S1" [Tree.word k ks, Tree.word "E" es, m, a, n, b]) = do
      let r ← condense (Tree.word "E" es)
      let t ← condense a
      return Tree.word k [r, t, ← condense b] := by
  have hinner : condense (Tree.word "S1" [Tree.word k ks, Tree.word "E" es, m, a, n, b]) = do
      return Tree.word k (← [condense (Tree.word "E" es), condense a, condense b].mapM id) := by
    simp only [List.mem_cons, List.not_mem_nil, or_false] at hk
    obtain rfl | rfl := hk <;> rfl
  rw [hinner]
  cases condense (Tree.word "E" es) <;> cases condense a <;> cases condense b <;> rfl

theorem condense_loop (ks : List (Tree Label)) (e m a : Tree Label) :
    condense (Tree.word "S1" [Tree.word "while" ks, e, m, a]) = do
      let r ← condense e
      return Tree.word "while" [r, ← condense a] := by
  have hinner : condense (Tree.word "S1" [Tree.word "while" ks, e, m, a]) = do
      return Tree.word "while" (← [condense e, condense a].mapM id) := rfl
  rw [hinner]
  cases condense e <;> cases condense a <;> rfl

theorem condense_assert {k : String} (hk : k ∈ ["assert", "assert_unrolled"])
    (ks : List (Tree Label)) (e : Tree Label) :
    condense (Tree.word "S1" [Tree.word k ks, e]) = do
      return Tree.word k [← condense e] := by
  have hinner : condense (Tree.word "S1" [Tree.word k ks, e]) = do
      return Tree.word k (← [condense e].mapM id) := by
    simp only [List.mem_cons, List.not_mem_nil, or_false] at hk
    obtain rfl | rfl := hk <;> rfl
  rw [hinner]
  cases condense e <;> rfl

/-- A leaf stays, unless it is taken for a node that must have something below it. -/
theorem condense_leaf {x : String} {t : Tree Label} (h : condense (Tree.word x []) = .ok t) :
    x ∉ reserved ∧ t = Tree.word x [] := by
  rw [Tree.word, condense] at h
  simp only [condenseEach, List.length_nil] at h
  split_ifs at h
  all_goals simp_all [itemAt, bind, Except.bind, pure, Except.pure, Tree.word, reserved,
    Label.isWord, Label.text?]

theorem condense_leaf_eq {x : String} (hx : x ∉ reserved) :
    condense (Tree.word x []) = .ok (Tree.word x []) := by
  simp only [reserved, List.mem_cons, List.not_mem_nil, or_false, not_or] at hx
  simp [Tree.word, condense, condenseEach, Label.isWord, Label.text?, hx, bind, Except.bind, pure,
    Except.pure]

theorem condense_name {x : String} {t : Tree Label}
    (h : condense (Tree.word "id" [Tree.word x []]) = .ok t) :
    x ∉ reserved ∧ t = Tree.word "id" [Tree.word x []] := by
  have hcond : condense (Tree.word "id" [Tree.word x []]) = do
      return Tree.word "id" (← [condense (Tree.word x [])].mapM id) := rfl
  rw [hcond] at h
  cases hu : condense (Tree.word x []) with
  | error f =>
    rw [hu] at h
    cases h
  | ok u =>
    obtain ⟨hx, rfl⟩ := condense_leaf hu
    rw [hu] at h
    cases h
    exact ⟨hx, rfl⟩

theorem condense_numeral {s : String} {t : Tree Label}
    (h : condense (Tree.word "num" [Tree.word s []]) = .ok t) :
    ∃ n, Text.readInt s = .ok n ∧ t = Tree.word "num" [Tree.leaf (.num n)] := by
  have hcond : condense (Tree.word "num" [Tree.word s []]) = do
      return Tree.word "num" [.leaf (.num (← (Text.readInt s).mapError (Fault.ofNumeral s)))] := rfl
  rw [hcond] at h
  cases hn : Text.readInt s with
  | error e =>
    rw [hn] at h
    cases h
  | ok n =>
    rw [hn] at h
    cases h
    exact ⟨n, rfl, rfl⟩

theorem condense_hole (s : String) :
    condense (Tree.word "hole" [Tree.word s []]) = .ok (Tree.word "hole" [Tree.word s []]) :=
  rfl

theorem condense_skip :
    condense (Tree.word "skip" [Tree.word "skip" []]) =
      .ok (Tree.word "skip" [Tree.word "skip" []]) :=
  rfl

end Condense

section Elimination

variable {d : Tree Label} {ts : List Token}

theorem Token.eq_mark {t : Token} {m : Mark} (h : t.tag = m.text) : t = .mark m := by
  cases t with
  | mark m' =>
    have hinj : ∀ m m' : Mark, m'.text = m.text → m' = m := by
      intro m m'
      cases m <;> cases m' <;> decide
    rw [hinj m m' h]
  | _ => cases m <;> simp [Token.tag, Mark.text] at h

theorem Derives.mark {m : Mark} (h : Derives m.text d ts) :
    ts = [.mark m] ∧ d = Tree.word m.text [Tree.word m.text []] := by
  have hm : m.text ∉ ["γ", "S", "S1", "E", "E0"] := tag_not_symbol (.mark m)
  obtain ⟨t, rfl, ht, rfl⟩ := h.terminal hm
  obtain rfl := Token.eq_mark ht
  exact ⟨rfl, rfl⟩

theorem Derives.name (h : Derives "id" d ts) :
    ∃ x, ts = [.name x] ∧ d = Tree.word "id" [Tree.word x []] := by
  obtain ⟨t, rfl, ht, rfl⟩ := h.terminal (by decide)
  cases t with
  | name x => exact ⟨x, rfl, rfl⟩
  | mark m => cases m <;> simp [Token.tag, Mark.text] at ht
  | _ => simp [Token.tag] at ht

theorem Derives.numeral (h : Derives "num" d ts) :
    ∃ s, ts = [.numeral s] ∧ d = Tree.word "num" [Tree.word s []] := by
  obtain ⟨t, rfl, ht, rfl⟩ := h.terminal (by decide)
  cases t with
  | numeral s => exact ⟨s, rfl, rfl⟩
  | mark m => cases m <;> simp [Token.tag, Mark.text] at ht
  | _ => simp [Token.tag] at ht

theorem Derives.hole (h : Derives "hole" d ts) :
    ts = [.hole] ∧ d = Tree.word "hole" [Tree.word "??" []] := by
  obtain ⟨t, rfl, ht, rfl⟩ := h.terminal (by decide)
  cases t with
  | hole => exact ⟨rfl, rfl⟩
  | mark m => cases m <;> simp [Token.tag, Mark.text] at ht
  | _ => simp [Token.tag] at ht

theorem Derives.sign (h : Derives "op" d ts) :
    ∃ op : Operator, ts = [.sign op] ∧ d = Tree.word "op" [Tree.word op.programSign []] := by
  obtain ⟨t, rfl, ht, rfl⟩ := h.terminal (by decide)
  cases t with
  | sign op => exact ⟨op, rfl, rfl⟩
  | mark m => cases m <;> simp [Token.tag, Mark.text] at ht
  | _ => simp [Token.tag] at ht

end Elimination

section Soundness

theorem Derives.of_brackets {x : String} {ds : List (Tree Label)} {ts : List Token}
    (h : DerivesAll ["(", x, ")"] ds ts) :
    ∃ d us, ds = [Tree.word "(" [Tree.word "(" []], d, Tree.word ")" [Tree.word ")" []]] ∧
      ts = .mark .opening :: (us ++ [.mark .closing]) ∧ Derives x d us := by
  obtain ⟨d₁, _, ts₁, _, rfl, rfl, h₁, h⟩ := derivesAll_cons.mp h
  obtain ⟨d₂, _, ts₂, _, rfl, rfl, h₂, h⟩ := derivesAll_cons.mp h
  obtain ⟨d₃, rfl, h₃⟩ := derivesAll_one.mp h
  obtain ⟨rfl, rfl⟩ := Derives.mark (m := .opening) h₁
  obtain ⟨rfl, rfl⟩ := Derives.mark (m := .closing) h₃
  exact ⟨d₂, ts₂, rfl, rfl, h₂⟩

theorem Derives.root {x : String} (hx : x ∈ ["γ", "S", "S1", "E", "E0"]) {d : Tree Label}
    {ts : List Token} (h : Derives x d ts) : ∃ ds, d = Tree.word x ds := by
  obtain ⟨_, ds, -, hd, -⟩ := h.nonterminal hx
  exact ⟨ds, hd⟩

mutual

/-- What is left of a derivation of an operand is the tree of an expression with the same
tokens. -/
theorem Derives.operand {d t : Tree Label} {ts : List Token} (h : Derives "E0" d ts)
    (ht : condense d = .ok t) : ∃ e, t = e.tree ∧ OperandText e ts := by
  obtain ⟨rhs, ds, hr, hd, hds⟩ := h.nonterminal (by decide)
  have hsmaller : ∀ d' ∈ ds, d'.size < d.size := fun d' hd' => hd ▸ Tree.size_lt_size_node hd' _
  have hrhs : rhs = ["id"] ∨ rhs = ["num"] ∨ rhs = ["hole"] ∨ rhs = ["(", "E", ")"] := by
    simpa [rules, language, Rule.family, Grammar.goal, Grammar.topSymbol] using hr
  obtain rfl | rfl | rfl | rfl := hrhs
  · obtain ⟨d', rfl, hd'⟩ := derivesAll_one.mp hds
    obtain ⟨x, rfl, rfl⟩ := hd'.name
    rw [hd, condense_one (by decide)] at ht
    obtain ⟨hx, rfl⟩ := condense_name ht
    exact ⟨.var x, rfl, .var hx⟩
  · obtain ⟨d', rfl, hd'⟩ := derivesAll_one.mp hds
    obtain ⟨s, rfl, rfl⟩ := hd'.numeral
    rw [hd, condense_one (by decide)] at ht
    obtain ⟨n, hn, rfl⟩ := condense_numeral ht
    exact ⟨.num n, rfl, .num hn⟩
  · obtain ⟨d', rfl, hd'⟩ := derivesAll_one.mp hds
    obtain ⟨rfl, rfl⟩ := hd'.hole
    rw [hd, condense_one (by decide), condense_hole] at ht
    cases ht
    exact ⟨.hole, rfl, .hole⟩
  · obtain ⟨d', us, rfl, rfl, hd'⟩ := Derives.of_brackets hds
    have hsize : d'.size < d.size := hsmaller d' (by simp)
    obtain ⟨es, rfl⟩ := hd'.root (by decide)
    rw [hd, condense_brackets (by decide) (by decide)] at ht
    obtain ⟨e, he, hus⟩ := Derives.expr hd' ht
    exact ⟨e, he, .brackets hus⟩
termination_by d.size

theorem Derives.expr {d t : Tree Label} {ts : List Token} (h : Derives "E" d ts)
    (ht : condense d = .ok t) : ∃ e, t = e.tree ∧ ExprText e ts := by
  obtain ⟨rhs, ds, hr, hd, hds⟩ := h.nonterminal (by decide)
  have hsmaller : ∀ d' ∈ ds, d'.size < d.size := fun d' hd' => hd ▸ Tree.size_lt_size_node hd' _
  have hrhs : rhs = ["E0"] ∨ rhs = ["E0", "op", "E0"] := by
    simpa [rules, language, Rule.family, Grammar.goal, Grammar.topSymbol] using hr
  obtain rfl | rfl := hrhs
  · obtain ⟨d', rfl, hd'⟩ := derivesAll_one.mp hds
    have hsize : d'.size < d.size := hsmaller d' (by simp)
    rw [hd, condense_one (by decide)] at ht
    obtain ⟨e, he, hts⟩ := Derives.operand hd' ht
    exact ⟨e, he, .operand hts⟩
  · obtain ⟨d₁, _, ts₁, _, rfl, rfl, h₁, hds⟩ := derivesAll_cons.mp hds
    obtain ⟨d₂, _, ts₂, _, rfl, rfl, h₂, hds⟩ := derivesAll_cons.mp hds
    obtain ⟨d₃, rfl, h₃⟩ := derivesAll_one.mp hds
    obtain ⟨op, rfl, rfl⟩ := h₂.sign
    have hfirst : d₁.size < d.size := hsmaller d₁ (by simp)
    have hlast : d₃.size < d.size := hsmaller d₃ (by simp)
    rw [hd, condense_between (by decide) (by decide)] at ht
    obtain ⟨u, hu, ht⟩ := bind_eq_ok.mp ht
    obtain ⟨v, hv, ht⟩ := bind_eq_ok.mp ht
    cases ht
    obtain ⟨a, rfl, hts₁⟩ := Derives.operand h₁ hu
    obtain ⟨b, rfl, hts₃⟩ := Derives.operand h₃ hv
    exact ⟨.operate op a b, rfl, .operate op hts₁ hts₃⟩
termination_by d.size

end

theorem Derives.of_cond {m : Mark} (hm : m.text ∈ ["if", "if_unrolled"]) {ds : List (Tree Label)}
    {ts : List Token} {t : Tree Label}
    (h : DerivesAll [m.text, "E", "then", "S", "else", "S1"] ds ts)
    (ht : condense (Tree.word "S1" ds) = .ok t) :
    ∃ c, ∃ a ∈ ds, ∃ b ∈ ds, ∃ u v us vs ws,
      ts = .mark m :: (us ++ .mark .yes :: (vs ++ .mark .no :: ws)) ∧
      t = Tree.word m.text [c.tree, u, v] ∧ ExprText c us ∧
      Derives "S" a vs ∧ condense a = .ok u ∧ Derives "S1" b ws ∧ condense b = .ok v := by
  obtain ⟨d₁, _, ts₁, _, rfl, rfl, h₁, h⟩ := derivesAll_cons.mp h
  obtain ⟨d₂, _, ts₂, _, rfl, rfl, h₂, h⟩ := derivesAll_cons.mp h
  obtain ⟨d₃, _, ts₃, _, rfl, rfl, h₃, h⟩ := derivesAll_cons.mp h
  obtain ⟨d₄, _, ts₄, _, rfl, rfl, h₄, h⟩ := derivesAll_cons.mp h
  obtain ⟨d₅, _, ts₅, _, rfl, rfl, h₅, h⟩ := derivesAll_cons.mp h
  obtain ⟨d₆, rfl, h₆⟩ := derivesAll_one.mp h
  obtain ⟨rfl, rfl⟩ := h₁.mark
  obtain ⟨rfl, -⟩ := Derives.mark (m := .yes) h₃
  obtain ⟨rfl, -⟩ := Derives.mark (m := .no) h₅
  obtain ⟨es, rfl⟩ := h₂.root (by decide)
  rw [condense_cond hm] at ht
  obtain ⟨r, hr, ht⟩ := bind_eq_ok.mp ht
  obtain ⟨u, hu, ht⟩ := bind_eq_ok.mp ht
  obtain ⟨v, hv, ht⟩ := bind_eq_ok.mp ht
  cases ht
  obtain ⟨c, rfl, hc⟩ := h₂.expr hr
  exact ⟨c, d₄, by simp, d₆, by simp, u, v, ts₂, ts₄, _, rfl, rfl, hc, h₄, hu, h₆, hv⟩

theorem Derives.of_assert {m : Mark} (hm : m.text ∈ ["assert", "assert_unrolled"])
    {ds : List (Tree Label)} {ts : List Token} {t : Tree Label}
    (h : DerivesAll [m.text, "E"] ds ts) (ht : condense (Tree.word "S1" ds) = .ok t) :
    ∃ c us, ts = .mark m :: us ∧ t = Tree.word m.text [c.tree] ∧ ExprText c us := by
  obtain ⟨d₁, _, ts₁, _, rfl, rfl, h₁, h⟩ := derivesAll_cons.mp h
  obtain ⟨d₂, rfl, h₂⟩ := derivesAll_one.mp h
  obtain ⟨rfl, rfl⟩ := h₁.mark
  rw [condense_assert hm] at ht
  obtain ⟨r, hr, ht⟩ := bind_eq_ok.mp ht
  cases ht
  obtain ⟨c, rfl, hc⟩ := h₂.expr hr
  exact ⟨c, _, rfl, rfl, hc⟩

mutual

/-- What is left of a derivation of a statement is the tree of a statement with the same tokens. -/
theorem Derives.simple {d t : Tree Label} {ts : List Token} (h : Derives "S1" d ts)
    (ht : condense d = .ok t) : ∃ c, t = c.tree ∧ SimpleText c ts := by
  obtain ⟨rhs, ds, hr, hd, hds⟩ := h.nonterminal (by decide)
  have hsmaller : ∀ d' ∈ ds, d'.size < d.size := fun d' hd' => hd ▸ Tree.size_lt_size_node hd' _
  have hrhs : rhs = ["skip"] ∨ rhs = ["id", ":=", "E"] ∨
      rhs = [Mark.cond.text, "E", "then", "S", "else", "S1"] ∨
      rhs = [Mark.condStep.text, "E", "then", "S", "else", "S1"] ∨
      rhs = ["while", "E", "do", "S1"] ∨ rhs = [Mark.assert.text, "E"] ∨
      rhs = [Mark.exit.text, "E"] ∨ rhs = ["(", "S", ")"] := by
    simpa [rules, language, Rule.family, Grammar.goal, Grammar.topSymbol, Mark.text] using hr
  obtain rfl | rfl | rfl | rfl | rfl | rfl | rfl | rfl := hrhs
  · obtain ⟨d', rfl, hd'⟩ := derivesAll_one.mp hds
    obtain ⟨rfl, rfl⟩ := Derives.mark (m := .skip) hd'
    rw [hd, condense_one (by decide), Mark.text, condense_skip] at ht
    cases ht
    exact ⟨.skip, rfl, .skip⟩
  · obtain ⟨d₁, _, ts₁, _, rfl, rfl, h₁, hds⟩ := derivesAll_cons.mp hds
    obtain ⟨d₂, _, ts₂, _, rfl, rfl, h₂, hds⟩ := derivesAll_cons.mp hds
    obtain ⟨d₃, rfl, h₃⟩ := derivesAll_one.mp hds
    obtain ⟨x, rfl, rfl⟩ := h₁.name
    obtain ⟨rfl, rfl⟩ := Derives.mark (m := .becomes) h₂
    rw [hd, Mark.text, condense_between (by decide) (by decide)] at ht
    obtain ⟨u, hu, ht⟩ := bind_eq_ok.mp ht
    obtain ⟨v, hv, ht⟩ := bind_eq_ok.mp ht
    cases ht
    obtain ⟨e, rfl, hes⟩ := h₃.expr hv
    obtain ⟨hx, rfl⟩ := condense_name hu
    exact ⟨.assign x e, rfl, .assign hx hes⟩
  · obtain ⟨c, a, ha, b, hb, u, v, us, vs, ws, rfl, rfl, hus, hvs, hu, hws, hv⟩ :=
      Derives.of_cond (by decide) hds (hd ▸ ht)
    have hyes : a.size < d.size := hsmaller a ha
    have hno : b.size < d.size := hsmaller b hb
    obtain ⟨x, rfl, hvs⟩ := Derives.stmt hvs hu
    obtain ⟨y, rfl, hws⟩ := Derives.simple hws hv
    exact ⟨.ite c x y, rfl, .ite hus hvs hws⟩
  · obtain ⟨c, a, ha, b, hb, u, v, us, vs, ws, rfl, rfl, hus, hvs, hu, hws, hv⟩ :=
      Derives.of_cond (by decide) hds (hd ▸ ht)
    have hyes : a.size < d.size := hsmaller a ha
    have hno : b.size < d.size := hsmaller b hb
    obtain ⟨x, rfl, hvs⟩ := Derives.stmt hvs hu
    obtain ⟨y, rfl, hws⟩ := Derives.simple hws hv
    exact ⟨.step c x y, rfl, .step hus hvs hws⟩
  · obtain ⟨d₁, _, ts₁, _, rfl, rfl, h₁, hds⟩ := derivesAll_cons.mp hds
    obtain ⟨d₂, _, ts₂, _, rfl, rfl, h₂, hds⟩ := derivesAll_cons.mp hds
    obtain ⟨d₃, _, ts₃, _, rfl, rfl, h₃, hds⟩ := derivesAll_cons.mp hds
    obtain ⟨d₄, rfl, h₄⟩ := derivesAll_one.mp hds
    obtain ⟨rfl, rfl⟩ := Derives.mark (m := .loop) h₁
    obtain ⟨rfl, rfl⟩ := Derives.mark (m := .body) h₃
    have hsize : d₄.size < d.size := hsmaller d₄ (by simp)
    rw [hd, Mark.text, condense_loop] at ht
    obtain ⟨r, hr, ht⟩ := bind_eq_ok.mp ht
    obtain ⟨u, hu, ht⟩ := bind_eq_ok.mp ht
    cases ht
    obtain ⟨c, rfl, hcs⟩ := h₂.expr hr
    obtain ⟨a, rfl, has⟩ := Derives.simple h₄ hu
    exact ⟨.loop c a, rfl, .loop hcs has⟩
  · obtain ⟨c, us, rfl, rfl, hus⟩ := Derives.of_assert (by decide) hds (hd ▸ ht)
    exact ⟨.assert c, rfl, .assert hus⟩
  · obtain ⟨c, us, rfl, rfl, hus⟩ := Derives.of_assert (by decide) hds (hd ▸ ht)
    exact ⟨.exit c, rfl, .exit hus⟩
  · obtain ⟨d', us, rfl, rfl, hd'⟩ := Derives.of_brackets hds
    have hsize : d'.size < d.size := hsmaller d' (by simp)
    obtain ⟨es, rfl⟩ := hd'.root (by decide)
    rw [hd, condense_brackets (by decide) (by decide)] at ht
    obtain ⟨c, hc, hus⟩ := Derives.stmt hd' ht
    exact ⟨c, hc, .brackets hus⟩
termination_by d.size

theorem Derives.stmt {d t : Tree Label} {ts : List Token} (h : Derives "S" d ts)
    (ht : condense d = .ok t) : ∃ c, t = c.tree ∧ StmtText c ts := by
  obtain ⟨rhs, ds, hr, hd, hds⟩ := h.nonterminal (by decide)
  have hsmaller : ∀ d' ∈ ds, d'.size < d.size := fun d' hd' => hd ▸ Tree.size_lt_size_node hd' _
  have hrhs : rhs = ["S1"] ∨ rhs = ["S1", ";", "S"] := by
    simpa [rules, language, Rule.family, Grammar.goal, Grammar.topSymbol] using hr
  obtain rfl | rfl := hrhs
  · obtain ⟨d', rfl, hd'⟩ := derivesAll_one.mp hds
    have hsize : d'.size < d.size := hsmaller d' (by simp)
    rw [hd, condense_one (by decide)] at ht
    obtain ⟨c, hc, hts⟩ := Derives.simple hd' ht
    exact ⟨c, hc, .simple hts⟩
  · obtain ⟨d₁, _, ts₁, _, rfl, rfl, h₁, hds⟩ := derivesAll_cons.mp hds
    obtain ⟨d₂, _, ts₂, _, rfl, rfl, h₂, hds⟩ := derivesAll_cons.mp hds
    obtain ⟨d₃, rfl, h₃⟩ := derivesAll_one.mp hds
    obtain ⟨rfl, rfl⟩ := Derives.mark (m := .next) h₂
    have hfirst : d₁.size < d.size := hsmaller d₁ (by simp)
    have hlast : d₃.size < d.size := hsmaller d₃ (by simp)
    rw [hd, Mark.text, condense_between (by decide) (by decide)] at ht
    obtain ⟨u, hu, ht⟩ := bind_eq_ok.mp ht
    obtain ⟨v, hv, ht⟩ := bind_eq_ok.mp ht
    cases ht
    obtain ⟨a, rfl, hts₁⟩ := Derives.simple h₁ hu
    obtain ⟨b, rfl, hts₃⟩ := Derives.stmt h₃ hv
    exact ⟨.seq a b, rfl, .seq hts₁ hts₃⟩
termination_by d.size

end

end Soundness

section Completeness

def Produces (x : String) (ts : List Token) : Prop :=
  ∃ d, Yields language.grammar.rules x d (ts.map Token.word)

def ProducesAll (xs : List String) (ts : List Token) : Prop :=
  ∃ ds, YieldsAll language.grammar.rules xs ds (ts.map Token.word)

theorem Produces.token (t : Token) : Produces t.tag [t] :=
  ⟨_, .word (List.mem_singleton.mpr rfl)⟩

theorem Produces.rule {x : String} {rhs : List String} {ts : List Token}
    (hr : ⟨x, rhs⟩ ∈ language.grammar.rules) (h : ProducesAll rhs ts) : Produces x ts := by
  obtain ⟨ds, hds⟩ := h
  exact ⟨_, .rule hr hds⟩

theorem ProducesAll.one {x : String} {ts : List Token} (h : Produces x ts) : ProducesAll [x] ts := by
  obtain ⟨d, hd⟩ := h
  have hone : YieldsAll language.grammar.rules [x] [d] (ts.map Token.word ++ []) := .cons hd .nil
  rw [List.append_nil] at hone
  exact ⟨[d], hone⟩

theorem Produces.cons {x : String} {xs : List String} {ts us : List Token} (h : Produces x ts)
    (hs : ProducesAll xs us) : ProducesAll (x :: xs) (ts ++ us) := by
  obtain ⟨d, hd⟩ := h
  obtain ⟨ds, hds⟩ := hs
  refine ⟨d :: ds, ?_⟩
  rw [List.map_append]
  exact .cons hd hds

theorem ProducesAll.token {xs : List String} {ts : List Token} (t : Token)
    (hs : ProducesAll xs ts) : ProducesAll (t.tag :: xs) (t :: ts) :=
  (Produces.token t).cons hs

theorem ProducesAll.brackets {x : String} {ts : List Token} (h : Produces x ts) :
    ProducesAll ["(", x, ")"] (.mark .opening :: (ts ++ [.mark .closing])) :=
  (h.cons (.one (.token (.mark .closing)))).token (.mark .opening)

mutual

theorem OperandText.produces {e : Expr} {ts : List Token} : OperandText e ts → Produces "E0" ts
  | @OperandText.var x _ => by
    have hrule : ⟨"E0", ["id"]⟩ ∈ language.grammar.rules := by decide
    exact .rule hrule (.one (.token (.name x)))
  | @OperandText.num s _ _ => by
    have hrule : ⟨"E0", ["num"]⟩ ∈ language.grammar.rules := by decide
    exact .rule hrule (.one (.token (.numeral s)))
  | .hole => by
    have hrule : ⟨"E0", ["hole"]⟩ ∈ language.grammar.rules := by decide
    exact .rule hrule (.one (.token .hole))
  | .brackets he => .rule (by decide) (.brackets he.produces)

theorem ExprText.produces {e : Expr} {ts : List Token} : ExprText e ts → Produces "E" ts
  | .operand he => .rule (by decide) (.one he.produces)
  | .operate op ha hb => by
    have hrule : ⟨"E", ["E0", "op", "E0"]⟩ ∈ language.grammar.rules := by decide
    exact .rule hrule (ha.produces.cons ((ProducesAll.one hb.produces).token (.sign op)))

end

mutual

theorem SimpleText.produces {a : Stmt} {ts : List Token} : SimpleText a ts → Produces "S1" ts
  | .skip => .rule (by decide) (.one (.token (.mark .skip)))
  | @SimpleText.assign x _ _ _ he => by
    have hrule : ⟨"S1", ["id", ":=", "E"]⟩ ∈ language.grammar.rules := by decide
    exact .rule hrule (((ProducesAll.one he.produces).token (.mark .becomes)).token (.name x))
  | .ite hc ha hb => by
    have hno := (ProducesAll.one hb.produces).token (.mark .no)
    have hyes := (ha.produces.cons hno).token (.mark .yes)
    exact .rule (by decide) ((hc.produces.cons hyes).token (.mark .cond))
  | .step hc ha hb => by
    have hno := (ProducesAll.one hb.produces).token (.mark .no)
    have hyes := (ha.produces.cons hno).token (.mark .yes)
    exact .rule (by decide) ((hc.produces.cons hyes).token (.mark .condStep))
  | .loop hc ha => by
    have hbody := (ProducesAll.one ha.produces).token (.mark .body)
    exact .rule (by decide) ((hc.produces.cons hbody).token (.mark .loop))
  | .assert hc => .rule (by decide) ((ProducesAll.one hc.produces).token (.mark .assert))
  | .exit hc => .rule (by decide) ((ProducesAll.one hc.produces).token (.mark .exit))
  | .brackets ha => .rule (by decide) (.brackets ha.produces)

theorem StmtText.produces {a : Stmt} {ts : List Token} : StmtText a ts → Produces "S" ts
  | .simple ha => .rule (by decide) (.one ha.produces)
  | .seq ha hb =>
    .rule (by decide) (ha.produces.cons ((ProducesAll.one hb.produces).token (.mark .next)))

end

theorem succeeds_condense {r : Label} (hnum : r.isWord "num" = false)
    (hhole : r.isWord "hole" = false) {ds : List (Tree Label)} (hne : ds ≠ [])
    (hds : ∀ d ∈ ds, Succeeds (condense d) ∧ d.subtrees ≠ []) :
    Succeeds (condense (.node r ds)) := by
  have hpos : 0 < ds.length := List.length_pos_iff.mpr hne
  have hparts : ∀ x ∈ condenseEach ds, Succeeds x := by
    rw [condenseEach_eq]
    intro x hx
    obtain ⟨d, hd, rfl⟩ := List.mem_map.mp hx
    exact (hds d hd).1
  have hlen : (condenseEach ds).length = ds.length := by rw [condenseEach_eq, List.length_map]
  have hinner : ∀ x ∈ alternate (condenseEach ds), Succeeds x :=
    fun x hx => hparts x (mem_of_mem_alternate hx)
  rw [condense]
  refine .ite (fun _ => ?_) fun _ => .ite (fun hbetween => ?_) fun _ => .ite (fun hbracket => ?_)
    fun _ => .ite (fun _ => ?_) fun _ => .ite (fun h => by simp [hnum] at h) fun _ =>
    .ite (fun h => by simp [hhole] at h) fun _ => ?_
  · exact (succeeds_itemAt (by omega)).bind fun x hx => .item hparts hx
  · simp only [Bool.and_eq_true, beq_iff_eq] at hbetween
    refine (succeeds_itemAt (by omega)).bind fun d hd => ?_
    have hsub : d.subtrees ≠ [] := (hds d (List.mem_of_getElem? (itemAt_eq_ok.mp hd))).2
    refine (succeeds_itemAt (List.length_pos_iff.mpr hsub)).bind fun sign _ => ?_
    refine (succeeds_itemAt (by omega)).bind fun x hx => (Succeeds.item hparts hx).bind fun t _ => ?_
    refine (succeeds_itemAt (by omega)).bind fun y hy => (Succeeds.item hparts hy).bind fun u _ => ?_
    exact ⟨_, rfl⟩
  · simp only [Bool.and_eq_true, beq_iff_eq] at hbracket
    exact (succeeds_itemAt (by omega)).bind fun x hx => .item hparts hx
  · refine (succeeds_itemAt hpos).bind fun k _ => .ite (fun _ => .ite (fun hthree => ?_) fun _ => ?_)
      fun _ => ?_
    · simp only [Bool.and_eq_true, beq_iff_eq] at hthree
      exact (succeeds_itemAt (by omega)).bind fun x hx => .item hinner hx
    · exact (Succeeds.mapM hinner).bind fun us _ => ⟨_, rfl⟩
    · exact (Succeeds.mapM hparts).bind fun us _ => ⟨_, rfl⟩
  · exact (Succeeds.mapM hparts).bind fun us _ => ⟨_, rfl⟩

theorem succeeds_condense_token {t : Token} (ht : Legible t) :
    Succeeds (condense (Tree.word t.tag [Tree.word t.text []])) := by
  cases t with
  | name x =>
    have hcond : condense (Tree.word "id" [Tree.word x []]) = do
        return Tree.word "id" (← [condense (Tree.word x [])].mapM id) := rfl
    rw [Token.tag, Token.text, hcond, condense_leaf_eq ht]
    exact ⟨_, rfl⟩
  | numeral s =>
    obtain ⟨n, hn⟩ := ht
    have hcond : condense (Tree.word "num" [Tree.word s []]) = do
      return Tree.word "num" [.leaf (.num (← (Text.readInt s).mapError (Fault.ofNumeral s)))] := rfl
    rw [Token.tag, Token.text, hcond, hn]
    exact ⟨_, rfl⟩
  | sign op => cases op <;> exact ⟨_, rfl⟩
  | hole => exact ⟨_, rfl⟩
  | mark m => cases m <;> exact ⟨_, rfl⟩

mutual

/-- There is something left of each derivation of tokens that can be read. -/
theorem Yields.succeeds_condense {x : String} {d : Tree Label} {ws : List Word}
    (h : Yields rules x d ws) (hws : ∀ w ∈ ws, ∃ t : Token, Legible t ∧ w = t.word) :
    Succeeds (condense d) ∧ d.subtrees ≠ [] := by
  cases h with
  | word htag =>
    obtain ⟨t, ht, rfl⟩ := hws _ (List.mem_singleton.mpr rfl)
    rw [List.mem_singleton.mp htag]
    exact ⟨succeeds_condense_token ht, List.cons_ne_nil _ _⟩
  | @rule r ds _ hr hds =>
    have hrules : ∀ r ∈ rules, r.rhs ≠ [] ∧ r.lhs ≠ "num" ∧ r.lhs ≠ "hole" := by decide
    obtain ⟨hrhs, hnum, hhole⟩ := hrules r hr
    have hne : ds ≠ [] := by
      rintro rfl
      generalize r.rhs = xs at hrhs hds
      cases hds
      exact hrhs rfl
    refine ⟨While.succeeds_condense ?_ ?_ hne (YieldsAll.succeeds_condense hds hws), hne⟩
    · simpa [Label.isWord, Label.text?] using hnum
    · simpa [Label.isWord, Label.text?] using hhole

theorem YieldsAll.succeeds_condense {xs : List String} {ds : List (Tree Label)} {ws : List Word}
    (h : YieldsAll rules xs ds ws) (hws : ∀ w ∈ ws, ∃ t : Token, Legible t ∧ w = t.word) :
    ∀ d ∈ ds, Succeeds (condense d) ∧ d.subtrees ≠ [] := by
  cases h with
  | nil => simp
  | cons hd hds =>
    rw [List.forall_mem_cons]
    exact ⟨Yields.succeeds_condense hd fun w hw => hws w (List.mem_append_left _ hw),
      YieldsAll.succeeds_condense hds fun w hw => hws w (List.mem_append_right _ hw)⟩

end

end Completeness

theorem exists_derives {text : String} {ts : List Token}
    (hts : language.tokens text = ts.map Token.word) {d : Tree Label}
    (h : language.derive? text = some d) :
    ∃ d', d = Tree.word "γ" [d'] ∧ Derives "S" d' ts := by
  have hmem : d ∈ language.grammar.trees ⟨language.tokens text⟩ := List.mem_of_head? h
  have hderives : Derives "γ" d ts := by
    rw [Derives, ← hts]
    exact Grammar.trees_sound hmem
  obtain ⟨rhs, ds, hr, rfl, hds⟩ := hderives.nonterminal (by decide)
  have hrhs : rhs = ["S"] := by
    simpa [rules, language, Rule.family, Grammar.goal, Grammar.topSymbol, Grammar.start,
      Grammar.start?, Option.filter_some] using hr
  rw [hrhs] at hds
  obtain ⟨d', rfl, hd'⟩ := derivesAll_one.mp hds
  exact ⟨d', rfl, hd'⟩

theorem exists_derive {text : String} {d₀ : Tree Label}
    (h : Yields language.grammar.rules "S" d₀ (language.tokens text)) :
    ∃ d, language.derive? text = some d := by
  obtain ⟨u, hu⟩ := Grammar.exists_tree (s := ⟨language.tokens text⟩) h
  rw [Language.derive?]
  cases htrees : language.grammar.trees ⟨language.tokens text⟩ with
  | nil =>
    rw [htrees] at hu
    cases hu
  | cons d ds => exact ⟨d, rfl⟩

/-- A text denotes a program just when it is written with tokens of a statement, and the program is
the tree of that statement. -/
theorem parse_eq_some_iff {text : String} {ts : List Token}
    (hts : language.tokens text = ts.map Token.word) {t : Tree Label} :
    parse text = .ok (some t) ↔ ∃ c, StmtText c ts ∧ t = c.tree := by
  constructor
  · intro h
    rw [parse] at h
    cases hd : language.derive? text with
    | none =>
      rw [hd] at h
      cases h
    | some d =>
      rw [hd] at h
      obtain ⟨t', ht, heq⟩ := bind_eq_ok.mp h
      cases heq
      obtain ⟨d', rfl, hd'⟩ := exists_derives hts hd
      rw [condense_one (by decide)] at ht
      obtain ⟨c, hc, hcs⟩ := hd'.stmt ht
      exact ⟨c, hcs, hc⟩
  · rintro ⟨c, hc, rfl⟩
    obtain ⟨d₀, hd₀⟩ := hc.produces
    rw [← hts] at hd₀
    obtain ⟨d, hd⟩ := exists_derive hd₀
    obtain ⟨d', rfl, hd'⟩ := exists_derives hts hd
    have hlegible : ∀ w ∈ ts.map Token.word, ∃ t : Token, Legible t ∧ w = t.word := by
      intro w hw
      obtain ⟨t, ht, rfl⟩ := List.mem_map.mp hw
      exact ⟨t, hc.legible t ht, rfl⟩
    obtain ⟨⟨t, ht⟩, -⟩ := Yields.succeeds_condense hd' hlegible
    obtain ⟨c', rfl, hc'⟩ := hd'.stmt ht
    rw [parse, hd, hc.unique hc']
    change (condense _ >>= fun t => .ok (some t)) = _
    rw [condense_one (by decide), ht]
    rfl

/-- A text that denotes a program is written with tokens of a statement, and the program is the
tree of that statement. -/
theorem parse_sound {text : String} {t : Tree Label} (h : parse text = .ok (some t)) :
    ∃ c ts, language.tokens text = ts.map Token.word ∧ StmtText c ts ∧ StmtTree c t ∧
      ∀ x, Token.name x ∈ ts → isName x = true := by
  obtain ⟨ts, hts⟩ := exists_lexes text.toList
  obtain ⟨c, hc, rfl⟩ := (parse_eq_some_iff hts.tokens_eq).mp h
  exact ⟨c, ts, hts.tokens_eq, hc, hc.stmtTree, fun x => hts.isName_of_mem⟩

section Uniqueness

/-- The categories with which a statement, a sequence or an expression can go on. -/
def goesOn : String → List String
  | "S" => [";", "op"]
  | "S1" => ["op"]
  | "E" => ["op"]
  | _ => []

theorem looksAhead_goesOn : language.grammar.looksAhead goesOn = true := by
  decide

theorem Token.plain (t : Token) : language.grammar.Plain t.word := by
  refine ⟨t.tag, rfl, ?_⟩
  cases t with
  | mark m => cases m <;> decide
  | _ => rfl

/-- Tokens have at most one derivation from the symbol of statements, and in each text with these
tokens it is the one that is found. -/
theorem derivation_unique {ts : List Token} {d : Tree Label}
    (h : Yields language.grammar.rules "S" d (ts.map Token.word)) :
    (∀ d', Yields language.grammar.rules "S" d' (ts.map Token.word) → d' = d) ∧
      ∀ text, language.tokens text = ts.map Token.word →
        language.derive? text = some (Tree.word "γ" [d]) := by
  have hplain : ∀ w ∈ ts.map Token.word, language.grammar.Plain w := by
    intro w hw
    obtain ⟨t, -, rfl⟩ := List.mem_map.mp hw
    exact t.plain
  have hunique : ∀ d', Yields language.grammar.rules "S" d' (ts.map Token.word) → d' = d :=
    fun d' h' => h'.unique looksAhead_goesOn h hplain
  refine ⟨hunique, fun text hts => ?_⟩
  obtain ⟨u, hu⟩ := exists_derive (hts ▸ h)
  obtain ⟨d', rfl, hd'⟩ := exists_derives hts hu
  rw [hu, hunique d' (hd'.of_cons (by decide) (by decide))]

/-- A condition whose first branch is a sequence, and which is itself followed by a statement. -/
theorem derivation_unique_branching :
    ∃ d, Yields language.grammar.rules "S" d
        (List.map Token.word [.mark .cond, .name "x", .mark .yes, .mark .skip, .mark .next,
          .mark .skip, .mark .no, .mark .skip, .mark .next, .mark .skip]) ∧
      ∀ d', Yields language.grammar.rules "S" d'
        (List.map Token.word [.mark .cond, .name "x", .mark .yes, .mark .skip, .mark .next,
          .mark .skip, .mark .no, .mark .skip, .mark .next, .mark .skip]) → d' = d := by
  have hbranching : StmtText (.seq (.ite (.var "x") (.seq .skip .skip) .skip) .skip)
      [.mark .cond, .name "x", .mark .yes, .mark .skip, .mark .next, .mark .skip, .mark .no,
        .mark .skip, .mark .next, .mark .skip] :=
    .seq (.ite (.operand (.var (by decide))) (.seq .skip (.simple .skip)) .skip) (.simple .skip)
  obtain ⟨d, hd⟩ := hbranching.produces
  exact ⟨d, hd, (derivation_unique hd).1⟩

end Uniqueness

end WhileSketch.While
