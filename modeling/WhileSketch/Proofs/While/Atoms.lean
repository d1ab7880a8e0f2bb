import Mathlib
import WhileSketch.Proofs.While.Legibility

/-! The names, numbers and holes of a program are those of its text, in the same order. A text whose
tokens come from the symbol of statements is a program, unless a variable has a name that
derivations use for something else. -/

namespace WhileSketch.While

def numeralValue (s : String) : Int :=
  let size : Nat := Nat.ofDigits 10 (s.toList.filterMap Text.digitValue?).reverse
  if s.toList.head? = some '-' then -size else size

/-- The name, number or hole that a word of a text stands for, with its kind. -/
def wordAtom? (w : Word) : Option (String × Label) :=
  match w.tags with
  | ["id"] => some ("id", .word w.text)
  | ["num"] => some ("num", .num (numeralValue w.text))
  | ["hole"] => some ("hole", .word w.text)
  | _ => none

mutual

/-- What is below the nodes of names, numbers and holes in a tree, from left to right. -/
def atoms : Tree Label → List (String × Label)
  | .node r ts =>
    match ["id", "num", "hole"].find? r.isWord with
    | some kind => ts.map fun t => (kind, t.root)
    | none => atomsEach ts

def atomsEach : List (Tree Label) → List (String × Label)
  | [] => []
  | t :: ts => atoms t ++ atomsEach ts

end

theorem atoms_word {w : String} (hw : w ∉ ["id", "num", "hole"]) (ts : List (Tree Label)) :
    atoms (Tree.word w ts) = atomsEach ts := by
  have hfind : ["id", "num", "hole"].find? (Label.isWord (.word w)) = none := by
    rw [List.find?_eq_none]
    intro kind hkind hword
    apply hw
    have hw : w = kind := by simpa [Label.isWord, Label.text?] using hword
    rwa [hw]
  rw [Tree.word, atoms, hfind]

section Numerals

theorem ofDigits_eq (ds : List Nat) : Text.ofDigits ds = Nat.ofDigits 10 ds.reverse := by
  induction ds using List.reverseRecOn with
  | nil => rfl
  | append_singleton ds d ih =>
    rw [List.reverse_append, List.reverse_singleton, List.singleton_append, Nat.ofDigits_cons, ← ih]
    simp [Text.ofDigits, Nat.add_comm]

theorem exists_signed {s : String} (hs : isNumeral s = true) :
    ∃ sign ds, s.toList = sign ++ ds ∧ (sign = [] ∨ sign = ['+'] ∨ sign = ['-']) ∧
      (∀ d ∈ ds, Text.isDigit d = true) ∧ ds ≠ [] := by
  obtain ⟨c, ds, hcs, hds, ⟨rfl | rfl, hne⟩ | hc⟩ := isNumeral_chars hs
  · exact ⟨['+'], ds, hcs, by simp, hds, hne⟩
  · exact ⟨['-'], ds, hcs, by simp, hds, hne⟩
  · exact ⟨[], c :: ds, hcs, by simp, List.forall_mem_cons.mpr ⟨hc, hds⟩, List.cons_ne_nil c ds⟩

theorem readInt_of_isNumeral {s : String} (hs : isNumeral s = true)
    (hdigits : s.toList.countP Text.isDigit ≤ Text.maxDigits) :
    Text.readInt s = .ok (numeralValue s) := by
  obtain ⟨sign, ds, hsplit, hsign, hds, hne⟩ := exists_signed hs
  have hlength : ds.length ≤ Text.maxDigits := by
    rw [← List.countP_eq_length.mpr hds]
    refine le_trans ?_ hdigits
    rw [hsplit, List.countP_append]
    exact Nat.le_add_left _ _
  have hvalues : s.toList.filterMap Text.digitValue? = ds.filterMap Text.digitValue? := by
    rw [hsplit, List.filterMap_append]
    obtain rfl | rfl | rfl := hsign <;> rfl
  have hminus : s.toList.head? = some '-' ↔ sign = ['-'] := by
    obtain ⟨d, rest, rfl⟩ := List.exists_cons_of_ne_nil hne
    have hd : d ≠ '-' := by
      rintro rfl
      exact absurd (hds '-' (by simp)) (by decide)
    rw [hsplit]
    obtain rfl | rfl | rfl := hsign <;> simp [hd]
  rw [Text.readInt_signed hsplit hsign hds hne, if_neg (Nat.not_lt.mpr hlength), numeralValue,
    hvalues, ofDigits_eq]
  simp only [hminus]

theorem Lexes.isNumeral_of_mem {cs : List Char} {ts : List Token} (h : Lexes cs ts) {s : String}
    (hs : .numeral s ∈ ts) : isNumeral s = true := by
  induction h with
  | nil => cases hs
  | skip _ _ ih => exact ih hs
  | token ht _ ih =>
    obtain rfl | hs := List.mem_cons.mp hs
    · exact ht.1
    · exact ih hs

end Numerals

section Reading

theorem wordAtom?_mark (m : Mark) : wordAtom? (Token.mark m).word = none := by
  cases m <;> rfl

def tokenAtoms (ts : List Token) : List (String × Label) :=
  ts.filterMap fun t => wordAtom? t.word

@[simp] theorem tokenAtoms_nil : tokenAtoms [] = [] :=
  rfl

@[simp] theorem tokenAtoms_append (ts us : List Token) :
    tokenAtoms (ts ++ us) = tokenAtoms ts ++ tokenAtoms us :=
  List.filterMap_append

@[simp] theorem tokenAtoms_mark (m : Mark) (ts : List Token) :
    tokenAtoms (.mark m :: ts) = tokenAtoms ts :=
  List.filterMap_cons_none (wordAtom?_mark m)

@[simp] theorem tokenAtoms_sign (op : Operator) (ts : List Token) :
    tokenAtoms (.sign op :: ts) = tokenAtoms ts :=
  rfl

@[simp] theorem tokenAtoms_name (x : String) (ts : List Token) :
    tokenAtoms (.name x :: ts) = ("id", .word x) :: tokenAtoms ts :=
  rfl

/-- All numerals of some tokens can be read, and as what they stand for. -/
def NumeralsRead (ts : List Token) : Prop :=
  ∀ s, .numeral s ∈ ts → Text.readInt s = .ok (numeralValue s)

mutual

theorem OperandText.atoms_eq {e : Expr} {ts : List Token} :
    OperandText e ts → NumeralsRead ts → atoms e.tree = tokenAtoms ts
  | .var _, _ => rfl
  | @OperandText.num s n hn, hts => by
    have hvalue := hts s (by simp)
    rw [hn] at hvalue
    obtain rfl := Except.ok.inj hvalue
    rfl
  | .hole, _ => rfl
  | .brackets he, hts => by
    have hinner := he.atoms_eq fun s hs => hts s (by simp [hs])
    simpa using hinner

theorem ExprText.atoms_eq {e : Expr} {ts : List Token} :
    ExprText e ts → NumeralsRead ts → atoms e.tree = tokenAtoms ts
  | .operand he, hts => he.atoms_eq hts
  | .operate op ha hb, hts => by
    have hleft := ha.atoms_eq fun s hs => hts s (by simp [hs])
    have hright := hb.atoms_eq fun s hs => hts s (by simp [hs])
    have hop : op.programSign ∉ ["id", "num", "hole"] := by cases op <;> decide
    rw [Expr.tree, atoms_word hop]
    simp [atomsEach, hleft, hright]

end

mutual

theorem SimpleText.atoms_eq {c : Stmt} {ts : List Token} :
    SimpleText c ts → NumeralsRead ts → atoms c.tree = tokenAtoms ts
  | .skip, _ => rfl
  | @SimpleText.assign x _ _ _ he, hts => by
    have hvalue := he.atoms_eq fun s hs => hts s (by simp [hs])
    have hname : atoms (Tree.word "id" [Tree.word x []]) = [("id", .word x)] := rfl
    rw [Stmt.tree, atoms_word (by decide)]
    simp [atomsEach, hname, hvalue]
  | .ite hc ha hb, hts | .step hc ha hb, hts => by
    have htest := hc.atoms_eq fun s hs => hts s (by simp [hs])
    have hyes := ha.atoms_eq fun s hs => hts s (by simp [hs])
    have hno := hb.atoms_eq fun s hs => hts s (by simp [hs])
    rw [Stmt.tree, atoms_word (by decide)]
    simp [atomsEach, htest, hyes, hno]
  | .loop hc ha, hts => by
    have htest := hc.atoms_eq fun s hs => hts s (by simp [hs])
    have hbody := ha.atoms_eq fun s hs => hts s (by simp [hs])
    rw [Stmt.tree, atoms_word (by decide)]
    simp [atomsEach, htest, hbody]
  | .assert hc, hts | .exit hc, hts => by
    have htest := hc.atoms_eq fun s hs => hts s (by simp [hs])
    rw [Stmt.tree, atoms_word (by decide)]
    simp [atomsEach, htest]
  | .brackets ha, hts => by
    have hinner := ha.atoms_eq fun s hs => hts s (by simp [hs])
    simpa using hinner

theorem StmtText.atoms_eq {c : Stmt} {ts : List Token} :
    StmtText c ts → NumeralsRead ts → atoms c.tree = tokenAtoms ts
  | .simple ha, hts => ha.atoms_eq hts
  | .seq ha hb, hts => by
    have hfirst := ha.atoms_eq fun s hs => hts s (by simp [hs])
    have hsecond := hb.atoms_eq fun s hs => hts s (by simp [hs])
    rw [Stmt.tree, atoms_word (by decide)]
    simp [atomsEach, hfirst, hsecond]

end

end Reading

section Derivations

mutual

/-- If the numerals among some words can be read, nothing but a missing part is the cause when
nothing is left of a derivation of them. -/
theorem Yields.failsOnly_condense {x : String} {d : Tree Label} {ws : List Word}
    (h : Yields rules x d ws)
    (hws : ∀ w ∈ ws, "num" ∈ w.tags → ∃ n, Text.readInt w.text = .ok n) :
    FailsOnly (Eq .noSuchItem) (condense d) := by
  cases h with
  | @word _ w htag =>
    have hleaf : FailsOnly (Eq .noSuchItem) (condense (Tree.word w.text [])) :=
      While.failsOnly_condense rfl (by simp) (by simp)
    refine While.failsOnly_condense rfl (fun hnum => ?_) (by simpa using hleaf)
    obtain rfl : x = "num" := by simpa [Label.isWord, Label.text?] using hnum
    obtain ⟨n, hn⟩ := hws w (by simp) htag
    rw [List.forall_mem_singleton]
    change FailsOnly _ ((Text.readInt w.text).mapError (Fault.ofNumeral w.text))
    rw [hn]
    exact failsOnly_ok n
  | @rule r ds _ hr hds =>
    have hrules : ∀ r ∈ rules, r.lhs ≠ "num" := by decide
    have hds' := YieldsAll.failsOnly_condense hds hws
    refine While.failsOnly_condense rfl (fun hnum => ?_) hds'
    exact absurd (by simpa [Label.isWord, Label.text?] using hnum) (hrules r hr)

theorem YieldsAll.failsOnly_condense {xs : List String} {ds : List (Tree Label)} {ws : List Word}
    (h : YieldsAll rules xs ds ws)
    (hws : ∀ w ∈ ws, "num" ∈ w.tags → ∃ n, Text.readInt w.text = .ok n) :
    ∀ d ∈ ds, FailsOnly (Eq .noSuchItem) (condense d) := by
  cases h with
  | nil => simp
  | cons hd hds =>
    rw [List.forall_mem_append] at hws
    rw [List.forall_mem_cons]
    exact ⟨Yields.failsOnly_condense hd hws.1, YieldsAll.failsOnly_condense hds hws.2⟩

end

variable {text : String} {ts : List Token} {d : Tree Label}

theorem exists_parse_eq (hts : language.tokens text = ts.map Token.word)
    (hd : Yields language.grammar.rules "S" d (language.tokens text)) :
    ∃ d', Derives "S" d' ts ∧ parse text = condense d' >>= fun t => .ok (some t) := by
  obtain ⟨u, hu⟩ := exists_derive hd
  obtain ⟨d', rfl, hd'⟩ := exists_derives hts hu
  refine ⟨d', hd', ?_⟩
  have hone : condense (Tree.word "γ" [d']) = condense d' := condense_one (by decide) d'
  rw [parse, hu, ← hone]
  rfl

/-- From tokens that can all be read, a derivation leads to a statement. -/
theorem Derives.exists_stmtText (hd : Derives "S" d ts) (hlegible : ∀ t ∈ ts, Legible t) :
    ∃ c, StmtText c ts ∧ condense d = .ok c.tree := by
  have hwords : ∀ w ∈ ts.map Token.word, ∃ t : Token, Legible t ∧ w = t.word := by
    rw [List.forall_mem_map]
    exact fun t ht => ⟨t, hlegible t ht, rfl⟩
  obtain ⟨⟨t, ht⟩, -⟩ := Yields.succeeds_condense hd hwords
  obtain ⟨c, rfl, hc⟩ := hd.stmt ht
  exact ⟨c, hc, ht⟩

theorem parse_of_legible (hts : language.tokens text = ts.map Token.word)
    (hd : Yields language.grammar.rules "S" d (language.tokens text))
    (hlegible : ∀ t ∈ ts, Legible t) : ∃ c, StmtText c ts ∧ parse text = .ok (some c.tree) := by
  obtain ⟨d', hd', hparse⟩ := exists_parse_eq hts hd
  obtain ⟨c, hc, ht⟩ := hd'.exists_stmtText hlegible
  refine ⟨c, hc, ?_⟩
  rw [hparse, ht]
  rfl

theorem parse_eq_none (hts : language.tokens text = ts.map Token.word)
    (hlegible : ∀ t ∈ ts, Legible t) (hnone : ∀ c, ¬ StmtText c ts) : parse text = .ok none := by
  cases hd : language.derive? text with
  | none =>
    rw [parse, hd]
    rfl
  | some d =>
    obtain ⟨d', -, hd'⟩ := exists_derives hts hd
    obtain ⟨c, hc, -⟩ := hd'.exists_stmtText hlegible
    exact absurd hc (hnone c)

/-- A variable that is called like a node of derivations below which something is looked up is
taken for such a node, and what is looked up is missing. -/
theorem parse_of_reserved (hts : language.tokens text = ts.map Token.word)
    (hd : Yields language.grammar.rules "S" d (language.tokens text)) (hreadable : NumeralsRead ts)
    {x : String} (hx : .name x ∈ ts) (hreserved : x ∈ reserved) :
    parse text = .error .noSuchItem := by
  obtain ⟨d', hd', hparse⟩ := exists_parse_eq hts hd
  have hfails : FailsOnly (Eq .noSuchItem) (condense d') := by
    refine Yields.failsOnly_condense hd' ?_
    rw [List.forall_mem_map]
    intro t ht htag
    cases t with
    | numeral s => exact ⟨_, hreadable s ht⟩
    | mark m => cases m <;> simp [Token.word, Token.tag, Mark.text] at htag
    | _ => simp [Token.word, Token.tag] at htag
  cases hcond : condense d' with
  | error f =>
    rw [hparse, hcond, ← hfails f hcond]
    rfl
  | ok u =>
    obtain ⟨c, -, hc⟩ := hd'.stmt hcond
    exact absurd hreserved (hc.legible (.name x) hx)

theorem Token.eq_name {t : Token} (h : t.word.tags = ["id"]) : t = .name t.word.text := by
  cases t with
  | name x => rfl
  | mark m => cases m <;> simp [Token.word, Token.tag, Mark.text] at h
  | _ => simp [Token.word, Token.tag] at h

end Derivations

/-- A text whose tokens come from the symbol of statements, with no numeral that is too long to be
read, is a program with the names, numbers and holes of the text, in their order. It is none if a
variable is called like a node of derivations below which something is looked up. -/
theorem parse_keeps_atoms {text : String} {d : Tree Label}
    (hd : Yields language.grammar.rules "S" d (language.tokens text))
    (hdigits : ∀ w ∈ language.tokens text, w.tags = ["num"] →
      w.text.toList.countP Text.isDigit ≤ 4300) :
    ((∀ w ∈ language.tokens text, w.tags = ["id"] → w.text ∉ ["S1", "num", "hole"]) →
      ∃ t, parse text = .ok (some t) ∧ atoms t = (language.tokens text).filterMap wordAtom?) ∧
    ((∃ w ∈ language.tokens text, w.tags = ["id"] ∧ w.text ∈ ["S1", "num", "hole"]) →
      parse text = .error .noSuchItem) := by
  obtain ⟨ts, hts⟩ := exists_lexes text.toList
  have htokens := hts.tokens_eq
  have hreadable : NumeralsRead ts := by
    rw [htokens, List.forall_mem_map] at hdigits
    exact fun s hs => readInt_of_isNumeral (hts.isNumeral_of_mem hs) (hdigits (.numeral s) hs rfl)
  constructor
  · intro hnames
    rw [htokens, List.forall_mem_map] at hnames
    have hlegible : ∀ t ∈ ts, Legible t := by
      intro t ht
      cases t with
      | name x => exact hnames (.name x) ht rfl
      | numeral s => exact ⟨_, hreadable s ht⟩
      | _ => trivial
    obtain ⟨c, hc, hparse⟩ := parse_of_legible htokens hd hlegible
    refine ⟨c.tree, hparse, ?_⟩
    rw [hc.atoms_eq hreadable, htokens, List.filterMap_map]
    rfl
  · rintro ⟨w, hw, htag, hname⟩
    rw [htokens] at hw
    obtain ⟨t, ht, rfl⟩ := List.mem_map.mp hw
    rw [Token.eq_name htag] at ht
    exact parse_of_reserved htokens hd hreadable ht hname

theorem parse_keeps_atoms_fresh :
    ∃ t, parse "E0 := (y + -12) ; op := ??" = .ok (some t) ∧
      atoms t = [("id", .word "E0"), ("id", .word "y"), ("num", .num (-12)), ("id", .word "op"),
        ("hole", .word "??")] := by
  obtain ⟨t, ht⟩ : ∃ t, parse "E0 := (y + -12) ; op := ??" = .ok (some t) :=
    exists_some_of_isSome (by decide +kernel)
  obtain ⟨c, ts, hts, hc, -⟩ := parse_sound ht
  obtain ⟨d, hd⟩ := hc.produces
  rw [← hts] at hd
  obtain ⟨u, hu, hatoms⟩ := (parse_keeps_atoms hd (by decide +kernel)).1 (by decide +kernel)
  refine ⟨u, hu, hatoms.trans ?_⟩
  decide +kernel

theorem parse_num_fails :
    ∃ d, Yields language.grammar.rules "S" d (language.tokens "num := 1") ∧
      parse "num := 1" = .error .noSuchItem := by
  have htokens : language.tokens "num := 1" =
      [Token.name "num", .mark .becomes, .numeral "1"].map Token.word :=
    Stmt.tokens_text (c := .assign "num" (.num 1)) (by decide)
  have hoperand : ⟨"E0", ["num"]⟩ ∈ language.grammar.rules := by decide
  have hexpr : ⟨"E", ["E0"]⟩ ∈ language.grammar.rules := by decide
  have hsimple : ⟨"S1", ["id", ":=", "E"]⟩ ∈ language.grammar.rules := by decide
  have hstmt : ⟨"S", ["S1"]⟩ ∈ language.grammar.rules := by decide
  have hone : Produces "E" [.numeral "1"] :=
    .rule hexpr (.one (.rule hoperand (.one (.token (.numeral "1")))))
  have hassign : Produces "S1" [.name "num", .mark .becomes, .numeral "1"] :=
    .rule hsimple (((ProducesAll.one hone).token (.mark .becomes)).token (.name "num"))
  obtain ⟨d, hd⟩ : Produces "S" [.name "num", .mark .becomes, .numeral "1"] :=
    .rule hstmt (.one hassign)
  rw [← htokens] at hd
  refine ⟨d, hd, parse_of_reserved htokens hd ?_ List.mem_cons_self (by decide)⟩
  intro s hs
  obtain rfl : s = "1" := by simpa using hs
  exact readInt_of_isNumeral (by decide) (by decide)

end WhileSketch.While
