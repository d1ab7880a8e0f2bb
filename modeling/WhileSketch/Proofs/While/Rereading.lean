import Mathlib
import WhileSketch.Proofs.While.Legibility

/-! What comes back when a program is printed and read again: its tree, with sequences that hang to
the right and with what does nothing written out. It has the same weakest preconditions. -/

namespace WhileSketch.While

def chain : List (Tree Label) → Tree Label
  | [] => Tree.word ";" []
  | [t] => t
  | t :: u :: us => Tree.word ";" [t, chain (u :: us)]

mutual

/-- The members of a sequence, or a tree of another kind by itself. The sequences inside them hang
to the right. -/
def members : Tree Label → List (Tree Label)
  | .node r ts =>
    if r.isWord ";" then (membersEach ts).flatten else [.node r ((membersEach ts).map chain)]

def membersEach : List (Tree Label) → List (List (Tree Label))
  | [] => []
  | t :: ts => members t :: membersEach ts

end

/-- A tree all of whose sequences hang to the right. -/
def rightHung (t : Tree Label) : Tree Label :=
  chain (members t)

mutual

def skipsWritten : Tree Label → Tree Label
  | .node r ts =>
    if r.isWord "skip" then Tree.word "skip" [Tree.word "skip" []] else .node r (skipsWrittenEach ts)

def skipsWrittenEach : List (Tree Label) → List (Tree Label)
  | [] => []
  | t :: ts => skipsWritten t :: skipsWrittenEach ts

end

section Hanging

theorem chain_cons (t : Tree Label) {ts : List (Tree Label)} (h : ts ≠ []) :
    chain (t :: ts) = Tree.word ";" [t, chain ts] := by
  cases ts with
  | nil => exact absurd rfl h
  | cons u us => rfl

theorem membersEach_eq (ts : List (Tree Label)) : membersEach ts = ts.map members := by
  induction ts with
  | nil => rfl
  | cons t ts ih => rw [membersEach, ih, List.map_cons]

theorem members_word {w : String} (hw : w ≠ ";") (ts : List (Tree Label)) :
    members (Tree.word w ts) = [Tree.word w (ts.map rightHung)] := by
  have hword : Label.isWord (.word w) ";" = false := by simpa [Label.isWord, Label.text?] using hw
  rw [Tree.word, members, hword, membersEach_eq, List.map_map]
  rfl

theorem members_seq (t u : Tree Label) :
    members (Tree.word ";" [t, u]) = members t ++ members u := by
  simp [Tree.word, members, membersEach, Label.isWord, Label.text?]

theorem rightHung_word {w : String} (hw : w ≠ ";") (ts : List (Tree Label)) :
    rightHung (Tree.word w ts) = Tree.word w (ts.map rightHung) := by
  rw [rightHung, members_word hw, chain]

theorem rightHung_leaf (x : String) : rightHung (Tree.word x []) = Tree.word x [] := by
  by_cases hx : x = ";"
  · rw [hx]
    rfl
  · exact rightHung_word hx []

theorem ExprTree.rightHung_eq {e : Expr} {t : Tree Label} (h : ExprTree e t) : rightHung t = t := by
  induction h with
  | var x => rw [rightHung_word (by decide), List.map_singleton, rightHung_leaf]
  | num n => rfl
  | hole => rfl
  | operate op _ _ iha ihb =>
    have hsign := programSign_not_word op ";" (by simp)
    rw [rightHung_word hsign, List.map_cons, List.map_singleton, iha, ihb]

theorem ExprTree.rightHung_tree {e : Expr} {t : Tree Label} (h : ExprTree e t) :
    rightHung e.tree = e.tree := by
  rw [← h.eq_tree]
  exact h.rightHung_eq

/-- Trees are the members of a statement that hangs to the right, whatever follows it. -/
structure Hangs (ts : List (Tree Label)) (c : Stmt) : Prop where
  ne_nil : ts ≠ []
  chain_eq : chain ts = c.tree
  chain_append : ∀ us b, us ≠ [] → chain us = Stmt.tree b →
    chain (ts ++ us) = (c.followedBy b).tree

theorem Hangs.rightHung_eq {t : Tree Label} {c : Stmt} (h : Hangs (members t) c) :
    rightHung t = c.tree :=
  h.chain_eq

theorem Hangs.word {w : String} {ts : List (Tree Label)} {c : Stmt} (hw : w ≠ ";")
    (htree : c.tree = Tree.word w (ts.map rightHung)) (hseq : ∀ b, c.followedBy b = .seq c b) :
    Hangs (members (Tree.word w ts)) c := by
  rw [members_word hw, ← htree]
  refine ⟨List.cons_ne_nil _ _, rfl, fun us b hus hb => ?_⟩
  rw [List.singleton_append, chain_cons _ hus, hb, hseq, Stmt.tree]

theorem Hangs.followedBy {ts us : List (Tree Label)} {a b : Stmt} (ha : Hangs ts a)
    (hb : Hangs us b) : Hangs (ts ++ us) (a.followedBy b) where
  ne_nil := List.append_ne_nil_of_left_ne_nil ha.ne_nil us
  chain_eq := ha.chain_append us b hb.ne_nil hb.chain_eq
  chain_append vs c hvs hc := by
    have hrest : us ++ vs ≠ [] := List.append_ne_nil_of_left_ne_nil hb.ne_nil vs
    rw [List.append_assoc, Stmt.followedBy_assoc]
    exact ha.chain_append (us ++ vs) _ hrest (hb.chain_append vs c hvs hc)

theorem StmtTree.hangs {c : Stmt} {t : Tree Label} (h : StmtTree c t) :
    Hangs (members c.tree) c.chained := by
  induction h with
  | skip | skipWritten => exact .word (by decide) rfl fun _ => rfl
  | assign x he =>
    refine .word (by decide) ?_ fun _ => rfl
    simp [Stmt.chained, Stmt.tree, (ExprTree.var x).rightHung_eq, he.rightHung_tree]
  | seq _ _ iha ihb =>
    rw [Stmt.tree, members_seq]
    exact iha.followedBy ihb
  | ite hc _ _ iha ihb =>
    refine .word (by decide) ?_ fun _ => rfl
    simp [Stmt.chained, Stmt.tree, hc.rightHung_tree, iha.rightHung_eq, ihb.rightHung_eq]
  | step hc _ _ iha ihb =>
    refine .word (by decide) ?_ fun _ => rfl
    simp [Stmt.chained, Stmt.tree, hc.rightHung_tree, iha.rightHung_eq, ihb.rightHung_eq]
  | loop hc _ ih =>
    refine .word (by decide) ?_ fun _ => rfl
    simp [Stmt.chained, Stmt.tree, hc.rightHung_tree, ih.rightHung_eq]
  | assert hc | exit hc =>
    refine .word (by decide) ?_ fun _ => rfl
    simp [Stmt.chained, Stmt.tree, hc.rightHung_tree]

end Hanging

section Writing

theorem skipsWritten_word {w : String} (hw : w ≠ "skip") (ts : List (Tree Label)) :
    skipsWritten (Tree.word w ts) = Tree.word w (ts.map skipsWritten) := by
  have hword : Label.isWord (.word w) "skip" = false := by simpa [Label.isWord, Label.text?] using hw
  have heach : skipsWrittenEach ts = ts.map skipsWritten := by
    induction ts with
    | nil => rfl
    | cons t ts ih => rw [skipsWrittenEach, ih, List.map_cons]
  rw [Tree.word, skipsWritten, hword, heach]
  rfl

theorem skipsWritten_var {x : String} (hx : isName x = true) :
    skipsWritten (Tree.word "id" [Tree.word x []]) = Tree.word "id" [Tree.word x []] := by
  have hskip : x ≠ "skip" := by
    rintro rfl
    exact absurd hx (by decide)
  rw [skipsWritten_word (by decide), List.map_singleton, skipsWritten_word hskip, List.map_nil]

theorem ExprTree.skipsWritten_eq {e : Expr} {t : Tree Label} (h : ExprTree e t)
    (hvars : ∀ x ∈ e.vars, isName x = true) : skipsWritten t = e.tree := by
  induction h with
  | var x => exact skipsWritten_var (hvars x (by simp [Expr.vars]))
  | num n => rfl
  | hole => rfl
  | operate op _ _ iha ihb =>
    have hsign := programSign_not_word op "skip" (by simp)
    simp only [Expr.vars, List.mem_append, or_imp, forall_and] at hvars
    rw [skipsWritten_word hsign, List.map_cons, List.map_singleton, iha hvars.1, ihb hvars.2,
      Expr.tree]

theorem StmtTree.skipsWritten_eq {c : Stmt} {t : Tree Label} (h : StmtTree c t)
    (hvars : ∀ x ∈ c.vars, isName x = true) : skipsWritten t = c.tree := by
  induction h with
  | skip => rfl
  | skipWritten => rfl
  | assign x he =>
    obtain ⟨hx, he'⟩ := List.forall_mem_cons.mp hvars
    rw [skipsWritten_word (by decide), List.map_cons, List.map_singleton, skipsWritten_var hx,
      he.skipsWritten_eq he', Stmt.tree]
  | seq _ _ iha ihb =>
    obtain ⟨ha, hb⟩ := List.forall_mem_append.mp hvars
    rw [skipsWritten_word (by decide), List.map_cons, List.map_singleton, iha ha, ihb hb, Stmt.tree]
  | ite hc _ _ iha ihb | step hc _ _ iha ihb =>
    obtain ⟨hc', hab⟩ := List.forall_mem_append.mp hvars
    obtain ⟨ha, hb⟩ := List.forall_mem_append.mp hab
    rw [skipsWritten_word (by decide), List.map_cons, List.map_cons, List.map_singleton,
      hc.skipsWritten_eq hc', iha ha, ihb hb, Stmt.tree]
  | loop hc _ ih =>
    obtain ⟨hc', hbody⟩ := List.forall_mem_append.mp hvars
    rw [skipsWritten_word (by decide), List.map_cons, List.map_singleton, hc.skipsWritten_eq hc',
      ih hbody, Stmt.tree]
  | assert hc | exit hc =>
    rw [skipsWritten_word (by decide), List.map_singleton, hc.skipsWritten_eq hvars, Stmt.tree]

end Writing

/-- How sequences hang makes no difference to the weakest precondition that is computed, nor to the
way in which the computation fails. -/
theorem wp_chained (names : List String) (invariant : Assertion) (c : Stmt) :
    wp names invariant c.chained = wp names invariant c := by
  have hfollowed : ∀ a b : Stmt, wp names invariant (a.followedBy b) =
      fun post => wp names invariant b post >>= wp names invariant a :=
    Stmt.followedBy_eq (g := fun x y post => y post >>= x) (fun a b => by funext post; rw [wp])
      fun x y z => by funext post; rw [bind_assoc]
  induction c with
  | seq a b iha ihb =>
    funext post
    rw [Stmt.chained, hfollowed, iha, ihb, wp]
  | ite c a b iha ihb =>
    funext post
    rw [Stmt.chained, wp, iha, ihb, wp]
  | step c a b iha ihb =>
    funext post
    rw [Stmt.chained, wp, iha, ihb, wp]
  | loop c body ih =>
    funext post
    rw [Stmt.chained, wp, ih, wp]
  | _ => rfl

/-- A tree is printed, and what is printed is read as another tree with the same weakest
preconditions. -/
structure Rereads (t u : Tree Label) : Prop where
  parse_print : ∃ text, print t = .ok (.word text) ∧ parse text = .ok (some u)
  weakest_eq : ∀ pre post invariant,
    Task.weakest ⟨u, pre, post, invariant⟩ = Task.weakest ⟨t, pre, post, invariant⟩

theorem StmtTree.rereads {c : Stmt} {t : Tree Label} (ht : StmtTree c t)
    (hvars : ∀ x ∈ c.vars, isName x = true) (hlegible : c.Legible) :
    Rereads t c.chained.tree where
  parse_print := ⟨c.text, ht.print_eq, ht.parse_text hvars hlegible⟩
  weakest_eq pre post invariant := by
    have hu : StmtTree c.chained c.chained.tree := (ht.stmtText hlegible).1.stmtTree
    have hnames : variableNames c.chained.tree = variableNames t := by
      rw [hu.variableNames_eq, ht.variableNames_eq, Stmt.names, Stmt.vars_chained, ← Stmt.names]
    simp only [Task.weakest, hnames, hu.ofTree_eq, ht.ofTree_eq, wp_chained]

/-- A program that has been read comes back from its own text with its sequences hanging to the
right, and so does the program with its loops unrolled, but that what the steps of a loop leave
undone is written out. -/
theorem parse_print_of_parse {text : String} {t : Tree Label} (h : parse text = .ok (some t)) :
    Rereads t (rightHung t) ∧ ∀ limit, ∃ u, unroll limit t = .ok u ∧
      Rereads u (rightHung (skipsWritten u)) := by
  obtain ⟨ts, hts⟩ := exists_lexes text.toList
  obtain ⟨c, hc, rfl⟩ := (parse_eq_some_iff hts.tokens_eq).mp h
  have htree := hc.stmtTree
  have hvars : ∀ x ∈ c.vars, isName x = true := fun x hx =>
    hts.isName_of_mem ((hc.name_mem_iff x).mpr hx)
  refine ⟨?_, fun limit => ?_⟩
  · rw [htree.hangs.rightHung_eq]
    exact htree.rereads hvars hc.legible_stmt
  · have hwhile : ∀ x ∈ c.vars, x ≠ "while" := by
      rintro x hx rfl
      exact absurd (hvars _ hx) (by decide)
    obtain ⟨u, hu, hunrolled⟩ : ∃ u, unroll limit c.tree = .ok u ∧ StmtTree (c.unrolled limit) u :=
      htree.unroll hwhile
    have hvars' : ∀ x ∈ (c.unrolled limit).vars, isName x = true := fun x hx =>
      hvars x (Stmt.mem_vars_unrolled.mp hx)
    refine ⟨u, hu, ?_⟩
    rw [hunrolled.skipsWritten_eq hvars', hunrolled.hangs.rightHung_eq]
    exact hunrolled.rereads hvars' (hc.legible_stmt.unrolled limit)

theorem parse_print_of_parse_nested : ∃ t,
    parse "(x := -1 ; skip) ; while x < y do skip" = .ok (some t) ∧
      Rereads t (rightHung t) ∧
      ∃ u, unroll 3 t = .ok u ∧ Rereads u (rightHung (skipsWritten u)) := by
  obtain ⟨t, ht⟩ : ∃ t, parse "(x := -1 ; skip) ; while x < y do skip" =
      .ok (some t) := exists_some_of_isSome (by decide +kernel)
  obtain ⟨hreads, hunrolled⟩ := parse_print_of_parse ht
  exact ⟨t, ht, hreads, hunrolled 3⟩

def countdownStep : Tree Label :=
  Tree.word ";" [
    Tree.word "if_unrolled" [
      Tree.word ">" [Tree.word "id" [Tree.word "x" []], Tree.word "num" [Tree.leaf (.num 0)]],
      Tree.word ":=" [Tree.word "id" [Tree.word "x" []],
        Tree.word "-" [Tree.word "id" [Tree.word "x" []], Tree.word "num" [Tree.leaf (.num 1)]]],
      Tree.word "skip" []],
    Tree.word "assert_unrolled" [
      Tree.word ">" [Tree.word "id" [Tree.word "x" []], Tree.word "num" [Tree.leaf (.num 0)]]]]

theorem stmtTree_countdownStep : StmtTree (countdown.unrolled 1) countdownStep :=
  .seq (.step (.operate .gt (.var "x") (.num 0))
    (.assign "x" (.operate .sub (.var "x") (.num 1))) .skip) (.exit (.operate .gt (.var "x") (.num 0)))

/-- A step of a loop that is not taken has nothing below its node, and comes back with its word
there. -/
theorem parse_print_countdownStep :
    parse "while (x > 0) do (x := (x - 1))" = .ok (some countdownTree) ∧
      unroll 1 countdownTree = .ok countdownStep ∧
      ∃ text, print countdownStep = .ok (.word text) ∧
        text = "if_unrolled (x > 0) then (x := (x - 1)) else (skip) ; assert_unrolled (x > 0)" ∧
        parse text ≠ .ok (some (rightHung countdownStep)) := by
  have hvars : ∀ x ∈ countdown.vars, isName x = true := by decide
  have hlegible : countdown.Legible := Stmt.legible_loop.mpr
    ⟨Expr.legible_operate.mpr ⟨Expr.legible_var.mpr (by decide), Expr.legible_num.mpr (by decide)⟩,
      Stmt.legible_assign.mpr ⟨by decide, Expr.legible_operate.mpr
        ⟨Expr.legible_var.mpr (by decide), Expr.legible_num.mpr (by decide)⟩⟩⟩
  refine ⟨stmtTree_countdown.parse_text hvars hlegible, rfl, _, stmtTree_countdownStep.print_eq,
    by decide, ?_⟩
  rw [stmtTree_countdownStep.parse_text (fun x hx => hvars x (Stmt.mem_vars_unrolled.mp hx))
    (hlegible.unrolled 1)]
  intro h
  have hsize := congrArg Tree.size (Option.some.inj (Except.ok.inj h))
  exact absurd hsize (by decide)

end WhileSketch.While
