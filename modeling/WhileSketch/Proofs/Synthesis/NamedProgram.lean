import Mathlib
import WhileSketch.Proofs.Synthesis.Naming
import WhileSketch.Proofs.Tree.Nodes
import WhileSketch.Proofs.While.Atoms

/-! What a program text denotes after its holes have got names: the program with names in place of its
holes, or nothing if a hole stands directly beside a word. -/

namespace WhileSketch

namespace Holes

mutual

/-- A program with names in place of the holes, counted from a number on and from left to right. -/
def nameTree (i : Nat) : Tree Label → Tree Label
  | .node r ts =>
    if r.isWord "hole" then Tree.word "id" [Tree.word (name i) []] else .node r (nameTrees i ts)

/-- Programs with names in place of the holes; each begins to count where the one before has ended. -/
def nameTrees (i : Nat) : List (Tree Label) → List (Tree Label)
  | [] => []
  | t :: ts => nameTree i t :: nameTrees (i + t.count "hole") ts

end

theorem nameTree_word {w : String} (hw : w ≠ "hole") (i : Nat) (ts : List (Tree Label)) :
    nameTree i (Tree.word w ts) = Tree.word w (nameTrees i ts) := by
  simp [Tree.word, nameTree, Label.isWord, Label.text?, hw]

end Holes

namespace While

open Holes

section Counting

theorem count_leaf {x : String} (hx : x ∉ reserved) : (Tree.word x []).count "hole" = 0 := by
  have hhole : x ≠ "hole" := by
    rintro rfl
    exact hx (by decide)
  rw [Tree.count_word_of_ne hhole]
  rfl

mutual

theorem OperandText.count_hole {e : Expr} {ts : List Token} :
    OperandText e ts → e.tree.count "hole" = ts.count .hole
  | .var hx => by simp [Expr.tree, Tree.count_word_of_ne, count_leaf hx]
  | .num _ => by
    simp [Expr.tree, Tree.leaf, Tree.count_word_of_ne, Tree.count_node, Label.isWord, Label.text?]
  | .hole => by
    simp [Expr.hole, Expr.tree, Tree.word, Tree.count_node, Label.isWord, Label.text?]
  | .brackets he => by
    have hinner := he.count_hole
    simpa using hinner

theorem ExprText.count_hole {e : Expr} {ts : List Token} :
    ExprText e ts → e.tree.count "hole" = ts.count .hole
  | .operand he => he.count_hole
  | .operate op ha hb => by
    have hleft := ha.count_hole
    have hright := hb.count_hole
    have hop : op.programSign ≠ "hole" := by cases op <;> decide
    simp [Expr.tree, Tree.count_word_of_ne hop, hleft, hright]

end

mutual

theorem SimpleText.count_hole {c : Stmt} {ts : List Token} :
    SimpleText c ts → c.tree.count "hole" = ts.count .hole
  | .skip => by simp [Stmt.tree, Tree.count_word_of_ne]
  | .assign hx he => by simp [Stmt.tree, Tree.count_word_of_ne, count_leaf hx, he.count_hole]
  | .ite hc ha hb | .step hc ha hb => by
    have hyes := ha.count_hole
    have hno := hb.count_hole
    simp [Stmt.tree, Tree.count_word_of_ne, hc.count_hole, hyes, hno]
  | .loop hc ha => by
    have hbody := ha.count_hole
    simp [Stmt.tree, Tree.count_word_of_ne, hc.count_hole, hbody]
  | .assert hc | .exit hc => by simp [Stmt.tree, Tree.count_word_of_ne, hc.count_hole]
  | .brackets ha => by
    have hinner := ha.count_hole
    simpa using hinner

theorem StmtText.count_hole {c : Stmt} {ts : List Token} :
    StmtText c ts → c.tree.count "hole" = ts.count .hole
  | .simple ha => ha.count_hole
  | .seq ha hb => by
    have hfirst := ha.count_hole
    have hsecond := hb.count_hole
    simp [Stmt.tree, Tree.count_word_of_ne, hfirst, hsecond]

end

end Counting

section Naming

variable {i : Nat}

theorem nameTokens_append (ts us : List Token) :
    nameTokens i (ts ++ us) = nameTokens i ts ++ nameTokens (i + ts.count .hole) us := by
  induction ts generalizing i with
  | nil => rfl
  | cons t ts ih =>
    by_cases ht : t = .hole
    · subst ht
      rw [List.cons_append, nameTokens, ih, nameTokens, List.count_cons_self, List.cons_append,
        Nat.add_right_comm, Nat.add_assoc]
    · rw [List.cons_append, nameTokens_cons ht, ih, nameTokens_cons ht, List.count_cons_of_ne ht,
        List.cons_append]

@[simp] theorem nameTokens_mark (m : Mark) (ts : List Token) :
    nameTokens i (.mark m :: ts) = .mark m :: nameTokens i ts :=
  nameTokens_cons (by simp)

@[simp] theorem nameTokens_sign (op : Operator) (ts : List Token) :
    nameTokens i (.sign op :: ts) = .sign op :: nameTokens i ts :=
  nameTokens_cons (by simp)

theorem not_reserved_of_stem {x : String} (hx : stem <:+: x.toList) : x ∉ reserved := by
  have hreserved : ∀ y ∈ reserved, ¬ stem <:+: y.toList := by decide
  exact fun hmem => hreserved x hmem hx

theorem nameTree_var {x : String} (hx : x ∉ reserved) :
    nameTree i (Tree.word "id" [Tree.word x []]) = Tree.word "id" [Tree.word x []] := by
  have hhole : x ≠ "hole" := by
    rintro rfl
    exact hx (by decide)
  rw [nameTree_word (by decide), nameTrees, nameTree_word hhole, nameTrees, nameTrees]

mutual

theorem OperandText.named {e : Expr} {ts : List Token} : OperandText e ts →
    ∀ i, ∃ e', OperandText e' (nameTokens i ts) ∧ e'.tree = nameTree i e.tree
  | @OperandText.var x hx, i => ⟨.var x, .var hx, (nameTree_var hx).symm⟩
  | .num hs, i => ⟨_, .num hs, rfl⟩
  | .hole, i =>
    ⟨.var (name i), .var (not_reserved_of_stem (HoleWord.name (.inl rfl) i).stem), rfl⟩
  | .brackets he, i => by
    obtain ⟨e', he', htree⟩ := he.named i
    refine ⟨e', ?_, htree⟩
    rw [nameTokens_mark, nameTokens_append, nameTokens_mark]
    exact .brackets he'

theorem ExprText.named {e : Expr} {ts : List Token} : ExprText e ts →
    ∀ i, ∃ e', ExprText e' (nameTokens i ts) ∧ e'.tree = nameTree i e.tree
  | .operand he, i => by
    obtain ⟨e', he', htree⟩ := he.named i
    exact ⟨e', .operand he', htree⟩
  | @ExprText.operate a b ts us op ha hb, i => by
    obtain ⟨a', ha', hleft⟩ := ha.named i
    obtain ⟨b', hb', hright⟩ := hb.named (i + ts.count .hole)
    have hop : op.programSign ≠ "hole" := by cases op <;> decide
    refine ⟨.operate op a' b', ?_, ?_⟩
    · rw [nameTokens_append, nameTokens_sign]
      exact .operate op ha' hb'
    · rw [Expr.tree, Expr.tree, nameTree_word hop, nameTrees, nameTrees, nameTrees, ha.count_hole,
        hleft, hright]

end

mutual

theorem SimpleText.named {c : Stmt} {ts : List Token} : SimpleText c ts →
    ∀ i, ∃ c', SimpleText c' (nameTokens i ts) ∧ c'.tree = nameTree i c.tree
  | .skip, i => ⟨.skip, .skip, rfl⟩
  | @SimpleText.assign x e ts hx he, i => by
    obtain ⟨e', he', hvalue⟩ := he.named i
    refine ⟨.assign x e', ?_, ?_⟩
    · rw [nameTokens_cons (by simp), nameTokens_mark]
      exact .assign hx he'
    · have hnone : (Tree.word "id" [Tree.word x []]).count "hole" = 0 := by
        simp [Tree.count_word_of_ne, count_leaf hx]
      rw [Stmt.tree, Stmt.tree, nameTree_word (by decide), nameTrees, nameTrees, nameTrees, hnone,
        nameTree_var hx, Nat.add_zero, hvalue]
  | @SimpleText.ite c a b ts us vs hc ha hb, i => by
    obtain ⟨c', hc', htest⟩ := hc.named i
    obtain ⟨a', ha', hyes⟩ := ha.named (i + ts.count .hole)
    obtain ⟨b', hb', hno⟩ := hb.named (i + ts.count .hole + us.count .hole)
    refine ⟨.ite c' a' b', ?_, ?_⟩
    · simp only [nameTokens_mark, nameTokens_append]
      exact .ite hc' ha' hb'
    · rw [Stmt.tree, Stmt.tree, nameTree_word (by decide), nameTrees, nameTrees, nameTrees, nameTrees,
        hc.count_hole, ha.count_hole, htest, hyes, hno]
  | @SimpleText.step c a b ts us vs hc ha hb, i => by
    obtain ⟨c', hc', htest⟩ := hc.named i
    obtain ⟨a', ha', hyes⟩ := ha.named (i + ts.count .hole)
    obtain ⟨b', hb', hno⟩ := hb.named (i + ts.count .hole + us.count .hole)
    refine ⟨.step c' a' b', ?_, ?_⟩
    · simp only [nameTokens_mark, nameTokens_append]
      exact .step hc' ha' hb'
    · rw [Stmt.tree, Stmt.tree, nameTree_word (by decide), nameTrees, nameTrees, nameTrees, nameTrees,
        hc.count_hole, ha.count_hole, htest, hyes, hno]
  | @SimpleText.loop c a ts us hc ha, i => by
    obtain ⟨c', hc', htest⟩ := hc.named i
    obtain ⟨a', ha', hbody⟩ := ha.named (i + ts.count .hole)
    refine ⟨.loop c' a', ?_, ?_⟩
    · simp only [nameTokens_mark, nameTokens_append]
      exact .loop hc' ha'
    · rw [Stmt.tree, Stmt.tree, nameTree_word (by decide), nameTrees, nameTrees, nameTrees,
        hc.count_hole, htest, hbody]
  | .assert hc, i => by
    obtain ⟨c', hc', htest⟩ := hc.named i
    refine ⟨.assert c', ?_, ?_⟩
    · rw [nameTokens_mark]
      exact .assert hc'
    · rw [Stmt.tree, Stmt.tree, nameTree_word (by decide), nameTrees, nameTrees, htest]
  | .exit hc, i => by
    obtain ⟨c', hc', htest⟩ := hc.named i
    refine ⟨.exit c', ?_, ?_⟩
    · rw [nameTokens_mark]
      exact .exit hc'
    · rw [Stmt.tree, Stmt.tree, nameTree_word (by decide), nameTrees, nameTrees, htest]
  | .brackets ha, i => by
    obtain ⟨a', ha', htree⟩ := ha.named i
    refine ⟨a', ?_, htree⟩
    rw [nameTokens_mark, nameTokens_append, nameTokens_mark]
    exact .brackets ha'

/-- Tokens with names in place of the holes are those of the program with names in place of the
holes. -/
theorem StmtText.named {c : Stmt} {ts : List Token} : StmtText c ts →
    ∀ i, ∃ c', StmtText c' (nameTokens i ts) ∧ c'.tree = nameTree i c.tree
  | .simple ha, i => by
    obtain ⟨a', ha', htree⟩ := ha.named i
    exact ⟨a', .simple ha', htree⟩
  | @StmtText.seq a b ts us ha hb, i => by
    obtain ⟨a', ha', hfirst⟩ := ha.named i
    obtain ⟨b', hb', hsecond⟩ := hb.named (i + ts.count .hole)
    refine ⟨.seq a' b', ?_, ?_⟩
    · rw [nameTokens_append, nameTokens_mark]
      exact .seq ha' hb'
    · rw [Stmt.tree, Stmt.tree, nameTree_word (by decide), nameTrees, nameTrees, nameTrees,
        ha.count_hole, hfirst, hsecond]

end

end Naming

/-- A program has a name for each of its holes, and its text with the names denotes the program with
the names in place of the holes, from left to right. If a hole stands directly beside a word, the
text with the names denotes no program. -/
theorem parse_nameAll {program : String} {t : Tree Label} (h : parse program = .ok (some t)) :
    (nameAll program).2 = (List.range (t.count "hole")).map name ∧
      parse (nameAll program).1 =
        .ok (if touches program.toList then none else some (nameTree 0 t)) := by
  obtain ⟨ts, hts⟩ := exists_lexes program.toList
  obtain ⟨us, hus⟩ := exists_lexes (nameAll program).1.toList
  obtain ⟨a, ha, rfl⟩ := (parse_eq_some_iff hts.tokens_eq).mp h
  have hname : (nameAll program).1.toList = named 0 program.toList := String.toList_ofList
  have hkept := ha.kept hts (hname ▸ hus)
  constructor
  · rw [hts.snd_nameAll, ha.count_hole]
  · cases htouch : touches program.toList with
    | false =>
      obtain ⟨b, hb, htree⟩ := ha.named 0
      rw [if_neg (by decide), ← htree, parse_eq_some_iff hus.tokens_eq, hkept.same htouch]
      exact ⟨b, hb, rfl⟩
    | true =>
      rw [if_pos rfl]
      refine parse_eq_none hus.tokens_eq (fun u hu => ?_) fun b hb => ?_
      · obtain hu | ⟨x, rfl, hx⟩ := hkept.traced u hu
        · exact ha.legible u hu
        · exact not_reserved_of_stem hx
      · rw [ha.not_touches hts hb (hname ▸ hus)] at htouch
        cases htouch

theorem parse_nameAll_beside : ∃ t,
    parse "x:=(??-???)" = .ok (some t) ∧
      (nameAll "x:=(??-???)").2 = ["hole_0", "hole_1"] ∧
      parse "x:=(hole_0-hole_1?)" = .ok (some (nameTree 0 t)) := by
  obtain ⟨t, ht⟩ : ∃ t, parse "x:=(??-???)" = .ok (some t) :=
    exists_some_of_isSome (by decide +kernel)
  have hnamed : nameAll "x:=(??-???)" = ("x:=(hole_0-hole_1?)", ["hole_0", "hole_1"]) := by
    decide +kernel
  have htouch : touches "x:=(??-???)".toList = false := by decide +kernel
  obtain ⟨-, hparse⟩ := parse_nameAll ht
  rw [hnamed, htouch] at hparse
  rw [hnamed]
  exact ⟨t, ht, rfl, hparse⟩

/-- The name of a hole goes together with the word behind it, and the text denotes no program. -/
theorem parse_nameAll_glued :
    (∃ t, parse "while x <??do x := (x + 1)" = .ok (some t) ∧ variableNames t = .ok ["x"]) ∧
      find? ["x"] = none ∧
      nameAll "while x <??do x := (x + 1)" = ("while x <hole_0do x := (x + 1)", ["hole_0"]) ∧
      parse "while x <hole_0do x := (x + 1)" = .ok none := by
  have hnames : ((parse "while x <??do x := (x + 1)").toOption.join.bind fun t =>
      (variableNames t).toOption) = some ["x"] := by
    decide +kernel
  obtain ⟨t, ht, hvars⟩ := Option.bind_eq_some_iff.mp hnames
  have hglued : (parse "while x <hole_0do x := (x + 1)").toOption.map Option.isNone =
      some true := by
    decide +kernel
  obtain ⟨t?, ht?, hnone⟩ := Option.map_eq_some_iff.mp hglued
  refine ⟨⟨t, join_toOption_eq_some.mp ht, toOption_eq_some.mp hvars⟩, by decide +kernel,
    by decide +kernel, ?_⟩
  rw [toOption_eq_some.mp ht?, Option.isNone_iff_eq_none.mp hnone]

end While

end WhileSketch
