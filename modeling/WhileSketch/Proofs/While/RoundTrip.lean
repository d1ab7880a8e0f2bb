import Mathlib
import WhileSketch.Proofs.While.Derivations
import WhileSketch.Proofs.While.Layout

/-! A program that has been printed is read back, with its sequences hanging to the right. -/

namespace WhileSketch.While

namespace Stmt

/-- A statement behind which another one follows; the sequence hangs to the right. -/
def followedBy : Stmt → Stmt → Stmt
  | seq a b, c => seq a (b.followedBy c)
  | a, c => seq a c

/-- A statement all of whose sequences hang to the right. -/
@[simp] def chained : Stmt → Stmt
  | seq a b => a.chained.followedBy b.chained
  | ite c a b => ite c a.chained b.chained
  | step c a b => step c a.chained b.chained
  | loop c body => loop c body.chained
  | a => a

theorem followedBy_assoc (a b c : Stmt) :
    (a.followedBy b).followedBy c = a.followedBy (b.followedBy c) := by
  induction a with
  | seq x y _ ih => simp only [followedBy, ih]
  | _ => rfl

/-- A property that does not depend on how sequences hang is one of the right-hanging form. -/
theorem followedBy_eq {α : Type} {f : Stmt → α} {g : α → α → α}
    (hseq : ∀ a b, f (seq a b) = g (f a) (f b)) (hassoc : ∀ x y z, g (g x y) z = g x (g y z))
    (a b : Stmt) : f (a.followedBy b) = g (f a) (f b) := by
  induction a with
  | seq x y _ ih => rw [followedBy, hseq, ih, hseq, hassoc]
  | _ => rw [followedBy, hseq]; nofun

theorem vars_chained (c : Stmt) : c.chained.vars = c.vars := by
  have hfollowed : ∀ a b : Stmt, (a.followedBy b).vars = a.vars ++ b.vars :=
    followedBy_eq (fun _ _ => rfl) List.append_assoc
  induction c with
  | seq a b iha ihb => rw [chained, hfollowed, iha, ihb, vars]
  | ite c a b iha ihb => rw [chained, vars, iha, ihb, vars]
  | step c a b iha ihb => rw [chained, vars, iha, ihb, vars]
  | loop c body ih => rw [chained, vars, ih, vars]
  | _ => rfl

theorem isSorted_chained (c : Stmt) : c.chained.isSorted = c.isSorted := by
  have hfollowed : ∀ a b : Stmt, (a.followedBy b).isSorted = (a.isSorted && b.isSorted) :=
    followedBy_eq (fun _ _ => rfl) Bool.and_assoc
  induction c with
  | seq a b iha ihb => rw [chained, hfollowed, iha, ihb, isSorted]
  | ite c a b iha ihb => rw [chained, isSorted, iha, ihb, isSorted]
  | step c a b iha ihb => rw [chained, isSorted, iha, ihb, isSorted]
  | loop c body ih => rw [chained, isSorted, ih, isSorted]
  | _ => rfl

theorem isLoopFree_chained (c : Stmt) : c.chained.isLoopFree = c.isLoopFree := by
  have hfollowed : ∀ a b : Stmt, (a.followedBy b).isLoopFree = (a.isLoopFree && b.isLoopFree) :=
    followedBy_eq (fun _ _ => rfl) Bool.and_assoc
  induction c with
  | seq a b iha ihb => rw [chained, hfollowed, iha, ihb, isLoopFree]
  | ite c a b iha ihb => rw [chained, isLoopFree, iha, ihb, isLoopFree]
  | step c a b iha ihb => rw [chained, isLoopFree, iha, ihb, isLoopFree]
  | _ => rfl

/-- How sequences hang makes no difference to the weakest precondition. -/
theorem weakest_chained (names : List String) (inv : State → Prop) (c : Stmt) :
    c.chained.Weakest names inv = c.Weakest names inv := by
  have hfollowed : ∀ a b : Stmt, (a.followedBy b).Weakest names inv =
      a.Weakest names inv ∘ b.Weakest names inv :=
    followedBy_eq (fun _ _ => rfl) fun _ _ _ => rfl
  induction c with
  | seq a b iha ihb =>
    rw [chained, hfollowed, iha, ihb]
    rfl
  | ite c a b iha ihb =>
    funext post s
    rw [chained, Weakest, iha, ihb, Weakest]
  | step c a b iha ihb =>
    funext post s
    rw [chained, Weakest, iha, ihb, Weakest]
  | loop c body ih =>
    funext post s
    rw [chained, Weakest, ih, Weakest]
  | _ => rfl

end Stmt

section Reading

open Layout

def Expr.tokens (e : Expr) : List Token :=
  e.layout.reduceOption

def Stmt.tokens (c : Stmt) : List Token :=
  c.layout.reduceOption

theorem Expr.tokens_operate (op : Operator) (a b : Expr) :
    (operate op a b).tokens =
      .mark .opening :: ((a.tokens ++ .sign op :: b.tokens) ++ [.mark .closing]) := by
  simp [tokens, layout, bracket, List.reduceOption_append]

namespace Stmt

open Token (mark)

theorem tokens_assign (x : String) (e : Expr) :
    (assign x e).tokens = .name x :: mark .becomes :: e.tokens := by
  simp [tokens, layout, Expr.tokens]

theorem tokens_seq (a b : Stmt) : (seq a b).tokens = a.tokens ++ mark .next :: b.tokens := by
  simp [tokens, layout, List.reduceOption_append]

theorem tokens_ite (c : Expr) (a b : Stmt) :
    (ite c a b).tokens =
      mark .cond :: (c.tokens ++ mark .yes :: (mark .opening :: (a.tokens ++ [mark .closing]) ++
        mark .no :: mark .opening :: (b.tokens ++ [mark .closing]))) := by
  simp [tokens, layout, conditionalLayout, bracket, Expr.tokens, List.reduceOption_append]

theorem tokens_step (c : Expr) (a b : Stmt) :
    (step c a b).tokens =
      mark .condStep :: (c.tokens ++ mark .yes :: (mark .opening :: (a.tokens ++
        [mark .closing]) ++ mark .no :: mark .opening :: (b.tokens ++ [mark .closing]))) := by
  simp [tokens, layout, conditionalLayout, bracket, Expr.tokens, List.reduceOption_append]

theorem tokens_loop (c : Expr) (a : Stmt) :
    (loop c a).tokens = mark .loop :: (c.tokens ++ mark .body :: mark .opening ::
      (a.tokens ++ [mark .closing])) := by
  simp [tokens, layout, bracket, Expr.tokens, List.reduceOption_append]

theorem tokens_assert (c : Expr) : (assert c).tokens = mark .assert :: c.tokens := by
  simp [tokens, layout, Expr.tokens]

theorem tokens_exit (c : Expr) : (exit c).tokens = mark .exit :: c.tokens := by
  simp [tokens, layout, Expr.tokens]

end Stmt

theorem readInt_of_legible {n : Int} (h : Legible (.numeral (toString n))) :
    Text.readInt (toString n) = .ok n := by
  obtain ⟨m, hm⟩ := h
  rw [Text.readInt_toString] at hm ⊢
  split_ifs at hm ⊢
  rfl

theorem ExprTree.operandText {e : Expr} {t : Tree Label} (h : ExprTree e t)
    (hlegible : ∀ u ∈ e.tokens, Legible u) : OperandText e e.tokens := by
  induction h with
  | var x => exact .var (hlegible (.name x) (by simp [Expr.tokens, Expr.layout]))
  | num n => exact .num (readInt_of_legible (hlegible _ (by simp [Expr.tokens, Expr.layout])))
  | hole => exact .hole
  | operate op _ _ iha ihb =>
    rw [Expr.tokens_operate] at hlegible ⊢
    have ha := iha fun u hu => hlegible u (by simp [hu])
    have hb := ihb fun u hu => hlegible u (by simp [hu])
    exact .brackets (.operate op ha hb)

/-- A printed statement is read with its sequences hanging to the right, also if another statement
follows it. -/
theorem StmtTree.stmtText {c : Stmt} {t : Tree Label} (h : StmtTree c t)
    (hlegible : ∀ u ∈ c.tokens, Legible u) :
    StmtText c.chained c.tokens ∧ ∀ b us, StmtText b us →
      StmtText (c.chained.followedBy b) (c.tokens ++ .mark .next :: us) := by
  have hsimple : ∀ {a : Stmt} {ts}, (∀ b, a.followedBy b = .seq a b) → SimpleText a ts →
      StmtText a ts ∧ ∀ b us, StmtText b us →
        StmtText (a.followedBy b) (ts ++ .mark .next :: us) := by
    intro a ts ha hts
    refine ⟨.simple hts, fun b us hb => ?_⟩
    rw [ha]
    exact .seq hts hb
  induction h with
  | skip => exact hsimple (fun _ => rfl) .skip
  | skipWritten => exact hsimple (fun _ => rfl) .skip
  | assign x he =>
    rw [Stmt.tokens_assign] at hlegible ⊢
    have hx : x ∉ reserved := hlegible (.name x) (by simp)
    have htext := he.operandText fun u hu => hlegible u (by simp [hu])
    exact hsimple (fun _ => rfl) (.assign hx (.operand htext))
  | seq _ _ iha ihb =>
    rw [Stmt.tokens_seq] at hlegible ⊢
    obtain ⟨-, hfollow⟩ := iha fun u hu => hlegible u (by simp [hu])
    obtain ⟨hb, hfollowb⟩ := ihb fun u hu => hlegible u (by simp [hu])
    refine ⟨hfollow _ _ hb, fun d us hd => ?_⟩
    rw [Stmt.chained, Stmt.followedBy_assoc, List.append_assoc]
    exact hfollow _ _ (hfollowb d us hd)
  | ite hc _ _ iha ihb =>
    rw [Stmt.tokens_ite] at hlegible ⊢
    have htext := hc.operandText fun u hu => hlegible u (by simp [hu])
    obtain ⟨ha, -⟩ := iha fun u hu => hlegible u (by simp [hu])
    obtain ⟨hb, -⟩ := ihb fun u hu => hlegible u (by simp [hu])
    exact hsimple (fun _ => rfl) (.ite (.operand htext) (.simple (.brackets ha)) (.brackets hb))
  | step hc _ _ iha ihb =>
    rw [Stmt.tokens_step] at hlegible ⊢
    have htext := hc.operandText fun u hu => hlegible u (by simp [hu])
    obtain ⟨ha, -⟩ := iha fun u hu => hlegible u (by simp [hu])
    obtain ⟨hb, -⟩ := ihb fun u hu => hlegible u (by simp [hu])
    exact hsimple (fun _ => rfl) (.step (.operand htext) (.simple (.brackets ha)) (.brackets hb))
  | loop hc _ ih =>
    rw [Stmt.tokens_loop] at hlegible ⊢
    have htext := hc.operandText fun u hu => hlegible u (by simp [hu])
    obtain ⟨hbody, -⟩ := ih fun u hu => hlegible u (by simp [hu])
    exact hsimple (fun _ => rfl) (.loop (.operand htext) (.brackets hbody))
  | assert hc =>
    rw [Stmt.tokens_assert] at hlegible ⊢
    have htext := hc.operandText fun u hu => hlegible u (by simp [hu])
    exact hsimple (fun _ => rfl) (.assert (.operand htext))
  | exit hc =>
    rw [Stmt.tokens_exit] at hlegible ⊢
    have htext := hc.operandText fun u hu => hlegible u (by simp [hu])
    exact hsimple (fun _ => rfl) (.exit (.operand htext))

theorem programSign_injective : Function.Injective Operator.programSign := by
  intro op op' h
  have hop := ofProgramSign?_programSign op
  rw [h, ofProgramSign?_programSign] at hop
  exact (Option.some_injective _ hop).symm

theorem Token.word_injective : Function.Injective Token.word := by
  intro t u h
  have htext : t.text = u.text := congrArg Word.text h
  have htag : t.tag = u.tag := List.singleton_injective (congrArg Word.tags h)
  cases u with
  | mark m => exact Token.eq_mark htag
  | _ =>
    cases t with
    | mark m => exact (Token.eq_mark htag.symm).symm
    | _ => simp_all [Token.text, Token.tag, programSign_injective.eq_iff]

/-- What a laid-out text denotes depends on the tokens of the layout alone. -/
theorem parse_render {l : Layout} (hl : Spaced l) (hproper : ∀ t, some t ∈ l → Proper t)
    {t : Tree Label} (h : parse (String.ofList (render l)) = .ok (some t)) :
    ∃ c, StmtText c l.reduceOption ∧ StmtTree c t := by
  obtain ⟨c, ts, hts, hc, ht, -⟩ := parse_sound h
  have htokens : ts.map Token.word = l.reduceOption.map Token.word := by
    rw [← hts, Lexes.tokens_eq]
    rw [String.toList_ofList]
    exact lexes_render hl.chain hproper
  rw [← Token.word_injective.list_map htokens]
  exact ⟨c, hc, ht⟩

theorem Expr.layout_proper {e : Expr} (hvars : ∀ x ∈ e.vars, isName x = true) :
    ∀ t, some t ∈ e.layout → Proper t := by
  induction e with
  | var x => simpa [layout, Proper, vars] using hvars
  | num n => simp [layout, Proper]
  | operate op a b iha ihb =>
    have ha := iha fun x hx => hvars x (by simp [vars, hx])
    have hb := ihb fun x hx => hvars x (by simp [vars, hx])
    simpa [layout, bracket, Proper, or_imp, forall_and] using ⟨ha, hb⟩
  | invalid _ => simp [layout, Proper]

theorem Stmt.layout_proper {c : Stmt} (hvars : ∀ x ∈ c.vars, isName x = true) :
    ∀ t, some t ∈ c.layout → Proper t := by
  induction c with
  | skip => simp [layout, Proper]
  | assign x e =>
    have he := e.layout_proper fun y hy => hvars y (by simp [vars, hy])
    have hx : isName x = true := hvars x (by simp [vars])
    simpa [layout, Proper, or_imp, forall_and] using ⟨hx, he⟩
  | seq a b iha ihb =>
    have ha := iha fun x hx => hvars x (by simp [vars, hx])
    have hb := ihb fun x hx => hvars x (by simp [vars, hx])
    simpa [layout, Proper, or_imp, forall_and] using ⟨ha, hb⟩
  | ite c a b iha ihb | step c a b iha ihb =>
    have hc := c.layout_proper fun x hx => hvars x (by simp [vars, hx])
    have ha := iha fun x hx => hvars x (by simp [vars, hx])
    have hb := ihb fun x hx => hvars x (by simp [vars, hx])
    simpa [layout, conditionalLayout, bracket, Proper, or_imp, forall_and] using ⟨hc, ha, hb⟩
  | loop c body ih =>
    have hc := c.layout_proper fun x hx => hvars x (by simp [vars, hx])
    have hbody := ih fun x hx => hvars x (by simp [vars, hx])
    simpa [layout, bracket, Proper, or_imp, forall_and] using ⟨hc, hbody⟩
  | assert c | exit c =>
    have hc := c.layout_proper hvars
    simpa [layout, Proper, or_imp, forall_and] using hc
  | invalid _ => simp [layout]

/-- A printed program that is read again is the same, with its sequences hanging to the right. -/
theorem StmtTree.of_parse_text {c : Stmt} {t u : Tree Label} (ht : StmtTree c t)
    (hvars : ∀ x ∈ c.vars, isName x = true) (h : parse c.text = .ok (some u)) :
    StmtTree c.chained u := by
  obtain ⟨c', hc', hu⟩ := parse_render c.layout_spaced (Stmt.layout_proper hvars) h
  obtain ⟨htext, -⟩ := ht.stmtText hc'.legible
  rw [htext.unique hc']
  exact hu

end Reading

end WhileSketch.While
