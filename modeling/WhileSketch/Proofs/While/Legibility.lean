import Mathlib
import WhileSketch.Proofs.While.RoundTrip
import WhileSketch.Proofs.While.Unrolling

/-! A program that has been read can be printed and read again, also with its loops unrolled. -/

namespace WhileSketch.While

open Layout

def Expr.Legible (e : Expr) : Prop :=
  ∀ u ∈ e.tokens, While.Legible u

def Stmt.Legible (c : Stmt) : Prop :=
  ∀ u ∈ c.tokens, While.Legible u

theorem Expr.legible_var {x : String} : (var x).Legible ↔ x ∉ reserved := by
  simp [Legible, tokens, layout, While.Legible]

theorem Expr.legible_num {n : Int} : (num n).Legible ↔ Text.readInt (toString n) = .ok n := by
  have htokens : (num n).tokens = [.numeral (toString n)] := by simp [tokens, layout]
  rw [Legible, htokens, List.forall_mem_singleton]
  exact ⟨readInt_of_legible, fun h => ⟨n, h⟩⟩

theorem Expr.legible_operate {op : Operator} {a b : Expr} :
    (operate op a b).Legible ↔ a.Legible ∧ b.Legible := by
  simp [Legible, tokens_operate, While.Legible, or_imp, forall_and]

theorem Expr.legible_operate_var_num {op : Operator} {x : String} {n : Int} (hx : x ∉ reserved)
    (hn : Text.readInt (toString n) = .ok n) : (operate op (var x) (num n)).Legible :=
  legible_operate.mpr ⟨legible_var.mpr hx, legible_num.mpr hn⟩

namespace Stmt

variable {c : Expr} {a b : Stmt}

theorem legible_assign {x : String} {e : Expr} :
    (assign x e).Legible ↔ x ∉ reserved ∧ e.Legible := by
  simp [Legible, tokens_assign, While.Legible, Expr.Legible]

theorem legible_seq : (seq a b).Legible ↔ a.Legible ∧ b.Legible := by
  simp [Legible, tokens_seq, While.Legible, or_imp, forall_and]

theorem legible_ite : (ite c a b).Legible ↔ c.Legible ∧ a.Legible ∧ b.Legible := by
  simp [Legible, tokens_ite, While.Legible, Expr.Legible, or_imp, forall_and]

theorem legible_step : (step c a b).Legible ↔ c.Legible ∧ a.Legible ∧ b.Legible := by
  simp [Legible, tokens_step, While.Legible, Expr.Legible, or_imp, forall_and]

theorem legible_loop : (loop c a).Legible ↔ c.Legible ∧ a.Legible := by
  simp [Legible, tokens_loop, While.Legible, Expr.Legible, or_imp, forall_and]

theorem legible_assert : (assert c).Legible ↔ c.Legible := by
  simp [Legible, tokens_assert, While.Legible, Expr.Legible]

theorem legible_exit : (exit c).Legible ↔ c.Legible := by
  simp [Legible, tokens_exit, While.Legible, Expr.Legible]

theorem legible_skip : skip.Legible := by
  simp [Legible, tokens, layout, While.Legible]

theorem legible_steps (hc : c.Legible) (ha : a.Legible) (n : Nat) : (steps c a n).Legible := by
  have hstep : (step c a skip).Legible := legible_step.mpr ⟨hc, ha, legible_skip⟩
  induction n with
  | zero => exact hstep
  | succ n ih => exact legible_seq.mpr ⟨ih, hstep⟩

theorem Legible.unrolled (h : a.Legible) (limit : Int) : (a.unrolled limit).Legible := by
  induction a with
  | seq a b iha ihb =>
    obtain ⟨ha, hb⟩ := legible_seq.mp h
    exact legible_seq.mpr ⟨iha ha, ihb hb⟩
  | ite c a b iha ihb =>
    obtain ⟨hc, ha, hb⟩ := legible_ite.mp h
    exact legible_ite.mpr ⟨hc, iha ha, ihb hb⟩
  | step c a b iha ihb =>
    obtain ⟨hc, ha, hb⟩ := legible_step.mp h
    exact legible_step.mpr ⟨hc, iha ha, ihb hb⟩
  | loop c body _ =>
    obtain ⟨hc, hbody⟩ := legible_loop.mp h
    exact legible_seq.mpr ⟨legible_steps hc hbody _, legible_exit.mpr hc⟩
  | _ => exact h

end Stmt

mutual

theorem OperandText.legible_expr {e : Expr} {ts : List Token} : OperandText e ts → e.Legible
  | .var hx => Expr.legible_var.mpr hx
  | .num hs => Expr.legible_num.mpr (Text.readInt_toString_of_readInt hs)
  | .hole => by simp [Expr.Legible, Expr.hole, Expr.tokens, Expr.layout, Legible]
  | .brackets he => he.legible_expr

theorem ExprText.legible_expr {e : Expr} {ts : List Token} : ExprText e ts → e.Legible
  | .operand he => he.legible_expr
  | .operate _ ha hb => Expr.legible_operate.mpr ⟨ha.legible_expr, hb.legible_expr⟩

end

mutual

theorem SimpleText.legible_stmt {a : Stmt} {ts : List Token} : SimpleText a ts → a.Legible
  | .skip => Stmt.legible_skip
  | .assign hx he => Stmt.legible_assign.mpr ⟨hx, he.legible_expr⟩
  | .ite hc ha hb => Stmt.legible_ite.mpr ⟨hc.legible_expr, ha.legible_stmt, hb.legible_stmt⟩
  | .step hc ha hb => Stmt.legible_step.mpr ⟨hc.legible_expr, ha.legible_stmt, hb.legible_stmt⟩
  | .loop hc ha => Stmt.legible_loop.mpr ⟨hc.legible_expr, ha.legible_stmt⟩
  | .assert hc => Stmt.legible_assert.mpr hc.legible_expr
  | .exit hc => Stmt.legible_exit.mpr hc.legible_expr
  | .brackets ha => ha.legible_stmt

theorem StmtText.legible_stmt {a : Stmt} {ts : List Token} : StmtText a ts → a.Legible
  | .simple ha => ha.legible_stmt
  | .seq ha hb => Stmt.legible_seq.mpr ⟨ha.legible_stmt, hb.legible_stmt⟩

end

/-- A printed program has the tokens it is laid out with. -/
theorem Stmt.tokens_text {c : Stmt} (hvars : ∀ x ∈ c.vars, isName x = true) :
    language.tokens c.text = c.tokens.map Token.word := by
  refine Lexes.tokens_eq ?_
  rw [Stmt.text, String.toList_ofList]
  exact lexes_render c.layout_spaced.chain (Stmt.layout_proper hvars)

/-- A printed program that is legible is read, with its sequences hanging to the right. -/
theorem StmtTree.parse_text {c : Stmt} {t : Tree Label} (ht : StmtTree c t)
    (hvars : ∀ x ∈ c.vars, isName x = true) (hlegible : c.Legible) :
    parse c.text = .ok (some c.chained.tree) := by
  rw [parse_eq_some_iff (Stmt.tokens_text hvars)]
  exact ⟨c.chained, (ht.stmtText hlegible).1, rfl⟩

theorem Stmt.Legible.exists_parse {c : Stmt} (hlegible : c.Legible) (hc : c.isSorted = true)
    (hvars : ∀ x ∈ c.vars, isName x = true) : ∃ t, parse c.text = .ok (some t) := by
  obtain ⟨t, ht⟩ := Stmt.exists_tree hc
  exact ⟨_, ht.parse_text hvars hlegible⟩

end WhileSketch.While
