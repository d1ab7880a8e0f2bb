import Mathlib
import WhileSketch.Proofs.Tree.Nodes
import WhileSketch.Proofs.While.Legibility

/-! The loops that are left in an unrolled program. A loop inside another one is copied into each
step of that one, and not unrolled. -/

namespace WhileSketch.While

def Stmt.heads : Stmt → List String
  | skip | invalid _ => ["skip"]
  | assign _ _ => [":="]
  | seq a b => ";" :: (a.heads ++ b.heads)
  | ite _ a b => "if" :: (a.heads ++ b.heads)
  | step _ a b => "if_unrolled" :: (a.heads ++ b.heads)
  | loop _ body => "while" :: body.heads
  | assert _ => ["assert"]
  | exit _ => ["assert_unrolled"]

section Counting

variable {w : String}

theorem ne_of_mem_keywords {x : String} (hw : w ∈ keywords) (hx : x ∉ keywords) : x ≠ w :=
  fun h => hx (h ▸ hw)

theorem not_mem_keywords_of_isName {x : String} (hx : isName x = true) : x ∉ keywords := by
  simp only [isName, Bool.and_eq_true, Bool.not_eq_true', List.contains_eq_mem,
    decide_eq_false_iff_not] at hx
  exact hx.2

theorem ExprTree.count_keyword {e : Expr} {t : Tree Label} (h : ExprTree e t)
    (hvars : ∀ x ∈ e.vars, isName x = true) (hw : w ∈ keywords) : t.count w = 0 := by
  have hcount : ∀ {x : String}, x ∉ keywords → ∀ ts : List (Tree Label),
      (Tree.word x ts).count w = (ts.map (Tree.count w)).sum :=
    fun hx => Tree.count_word_of_ne (ne_of_mem_keywords hw hx)
  induction h with
  | var x =>
    have hx := not_mem_keywords_of_isName (hvars x (by simp [Expr.vars]))
    simp [hcount hx, hcount (x := "id") (by decide)]
  | num n =>
    simp [hcount (x := "num") (by decide), Tree.leaf, Tree.count_node, Label.isWord, Label.text?]
  | hole => simp [hcount (x := "hole") (by decide), hcount (x := "??") (by decide)]
  | operate op _ _ iha ihb =>
    have hop : op.programSign ∉ keywords := by cases op <;> decide
    simp only [Expr.vars, List.mem_append, or_imp, forall_and] at hvars
    simp [hcount hop, iha hvars.1, ihb hvars.2]

/-- A keyword is at as many nodes of a tree as statements begin with it. -/
theorem StmtTree.count_keyword {c : Stmt} {t : Tree Label} (h : StmtTree c t)
    (hvars : ∀ x ∈ c.vars, isName x = true) (hw : w ∈ keywords) (hskip : w ≠ "skip") :
    t.count w = c.heads.count w := by
  have hexpr : ∀ {e : Expr} {t : Tree Label}, ExprTree e t → (∀ x ∈ e.vars, isName x = true) →
      t.count w = 0 := fun he hx => he.count_keyword hx hw
  have hcount : ∀ (x : String) (ts : List (Tree Label)),
      (Tree.word x ts).count w = (ts.map (Tree.count w)).sum + if x = w then 1 else 0 := by
    intro x ts
    rw [Tree.word, Tree.count_node]
    simp [Label.isWord, Label.text?]
  induction h with
  | skip => simp [hcount, Stmt.heads, Ne.symm hskip]
  | skipWritten => simp [hcount, Stmt.heads, Ne.symm hskip]
  | assign x he =>
    obtain ⟨hx, he'⟩ := List.forall_mem_cons.mp hvars
    have hname := hexpr (.var x) (by simpa [Expr.vars] using hx)
    simp [hcount ":=", Stmt.heads, hname, hexpr he he', List.count_cons]
  | seq _ _ iha ihb =>
    obtain ⟨ha, hb⟩ := List.forall_mem_append.mp hvars
    simp [hcount, Stmt.heads, iha ha, ihb hb, List.count_cons]
  | ite hc _ _ iha ihb | step hc _ _ iha ihb =>
    obtain ⟨hc', hab⟩ := List.forall_mem_append.mp hvars
    obtain ⟨ha, hb⟩ := List.forall_mem_append.mp hab
    simp [hcount, Stmt.heads, hexpr hc hc', iha ha, ihb hb, List.count_cons]
  | loop hc _ ih =>
    obtain ⟨hc', hbody⟩ := List.forall_mem_append.mp hvars
    simp [hcount, Stmt.heads, hexpr hc hc', ih hbody, List.count_cons]
  | assert hc | exit hc => simp [hcount, Stmt.heads, hexpr hc hvars, List.count_cons]

end Counting

mutual

/-- The number of loops of a tree that are inside another loop of it. -/
def innerLoops : Tree Label → Nat
  | .node r ts => if r.isWord "while" then (ts.map (Tree.count "while")).sum else innerLoopsEach ts

def innerLoopsEach : List (Tree Label) → Nat
  | [] => 0
  | t :: ts => innerLoops t + innerLoopsEach ts

end

namespace Stmt

def loops (c : Stmt) : Nat :=
  c.heads.count "while"

def nestedLoops : Stmt → Nat
  | loop _ body => body.loops
  | seq a b | ite _ a b | step _ a b => a.nestedLoops + b.nestedLoops
  | _ => 0

theorem loops_steps (c : Expr) (body : Stmt) (n : Nat) :
    (steps c body n).loops = (n + 1) * body.loops := by
  induction n with
  | zero => simp [loops, steps, heads]
  | succ n ih =>
    have hsum : (steps c body (n + 1)).loops = (steps c body n).loops + body.loops := by
      simp [loops, steps, heads]
    rw [hsum, ih]
    ring

/-- Each step of a loop keeps the loops of the body. -/
theorem loops_unrolled (limit : Int) (c : Stmt) :
    (c.unrolled limit).loops = (max limit 1).toNat * c.nestedLoops := by
  induction c with
  | seq a b iha ihb | ite c a b iha ihb | step c a b iha ihb =>
    rw [nestedLoops, Nat.mul_add, ← iha, ← ihb]
    simp [loops, heads]
  | loop c body _ =>
    have hsteps : (limit - 1).toNat + 1 = (max limit 1).toNat := by omega
    rw [nestedLoops, ← hsteps, ← loops_steps c]
    simp [loops, heads]
  | _ => rfl

end Stmt

theorem innerLoops_word {w : String} (hw : w ≠ "while") (ts : List (Tree Label)) :
    innerLoops (Tree.word w ts) = innerLoopsEach ts := by
  have hloop : Label.isWord (.word w) "while" = false := by
    simpa [Label.isWord, Label.text?] using hw
  rw [Tree.word, innerLoops, hloop]
  rfl

theorem ExprTree.innerLoops_eq {e : Expr} {t : Tree Label} (h : ExprTree e t)
    (hvars : ∀ x ∈ e.vars, isName x = true) : innerLoops t = 0 := by
  induction h with
  | var x =>
    have hx : x ≠ "while" :=
      ne_of_mem_keywords (by decide) (not_mem_keywords_of_isName (hvars x (by simp [Expr.vars])))
    rw [innerLoops_word (by decide), innerLoopsEach, innerLoops_word hx]
    rfl
  | num n => rfl
  | hole => rfl
  | operate op _ _ iha ihb =>
    simp only [Expr.vars, List.mem_append, or_imp, forall_and] at hvars
    rw [innerLoops_word (programSign_not_word op "while" (by simp)), innerLoopsEach, innerLoopsEach,
      iha hvars.1, ihb hvars.2]
    rfl

theorem StmtTree.innerLoops_eq {c : Stmt} {t : Tree Label} (h : StmtTree c t)
    (hvars : ∀ x ∈ c.vars, isName x = true) : innerLoops t = c.nestedLoops := by
  induction h with
  | skip => rfl
  | skipWritten => rfl
  | assign x he =>
    obtain ⟨hx, he'⟩ := List.forall_mem_cons.mp hvars
    have hname := (ExprTree.var x).innerLoops_eq (by simpa [Expr.vars] using hx)
    rw [innerLoops_word (by decide), innerLoopsEach, innerLoopsEach, hname, he.innerLoops_eq he']
    rfl
  | seq _ _ iha ihb =>
    obtain ⟨ha, hb⟩ := List.forall_mem_append.mp hvars
    rw [innerLoops_word (by decide), innerLoopsEach, innerLoopsEach, iha ha, ihb hb]
    rfl
  | ite hc _ _ iha ihb | step hc _ _ iha ihb =>
    obtain ⟨hc', hab⟩ := List.forall_mem_append.mp hvars
    obtain ⟨ha, hb⟩ := List.forall_mem_append.mp hab
    rw [innerLoops_word (by decide), innerLoopsEach, innerLoopsEach, innerLoopsEach,
      hc.innerLoops_eq hc', iha ha, ihb hb, Nat.zero_add]
    rfl
  | loop hc hb _ =>
    obtain ⟨hc', hbody⟩ := List.forall_mem_append.mp hvars
    have hwhile : "while" ∈ keywords := by decide
    change (List.map (Tree.count "while") _).sum = _
    simp [hc.count_keyword hc' hwhile, hb.count_keyword hbody hwhile (by decide), Stmt.nestedLoops,
      Stmt.loops]
  | assert hc | exit hc =>
    rw [innerLoops_word (by decide), innerLoopsEach, hc.innerLoops_eq hvars]
    rfl

/-- The loops of an unrolled program are the loops of the program that are inside another loop, each
once for every step of the outermost loop around it. So none is left just when none was inside
another. -/
theorem count_loops_unroll {a : Stmt} {t : Tree Label} (ht : StmtTree a t)
    (hnames : ∀ x ∈ a.vars, isName x = true) (limit : Int) :
    ∃ u, unroll limit t = .ok u ∧ u.count "while" = (max limit 1).toNat * innerLoops t ∧
      ((∀ n ∈ u.nodes, n.root.isWord "while" = false) ↔ innerLoops t = 0) := by
  have hwhile : "while" ∈ keywords := by decide
  obtain ⟨u, hu, hut⟩ : ∃ u, unroll limit t = .ok u ∧ StmtTree (a.unrolled limit) u :=
    ht.unroll fun x hx => ne_of_mem_keywords hwhile (not_mem_keywords_of_isName (hnames x hx))
  have hcount : u.count "while" = (max limit 1).toNat * innerLoops t := by
    rw [hut.count_keyword (fun x hx => hnames x (Stmt.mem_vars_unrolled.mp hx)) hwhile (by decide),
      ht.innerLoops_eq hnames]
    exact Stmt.loops_unrolled limit a
  refine ⟨u, hu, hcount, ?_⟩
  rw [← Tree.count_eq_zero_iff, hcount, Nat.mul_eq_zero]
  exact or_iff_right (by omega)

/-- `while x < 1 do while y < 1 do skip`. -/
def loopInLoop : Stmt :=
  .loop (.operate .lt (.var "x") (.num 1)) (.loop (.operate .lt (.var "y") (.num 1)) .skip)

theorem stmtTree_loopInLoop : StmtTree loopInLoop loopInLoop.tree :=
  .loop (.operate .lt (.var "x") (.num 1)) (.loop (.operate .lt (.var "y") (.num 1)) .skipWritten)

theorem count_loops_unroll_loopInLoop :
    ∃ u, unroll 3 loopInLoop.tree = .ok u ∧ u.count "while" = 3 := by
  obtain ⟨u, hu, hcount, -⟩ := count_loops_unroll stmtTree_loopInLoop
    (by decide : ∀ x ∈ loopInLoop.vars, isName x = true) 3
  rw [stmtTree_loopInLoop.innerLoops_eq (by decide)] at hcount
  exact ⟨u, hu, hcount⟩

/-- With room for one round, the inner loop is still there. -/
theorem unroll_keeps_inner_loop :
    parse "while (x < 1) do (while (y < 1) do (skip))" = .ok (some loopInLoop.tree) ∧
      ∃ u, unroll 1 loopInLoop.tree = .ok u ∧ ∃ n ∈ u.nodes, n.root.isWord "while" = true := by
  have hlegible : loopInLoop.Legible := Stmt.legible_loop.mpr
    ⟨Expr.legible_operate_var_num (by decide) (by decide), Stmt.legible_loop.mpr
      ⟨Expr.legible_operate_var_num (by decide) (by decide), Stmt.legible_skip⟩⟩
  obtain ⟨u, hu, hut⟩ : ∃ u, unroll 1 loopInLoop.tree = .ok u ∧
      StmtTree (loopInLoop.unrolled 1) u := stmtTree_loopInLoop.unroll (by decide)
  refine ⟨stmtTree_loopInLoop.parse_text (by decide) hlegible, u, hu, ?_⟩
  by_contra hnone
  have hzero : u.count "while" = 0 := by
    rw [Tree.count_eq_zero_iff]
    simpa using hnone
  rw [hut.count_keyword (by decide) (by decide) (by decide)] at hzero
  exact absurd hzero (by decide)

end WhileSketch.While
