import Mathlib
import WhileSketch.Proofs.Synthesis.FilledProgram
import WhileSketch.Proofs.Synthesis.Questions
import WhileSketch.Proofs.While.Rereading

/-! Numbers are put into the text of a printed program. What is read then is the program with these
numbers in place of its holes. -/

namespace WhileSketch.While

open Holes Layout

variable {f : Filling}

theorem Readable.of_forall (h : ∀ e ∈ f, (Text.digits e.2).length ≤ Text.maxDigits) :
    Readable f := by
  intro x n hx
  exact h (x, n) (Refinement.mem_of_lookup hx)

theorem Legible.fill (hf : Readable f) {u : Token} (hu : Legible u) : Legible (u.fill f) := by
  cases u with
  | name x =>
    rw [Token.fill]
    cases hlookup : f.lookup x with
    | none => exact hu
    | some n =>
      refine ⟨n, ?_⟩
      rw [Text.readInt_toString, if_neg (Nat.not_lt.mpr (hf x n hlookup))]
  | _ => exact hu

theorem Stmt.tokens_fill {c : Stmt} (hassigned : ∀ x ∈ c.assigned, f.lookup x = none) :
    (c.fill f).tokens = c.tokens.map (Token.fill f) := by
  rw [Stmt.tokens, Stmt.layout_fill hassigned, Layout.fill, List.reduceOption_map, Stmt.tokens]

theorem Stmt.Legible.fill {c : Stmt} (hc : c.Legible) (hf : Readable f)
    (hassigned : ∀ x ∈ c.assigned, f.lookup x = none) : (c.fill f).Legible := by
  rw [Stmt.Legible, Stmt.tokens_fill hassigned, List.forall_mem_map]
  exact fun u hu => (hc u hu).fill hf

/-- A printed program into whose text numbers are put is read with these numbers in place of its
holes, with its sequences hanging to the right and with what does nothing written out. -/
theorem StmtTree.parse_fill_text {c : Stmt} {t : Tree Label} (ht : StmtTree c t)
    (hvars : ∀ x ∈ c.vars, isName x = true) (hlegible : c.Legible) (hf : Readable f)
    (hholes : ∀ x n, f.lookup x = some n → isHole x = true)
    (hassigned : ∀ x ∈ c.assigned, f.lookup x = none) :
    parse (Holes.fill f c.text) = .ok (some (rightHung (skipsWritten (fillTree f t)))) := by
  have hfilled : StmtTree (c.fill f) (fillTree f t) := ht.fill hassigned
  have hnames : ∀ x ∈ (c.fill f).vars, isName x = true := by
    intro x hx
    rw [Stmt.vars_fill hassigned] at hx
    exact hvars x (List.mem_filter.mp hx).1
  rw [Stmt.text_fill hvars hholes hassigned, hfilled.parse_text hnames (hlegible.fill hf hassigned),
    hfilled.skipsWritten_eq hnames, hfilled.hangs.rightHung_eq]

/-- Numbers for holes leave the variables that are assigned alone, if none of the given program has
the name of a hole. -/
theorem lookup_assigned {program : String} {t₀ t : Tree Label} {a b : Stmt} {vars : List String}
    (h : ByExample.Reads program t₀ t a b) (hvars : variableNames t₀ = .ok vars)
    (hnone : find? vars = none) (hholes : ∀ x n, f.lookup x = some n → isHole x = true) :
    ∀ x ∈ b.assigned, f.lookup x = none := by
  intro x hx
  rw [h.givenTree.variableNames_eq] at hvars
  split_ifs at hvars
  cases hvars
  rw [Option.eq_none_iff_forall_ne_some]
  intro n hn
  exact List.find?_eq_none.mp hnone x (Stmt.mem_names.mpr (h.assigned x hx)) (hholes x n hn)

/-- Numbers for some holes may be put into the text of the program as it is printed with its loops
unrolled. What is read then is the unrolled program with these numbers in place of the holes, with
its sequences hanging to the right and with what does nothing written out. -/
theorem parse_fill_print {program : String} {t₀ t : Tree Label} {vars : List String}
    (h₀ : parse program = .ok (some t₀)) (hvars : variableNames t₀ = .ok vars)
    (hnone : find? vars = none) (h : parse (nameAll program).1 = .ok (some t))
    (hholes : ∀ x, (f.lookup x).isSome = true → x ∈ (nameAll program).2) (hf : Readable f)
    (limit : Int) : ∃ u text, unroll limit t = .ok u ∧ print u = .ok (.word text) ∧
      parse (Holes.fill f text) = .ok (some (rightHung (skipsWritten (fillTree f u)))) := by
  have hreads := ByExample.reads_of_parse h₀ h
  have hisHole : ∀ x n, f.lookup x = some n → isHole x = true := by
    intro x n hx
    exact ByExample.isHole_of_mem_holes (hholes x (by rw [hx]; rfl))
  obtain ⟨u, hu, hunrolled⟩ := hreads.unroll limit
  refine ⟨u, ((Stmt.ofTree t).unrolled limit).text, hu, hunrolled.print_eq,
    hunrolled.parse_fill_text ?_ (hreads.legible.unrolled limit) hf hisHole ?_⟩
  · exact fun x hx => hreads.isName x (Stmt.mem_vars_unrolled.mp hx)
  · exact fun x hx => lookup_assigned hreads hvars hnone hisHole x (Stmt.mem_assigned_unrolled.mp hx)

section Waiting

def waiting (e : Expr) : Stmt :=
  .loop (.operate .lt (.var "x") e) .skip

def waitingStep : Tree Label :=
  Tree.word ";" [
    Tree.word "if_unrolled" [
      Tree.word "<" [Tree.word "id" [Tree.word "x" []], Tree.word "id" [Tree.word "hole_0" []]],
      Tree.word "skip" [Tree.word "skip" []],
      Tree.word "skip" []],
    Tree.word "assert_unrolled" [
      Tree.word "<" [Tree.word "id" [Tree.word "x" []], Tree.word "id" [Tree.word "hole_0" []]]]]

theorem stmtTree_waiting {e : Expr} (he : ExprTree e e.tree) :
    StmtTree (waiting e) (waiting e).tree :=
  .loop (.operate .lt (.var "x") he) .skipWritten

theorem stmtTree_waitingStep : StmtTree ((waiting (.var "hole_0")).unrolled 1) waitingStep :=
  .seq (.step (.operate .lt (.var "x") (.var "hole_0")) .skipWritten .skip)
    (.exit (.operate .lt (.var "x") (.var "hole_0")))

theorem legible_waiting {e : Expr} (he : e.Legible) : (waiting e).Legible :=
  Stmt.legible_loop.mpr
    ⟨Expr.legible_operate.mpr ⟨Expr.legible_var.mpr (by decide), he⟩, Stmt.legible_skip⟩

theorem parse_fill_print_some : ∃ t u text,
    parse (nameAll "x := ?? ; while (x < ??) do (skip)").1 = .ok (some t) ∧
      unroll 2 t = .ok u ∧ print u = .ok (.word text) ∧
      parse (Holes.fill [("hole_1", -5)] text) =
        .ok (some (rightHung (skipsWritten (fillTree [("hole_1", -5)] u)))) := by
  have h₀ : parse "x := ?? ; while (x < ??) do (skip)" =
      .ok (some (Stmt.seq (.assign "x" .hole) (waiting .hole)).tree) := by
    have htree := StmtTree.seq (.assign "x" .hole) (stmtTree_waiting .hole)
    have hhole : Expr.hole.Legible := OperandText.hole.legible_expr
    exact htree.parse_text (by decide) (Stmt.legible_seq.mpr
      ⟨Stmt.legible_assign.mpr ⟨by decide, hhole⟩, legible_waiting hhole⟩)
  have hname : nameAll "x := ?? ; while (x < ??) do (skip)" =
      ("x := hole_0 ; while (x < hole_1) do (skip)", ["hole_0", "hole_1"]) := by
    decide +kernel
  have h : parse (nameAll "x := ?? ; while (x < ??) do (skip)").1 =
      .ok (some (Stmt.seq (.assign "x" (.var "hole_0")) (waiting (.var "hole_1"))).tree) := by
    have htree := StmtTree.seq (.assign "x" (.var "hole_0")) (stmtTree_waiting (.var "hole_1"))
    rw [hname]
    exact htree.parse_text (by decide) (Stmt.legible_seq.mpr
      ⟨Stmt.legible_assign.mpr ⟨by decide, Expr.legible_var.mpr (by decide)⟩,
        legible_waiting (Expr.legible_var.mpr (by decide))⟩)
  have hsome : ∀ x, (List.lookup x [("hole_1", (-5 : Int))]).isSome = true →
      x ∈ (nameAll "x := ?? ; while (x < ??) do (skip)").2 := by
    intro x hx
    rw [List.lookup_isSome_iff] at hx
    rw [hname]
    grind
  obtain ⟨u, text, hu, htext, hread⟩ :=
    parse_fill_print h₀ rfl (by decide +kernel) h hsome (.of_forall (by decide)) 2
  exact ⟨_, u, text, h, hu, htext, hread⟩

/-- The step that a loop does not take has nothing below its node, and is read with its word there
when a number has been put into the text. -/
theorem parse_fill_print_waiting :
    (∃ t₀, parse "while (x < ??) do (skip)" = .ok (some t₀) ∧ variableNames t₀ = .ok ["x"]) ∧
      find? ["x"] = none ∧ (nameAll "while (x < ??) do (skip)").2 = ["hole_0"] ∧
      parse (nameAll "while (x < ??) do (skip)").1 = .ok (some (waiting (.var "hole_0")).tree) ∧
      unroll 1 (waiting (.var "hole_0")).tree = .ok waitingStep ∧
      ∃ text, print waitingStep = .ok (.word text) ∧
        text = "if_unrolled (x < hole_0) then (skip) else (skip) ; assert_unrolled (x < hole_0)" ∧
        parse (Holes.fill [("hole_0", 1)] text) ≠
          .ok (some (rightHung (fillTree [("hole_0", 1)] waitingStep))) := by
  have hvars : ∀ x ∈ (waiting (.var "hole_0")).vars, isName x = true := by decide
  have hlegible := legible_waiting (e := .var "hole_0") (Expr.legible_var.mpr (by decide))
  have hname : (nameAll "while (x < ??) do (skip)").1 = (waiting (.var "hole_0")).text := by
    decide +kernel
  refine ⟨⟨_, (stmtTree_waiting .hole).parse_text (by decide)
      (legible_waiting OperandText.hole.legible_expr), rfl⟩, by decide +kernel, by decide +kernel, ?_,
    rfl, _, stmtTree_waitingStep.print_eq, by decide, ?_⟩
  · rw [hname]
    exact (stmtTree_waiting (.var "hole_0")).parse_text hvars hlegible
  · have hholes : ∀ x n, List.lookup x [("hole_0", (1 : Int))] = some n → isHole x = true := by
      intro x n hlookup
      have hmem : (x, n) ∈ [("hole_0", (1 : Int))] := Refinement.mem_of_lookup hlookup
      rw [List.mem_singleton] at hmem
      cases hmem
      decide +kernel
    rw [stmtTree_waitingStep.parse_fill_text (fun x hx => hvars x (Stmt.mem_vars_unrolled.mp hx))
      (hlegible.unrolled 1) (.of_forall (by decide)) hholes (by decide)]
    intro h
    have hsize := congrArg Tree.size (Option.some.inj (Except.ok.inj h))
    exact absurd hsize (by decide)

end Waiting

end WhileSketch.While
