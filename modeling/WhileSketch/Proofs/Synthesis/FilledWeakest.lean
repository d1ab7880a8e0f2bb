import Mathlib
import WhileSketch.Proofs.Synthesis.Filling
import WhileSketch.Proofs.While.Verification

/-! The weakest precondition of a program, in a state that gives its holes their values, and that of
the program with these values in place of the holes. A loop is asked about for all values of the
variables, and holes are variables, so the first says more than the second; they say the same where
holes come before loops. -/

namespace WhileSketch.While

open Holes

/-- What is true of a program with values for its holes is true of the filled program, and the other
way round if no hole is in a loop or behind one. -/
theorem weakestHolds_fill {c : Stmt} {t : Tree Label} (ht : StmtTree c t) (hs : c.isSorted = true)
    {f : Filling} (hholes : ∀ x n, f.lookup x = some n → isHole x = true)
    (hf : ∀ x ∈ c.assigned, f.lookup x = none) {Q I : Condition} (hQ : Q.IsTruth (c.fill f).vars)
    (hI : I.IsTruth (c.fill f).vars) (hloop : c.isLoopFree = true ∨ (c.fill f).vars ≠ [])
    (pre : Assertion) {s : State} (hagree : f.Agrees s) :
    (Task.WeakestHolds ⟨t, pre, Q.eval, I.eval⟩ s →
        Task.WeakestHolds ⟨fillTree f t, pre, Q.eval, I.eval⟩ s) ∧
      (c.holesFirst f = true → Task.WeakestHolds ⟨fillTree f t, pre, Q.eval, I.eval⟩ s →
        Task.WeakestHolds ⟨t, pre, Q.eval, I.eval⟩ s) := by
  have hmem : ∀ x, x ∈ (c.fill f).vars ↔ x ∈ c.vars ∧ f.lookup x = none := fun x => by
    simp [Stmt.vars_fill hf]
  have hvars : ∀ x ∈ (c.fill f).vars, x ∈ c.vars := fun x hx => ((hmem x).mp hx).1
  have hid : "id" ∈ (c.fill f).vars ↔ "id" ∈ c.vars := by
    have hlookup : f.lookup "id" = none := by
      cases h : f.lookup "id" with
      | none => rfl
      | some n => exact absurd (hholes _ n h) (by decide)
    simp [hmem, hlookup]
  rw [ht.weakestHolds_iff hs (Stmt.eval_expresses (hQ.mono hvars))
      (Stmt.eval_expresses (hI.mono hvars)),
    (ht.fill hf).weakestHolds_iff ((Stmt.isSorted_fill c).trans hs) (Stmt.eval_expresses hQ)
      (Stmt.eval_expresses hI), hid, Stmt.isLoopFree_fill]
  have hlooks : ∀ {P : Condition}, P.IsTruth (c.fill f).vars → LooksAt (c.fill f).names P.Holds :=
    fun hP s s' hs => (hP.holds_congr fun x hx => hs x (Stmt.mem_names.mpr hx)).mp
  constructor
  · rintro ⟨⟨hid, -⟩, hw⟩
    refine ⟨⟨hid, hloop⟩, hw.fill hs hf (.inr fun x hx => ?_) (fun _ _ hq => hq) hagree⟩
    obtain ⟨hx, hnone⟩ := (hmem x).mp (Stmt.mem_names.mp hx)
    exact ⟨Stmt.mem_names.mpr hx, hnone⟩
  · rintro hfirst ⟨⟨hid, -⟩, hw⟩
    refine ⟨⟨hid, hloop.imp_right fun h => ?_⟩, hw.of_fill hs hf hfirst (.inr ⟨?_, hlooks hI, hlooks hQ⟩)
      (fun _ _ hq => hq) hagree⟩
    · obtain ⟨x, hx⟩ := List.exists_mem_of_ne_nil _ h
      exact List.ne_nil_of_mem (hvars x hx)
    · exact fun x hx hnone => Stmt.mem_names.mpr ((hmem x).mpr ⟨hx, hnone⟩)

theorem eq_of_lookup_one {x y : String} {m n : Int} (h : [(y, n)].lookup x = some m) :
    x = y ∧ n = m := by
  by_cases hxy : x = y
  · rw [hxy, List.lookup_cons_self] at h
    exact ⟨hxy, Option.some.inj h⟩
  · simp [List.lookup_cons, beq_false_of_ne hxy] at h

theorem agrees_one {x : String} {n : Int} {s : State} (h : s x = n) : Filling.Agrees [(x, n)] s := by
  intro y m hy
  obtain ⟨rfl, rfl⟩ := eq_of_lookup_one hy
  exact h

def countUp : Stmt :=
  .seq (.assign "x" (.var "hole_0"))
    (.loop (.operate .lt (.var "x") (.num 3)) (.assign "x" (.operate .add (.var "x") (.num 1))))

theorem weakestHolds_fill_countUp : StmtTree countUp countUp.tree ∧
    countUp.holesFirst [("hole_0", 1)] = true ∧
    Task.WeakestHolds ⟨fillTree [("hole_0", 1)] countUp.tree, Condition.eval (.bool true),
      Condition.eval (.operate .ge (.var "x") (.int 3)), Condition.eval (.bool true)⟩ (fun _ => 1) ∧
    Task.WeakestHolds ⟨countUp.tree, Condition.eval (.bool true),
      Condition.eval (.operate .ge (.var "x") (.int 3)), Condition.eval (.bool true)⟩ (fun _ => 1) := by
  have htree : StmtTree countUp countUp.tree :=
    .seq (.assign "x" (.var "hole_0")) (.loop (.operate .lt (.var "x") (.num 3))
      (.assign "x" (.operate .add (.var "x") (.num 1))))
  have hpost : ∀ c : Stmt, "x" ∈ c.vars →
      Condition.IsTruth c.vars (.operate .ge (.var "x") (.int 3)) := fun _ hx =>
    .compare rfl (.var hx) (.int 3)
  have hholds : Task.WeakestHolds ⟨countUp.tree, Condition.eval (.bool true),
      Condition.eval (.operate .ge (.var "x") (.int 3)), Condition.eval (.bool true)⟩ (fun _ => 1) := by
    rw [htree.weakestHolds_iff rfl (Stmt.eval_expresses (hpost countUp (by decide)))
      (Stmt.eval_expresses (.bool true))]
    refine ⟨by decide, rfl, fun s' _ => ⟨fun _ => rfl, fun h => ?_⟩⟩
    simpa [Expr.Holds, Expr.value, Condition.Holds, Condition.value, Operator.Compares] using h.2
  have hhole : ∀ x n, [("hole_0", (1 : Int))].lookup x = some n → isHole x = true := fun x n hx => by
    rw [(eq_of_lookup_one hx).1]
    decide
  have hfilled := (weakestHolds_fill htree rfl hhole (by decide)
    (hpost (countUp.fill [("hole_0", 1)]) (by decide)) (.bool true) (.inr (by decide)) _
    (agrees_one rfl)).1 hholds
  exact ⟨htree, by decide, hfilled, hholds⟩

/-- A loop that ends with the value of a hole. -/
def matchLoop : Stmt :=
  .loop (.operate .ne (.var "x") (.var "hole_0")) (.assign "x" (.var "hole_0"))

/-- With the value zero for its hole the loop ends at zero, but what is asked of it before it is
filled is asked for all values of the hole. -/
theorem not_weakestHolds_matchLoop : StmtTree matchLoop matchLoop.tree ∧
    Filling.Agrees [("hole_0", 0)] (fun _ => 0) ∧
    Task.WeakestHolds ⟨fillTree [("hole_0", 0)] matchLoop.tree, Condition.eval (.bool true),
      Condition.eval (.operate .eq (.var "x") (.int 0)), Condition.eval (.bool true)⟩ (fun _ => 0) ∧
    ¬ Task.WeakestHolds ⟨matchLoop.tree, Condition.eval (.bool true),
      Condition.eval (.operate .eq (.var "x") (.int 0)), Condition.eval (.bool true)⟩ (fun _ => 0) := by
  have htree : StmtTree matchLoop matchLoop.tree :=
    .loop (.operate .ne (.var "x") (.var "hole_0")) (.assign "x" (.var "hole_0"))
  have hfilled : StmtTree (matchLoop.fill [("hole_0", 0)]) (fillTree [("hole_0", 0)] matchLoop.tree) :=
    htree.fill (by decide)
  refine ⟨htree, agrees_one rfl, ?_, ?_⟩
  · rw [hfilled.weakestHolds_iff rfl (Stmt.eval_expresses (.compare rfl (.var (by decide)) (.int 0)))
      (Stmt.eval_expresses (.bool true))]
    have hfill : matchLoop.fill [("hole_0", 0)] =
        .loop (.operate .ne (.var "x") (.num 0)) (.assign "x" (.num 0)) := rfl
    rw [hfill]
    refine ⟨by decide, rfl, fun s' _ => ⟨fun _ => rfl, fun h => ?_⟩⟩
    simpa [Expr.Holds, Expr.value, Condition.Holds, Condition.value, Operator.Compares] using h.2
  · rw [htree.weakestHolds_iff rfl (Stmt.eval_expresses (.compare rfl (.var (by decide)) (.int 0)))
      (Stmt.eval_expresses (.bool true))]
    rintro ⟨-, -, hw⟩
    obtain ⟨-, hleft⟩ := hw _ (State.agreeOutside_take _ (fun _ => 1) _)
    have hone : ∀ x ∈ matchLoop.names,
        State.take (fun _ => 0) matchLoop.names (fun _ => 1) x = 1 := fun x => State.take_of_mem
    have hx := hone "x" (by decide)
    have hhole := hone "hole_0" (by decide)
    have hend := hleft ⟨rfl, by simp [Expr.Holds, Expr.value, Operator.Compares, hx, hhole]⟩
    simp [Condition.Holds, Condition.value, Operator.Compares, hx] at hend

end WhileSketch.While
