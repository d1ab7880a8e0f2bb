import Mathlib
import WhileSketch.Synthesis.Refinement
import WhileSketch.Proofs.Synthesis.Preparation
import WhileSketch.Proofs.While.Legibility
import WhileSketch.Proofs.While.Verification

/-! A program that a search returns meets its specification. -/

namespace WhileSketch.Refinement

open While Holes

/-- A filling gives a value to each hole, and only to what has the name of a hole. -/
structure Fills (f : Filling) (holes : List String) : Prop where
  isHole : ∀ x n, f.lookup x = some n → Holes.isHole x = true
  covers : ∀ x ∈ holes, ∃ n, f.lookup x = some n

theorem mem_of_lookup {f : Filling} {x : String} {n : Int} (h : f.lookup x = some n) : (x, n) ∈ f := by
  obtain ⟨l, l', rfl, -⟩ := List.lookup_eq_some_iff.mp h
  simp

theorem lookup_zeros {holes : List String} {x : String} (hx : x ∈ holes) :
    (zeros holes).lookup x = some 0 :=
  Solver.lookup_map_choice holes (fun _ => 0) hx

theorem fills_zeros {holes : List String} (hholes : ∀ x ∈ holes, isHole x = true) :
    Fills (zeros holes) holes where
  isHole x n h := by
    obtain ⟨y, hy, heq⟩ := List.mem_map.mp (mem_of_lookup h)
    cases heq
    exact hholes x hy
  covers x hx := ⟨0, lookup_zeros hx⟩

theorem fills_complete {holes : List String} (hholes : ∀ x ∈ holes, isHole x = true) (m : Model) :
    Fills (Holes.complete (m.filter fun (x, _) => isHole x) holes) holes where
  isHole x n h := by
    rw [Holes.complete, List.lookup_append] at h
    obtain h | ⟨-, h⟩ := Option.or_eq_some_iff.mp h
    · exact (List.mem_filter.mp (mem_of_lookup h)).2
    · exact (fills_zeros fun y hy => hholes y (List.mem_filter.mp hy).1).isHole x n h
  covers x hx := by
    rw [Holes.complete, List.lookup_append]
    cases h : (m.filter fun (x, _) => isHole x).lookup x with
    | some n => exact ⟨n, rfl⟩
    | none => exact ⟨0, lookup_zeros (List.mem_filter.mpr ⟨hx, by rw [h]; rfl⟩)⟩

theorem lookup_filter_isHole {m : Model} {x : String} (hx : isHole x = true) :
    (m.filter fun (y, _) => isHole y).lookup x = m.lookup x := by
  induction m with
  | nil => rfl
  | cons e m ih =>
    obtain ⟨y, n⟩ := e
    by_cases hxy : x = y
    · subst hxy
      simp [hx]
    · have hne : (x == y) = false := by simpa using hxy
      cases hy : isHole y with
      | true => simp [hy, List.lookup_cons, hne, ih]
      | false => simp [hy, List.lookup_cons, hne, ih]

/-- A model gives the holes that it does not mention the value zero, as the filling does. -/
theorem agrees_complete {holes : List String} (hholes : ∀ x ∈ holes, isHole x = true) (m : Model) :
    (Holes.complete (m.filter fun (x, _) => isHole x) holes).Agrees m.value := by
  intro x n hx
  have hhole := (fills_complete hholes m).isHole x n hx
  rw [Holes.complete, List.lookup_append, lookup_filter_isHole hhole] at hx
  rw [Model.value]
  cases hm : m.lookup x with
  | some k =>
    rw [hm] at hx
    exact Option.some.inj hx
  | none =>
    rw [hm, Option.none_or] at hx
    obtain ⟨y, -, heq⟩ := List.mem_map.mp (mem_of_lookup hx)
    cases heq
    rfl

section Rounds

variable (p : Problem)

/-- How a round begins: with what has failed before, or with what is learned from a new failure. -/
inductive Tried : Bool → State → State → Prop
  | again {s : State} : Tried true s s
  | learned {s : State} {counterexample : Settings}
      (h : p.counterexample? s.filling = .ok (some counterexample)) :
      Tried false s (Problem.learn s counterexample)

inductive Round (fuel : Nat) : Bool → State → Except Fault String → Prop
  | found {s : State} (h : p.counterexample? s.filling = .ok none) :
      Round fuel false s (.ok (p.filled s.filling))
  | refuted {s : State} (h : p.candidate? s false = .ok none) :
      Round fuel true s (.error .notVerified)
  | stuck {s : State} {e : Fault} (h : p.counterexample? s.filling = .error e) :
      Round fuel false s (.error e)
  | stumped {retry : Bool} {s s' : State} (hs : Tried p retry s s') {bounded : Bool} {e : Fault}
      (h : p.candidate? s' bounded = .error e) : Round fuel retry s (.error e)
  | widened {retry : Bool} {s s' : State} (hs : Tried p retry s s')
      (h : p.candidate? s' true = .ok none) : Round fuel retry s (p.runWithin fuel true s'.widen)
  | refilled {retry : Bool} {s s' : State} {f : Filling} (hs : Tried p retry s s')
      (h : p.candidate? s' true = .ok (some f)) :
      Round fuel retry s (p.runWithin fuel (f.same s'.filling) { s' with filling := f })

theorem round (fuel : Nat) (retry : Bool) (s : State) :
    Round p fuel retry s (p.runWithin (fuel + 1) retry s) := by
  have hgo : ∀ s' (k : Option Filling → Except Fault String), Tried p retry s s' →
      k none = p.runWithin fuel true s'.widen →
      (∀ f, k (some f) = p.runWithin fuel (f.same s'.filling) { s' with filling := f }) →
      Round p fuel retry s (p.candidate? s' true >>= k) := by
    intro s' k hs' hnone hsome
    cases hc : p.candidate? s' true with
    | error e => exact .stumped hs' hc
    | ok f? =>
      change Round p fuel retry s (k f?)
      cases f? with
      | none =>
        rw [hnone]
        exact .widened hs' hc
      | some f =>
        rw [hsome]
        exact .refilled hs' hc
  rw [Problem.runWithin]
  cases retry with
  | true =>
    simp only [↓reduceIte, pure_bind]
    cases hc : p.candidate? s false with
    | error e => exact .stumped .again hc
    | ok f? =>
      cases f? with
      | none => exact .refuted hc
      | some f => exact hgo s _ .again rfl fun _ => rfl
  | false =>
    simp only [Bool.false_eq_true, ↓reduceIte, pure_bind]
    cases hc : p.counterexample? s.filling with
    | error e => exact .stuck hc
    | ok m? =>
      cases m? with
      | none => exact .found hc
      | some m => exact hgo _ _ (.learned hc) rfl fun _ => rfl

end Rounds

/-- The variables of a program that are no holes. -/
def programVars (c : Stmt) : List String :=
  c.vars.filter fun x => !isHole x

/-- The problem to fill the holes of a sorted program without loops inside loops, where the
conditions are about variables that are no holes. -/
structure Posed (p : Problem) (limit : Int) (c : Stmt) (P Q I : Condition) : Prop where
  shows : p.sketch.Shows limit c
  isSorted : c.isSorted = true
  isFlat : c.isFlat = true
  spec : p.spec = ⟨P.eval, Q.eval, I.eval⟩
  pre : P.IsTruth (programVars c)
  post : Q.IsTruth (programVars c)
  invariant : I.IsTruth (programVars c)

section Verified

variable {p : Problem} {limit : Int} {c : Stmt} {P Q I : Condition} {f : Filling}

def filledOnce (limit : Int) (c : Stmt) (f : Filling) : Stmt :=
  ((c.unrolled limit).fill f).chained

theorem isTruth_filledOnce {X : Condition} (hX : X.IsTruth (programVars c))
    (hf : ∀ x n, f.lookup x = some n → isHole x = true) (ha : ∀ x ∈ c.assigned, f.lookup x = none) :
    X.IsTruth (filledOnce limit c f).vars := by
  refine hX.mono fun x hx => ?_
  obtain ⟨hx, hhole⟩ := List.mem_filter.mp hx
  have ha' : ∀ x ∈ (c.unrolled limit).assigned, f.lookup x = none :=
    fun x hx => ha x (Stmt.mem_assigned_unrolled.mp hx)
  rw [filledOnce, Stmt.vars_chained, Stmt.vars_fill ha']
  refine List.mem_filter.mpr ⟨Stmt.mem_vars_unrolled.mpr hx, ?_⟩
  cases hn : f.lookup x with
  | none => rfl
  | some n =>
    rw [hf x n hn] at hhole
    cases hhole

theorem Posed.isSorted_filledOnce (h : Posed p limit c P Q I) :
    (filledOnce limit c f).isSorted = true := by
  rw [filledOnce, Stmt.isSorted_chained, Stmt.isSorted_fill, Stmt.isSorted_unrolled, h.isSorted]

theorem Posed.isLoopFree_filledOnce (h : Posed p limit c P Q I) :
    (filledOnce limit c f).isLoopFree = true := by
  rw [filledOnce, Stmt.isLoopFree_chained, Stmt.isLoopFree_fill, Stmt.isLoopFree_unrolled h.isFlat]

/-- If the text with a filling can be read, no hole is assigned to, and what is read is the statement
with the filling. -/
theorem Posed.tree_of_parse (h : Posed p limit c P Q I)
    (hf : ∀ x n, f.lookup x = some n → isHole x = true) {u : Tree Label}
    (hu : parse (Holes.fill f p.sketch.unrolled) = .ok (some u)) :
    (∀ x ∈ c.assigned, f.lookup x = none) ∧ StmtTree (filledOnce limit c f) u := by
  obtain ⟨v, hv⟩ := h.shows.tree
  have hname : ∀ x ∈ (c.unrolled limit).vars, While.isName x = true :=
    fun x hx => h.shows.isName x (Stmt.mem_vars_unrolled.mp hx)
  rw [h.shows.unrolled] at hu
  obtain ⟨ha, hu⟩ := hv.of_parse_fill hname hf hu
  exact ⟨fun x hx => ha x (Stmt.mem_assigned_unrolled.mpr hx), hu⟩

theorem Posed.tried (h : Posed p limit c P Q I)
    (hf : ∀ x n, f.lookup x = some n → isHole x = true) {r : Option Settings}
    (hr : p.counterexample? f = .ok r) :
    (∀ x ∈ c.assigned, f.lookup x = none) ∧ ∃ u m?, StmtTree (filledOnce limit c f) u ∧
      Task.counterexample? p.solver ⟨u, P.eval, Q.eval, I.eval⟩ = .ok m? ∧
      r = m?.map fun m => m.filter fun (x, _) => !isHole x := by
  obtain ⟨t?, ht, hr⟩ := bind_eq_ok.mp hr
  obtain ⟨task, htask, hr⟩ := bind_eq_ok.mp hr
  obtain ⟨m?, hm, hr⟩ := bind_eq_ok.mp hr
  cases hr
  cases t? with
  | none => cases htask
  | some u =>
    cases htask
    obtain ⟨ha, hu⟩ := h.tree_of_parse hf ht
    rw [h.spec] at hm
    exact ⟨ha, u, m?, hu, hm, rfl⟩

theorem Posed.counterexample_eq (h : Posed p limit c P Q I)
    (hf : ∀ x n, f.lookup x = some n → isHole x = true) (ha : ∀ x ∈ c.assigned, f.lookup x = none)
    {u : Tree Label} (hu : parse ((c.unrolled limit).fill f).text = .ok (some u)) :
    StmtTree (filledOnce limit c f) u ∧ p.counterexample? f = (do
      return (← Task.counterexample? p.solver ⟨u, P.eval, Q.eval, I.eval⟩).map fun m =>
        m.filter fun (x, _) => !isHole x) := by
  have hname : ∀ x ∈ (c.unrolled limit).vars, While.isName x = true :=
    fun x hx => h.shows.isName x (Stmt.mem_vars_unrolled.mp hx)
  have hparse : parse (Holes.fill f p.sketch.unrolled) = .ok (some u) := by
    rw [h.shows.unrolled, Stmt.text_fill hname hf fun x hx => ha x (Stmt.mem_assigned_unrolled.mp hx)]
    exact hu
  refine ⟨(h.tree_of_parse hf hparse).2, ?_⟩
  rw [Problem.counterexample?, hparse, h.spec]
  rfl

/-- With a filling for which no counterexample is found, each run from a state that satisfies the
precondition ends within the bound in a state that satisfies the postcondition. -/
theorem Posed.runs_of_verified (h : Posed p limit c P Q I) (hsolver : p.solver.Sound)
    (hf : ∀ x n, f.lookup x = some n → isHole x = true) (hr : p.counterexample? f = .ok none) :
    (∀ x ∈ c.assigned, f.lookup x = none) ∧ ∀ s, P.Holds s →
      ∃ s', Run (fun _ => True) (max limit 1).toNat (c.fill f) s (.done s') ∧ Q.Holds s' := by
  obtain ⟨ha, u, m?, hu, hm, hnone⟩ := h.tried hf hr
  refine ⟨ha, fun s hs => ?_⟩
  rw [Option.map_eq_none_iff.mp hnone.symm] at hm
  have hw := verified_weakest hsolver hu h.isSorted_filledOnce (isTruth_filledOnce h.pre hf ha)
    (isTruth_filledOnce h.post hf ha) (isTruth_filledOnce h.invariant hf ha) hm hs
  have hloop : ((c.unrolled limit).fill f).isLoopFree = true := by
    rw [Stmt.isLoopFree_fill, Stmt.isLoopFree_unrolled h.isFlat]
  rw [filledOnce, Stmt.weakest_chained, Stmt.weakest_iff_run (n := ⊤) hloop] at hw
  obtain ⟨s', hrun, hq⟩ := hw
  have hrun := hrun.weaken fun _ _ => trivial
  rw [Stmt.fill_unrolled] at hrun
  exact ⟨s', run_unrolled_iff.mp hrun, hq⟩

end Verified

section Returned

variable {p : Problem}

theorem candidate_fills (hholes : ∀ x ∈ p.sketch.holes, isHole x = true) {s : State} {bounded : Bool}
    {f : Filling} (h : p.candidate? s bounded = .ok (some f)) : Fills f p.sketch.holes := by
  obtain ⟨_, -, h⟩ := bind_eq_ok.mp h
  obtain ⟨_, -, h⟩ := bind_eq_ok.mp h
  obtain ⟨m?, -, h⟩ := bind_eq_ok.mp h
  obtain ⟨m, -, rfl⟩ := Option.map_eq_some_iff.mp (Except.ok.inj h)
  exact fills_complete hholes m

/-- What a search returns is the program with the filling that has been tried last. -/
theorem runWithin_eq_ok (hholes : ∀ x ∈ p.sketch.holes, isHole x = true) {fuel : Nat} {retry : Bool}
    {s : State} (hs : Fills s.filling p.sketch.holes) {result : String}
    (h : p.runWithin fuel retry s = .ok result) :
    ∃ f, Fills f p.sketch.holes ∧ p.counterexample? f = .ok none ∧ result = p.filled f := by
  induction fuel generalizing retry s with
  | zero => cases h
  | succ fuel ih =>
    have hround := round p fuel retry s
    rw [h] at hround
    generalize hr : Except.ok result = r at hround
    cases hround with
    | found hnone =>
      cases hr
      exact ⟨s.filling, hs, hnone, rfl⟩
    | refuted => cases hr
    | stuck | stumped => cases hr
    | @widened _ _ s' htried _ =>
      have hs' : Fills s'.widen.filling p.sketch.holes := by
        cases htried with
        | again => exact hs
        | learned => exact hs
      exact ih hs' hr.symm
    | refilled _ hsome => exact ih (candidate_fills hholes hsome) hr.symm

end Returned

/-- A program that a search returns is the given one with numbers in its holes, and with these in
the tree each run from a state that satisfies the precondition ends: no loop makes more rounds than
it was unrolled for, all claims are met, and the postcondition is true at the end. -/
theorem synthesized_runs {solver : Solver} (hsolver : solver.Sound) {rounds : Nat} {session : Session}
    {limit : Int} {program result : String} {t : Tree Label}
    (ht : parse (nameAll program).1 = .ok (some t)) (hs : (Stmt.ofTree t).isSorted = true)
    (hflat : (Stmt.ofTree t).isFlat = true) {P Q I : Condition}
    (hP : P.IsTruth (programVars (Stmt.ofTree t))) (hQ : Q.IsTruth (programVars (Stmt.ofTree t)))
    (hI : I.IsTruth (programVars (Stmt.ofTree t)))
    (hr : synthesizeWithin rounds solver session ⟨P.eval, Q.eval, I.eval⟩ limit program =
      .ok result) :
    ∃ f, Fills f (nameAll program).2 ∧ result = Holes.fill f (nameAll program).1 ∧
      ∀ s, P.Holds s → ∃ s',
        Run (fun _ => True) (max limit 1).toNat (Stmt.ofTree (fillTree f t)) s (.done s') ∧
        (∀ n o, Run (fun _ => True) n (Stmt.ofTree (fillTree f t)) s o → o = .done s') ∧
        Q.Holds s' := by
  obtain ⟨sketch, hsketch, hrun⟩ := bind_eq_ok.mp hr
  obtain ⟨hholes, htext, t', u, ht', -, htree, -, hshows⟩ := Sketch.shows_of_prepare hsketch
  rw [htext, ht] at ht'
  cases ht'
  have hposed : Posed ⟨solver, ⟨P.eval, Q.eval, I.eval⟩, sketch⟩ limit (Stmt.ofTree t) P Q I :=
    ⟨hshows, hs, hflat, rfl, hP, hQ, hI⟩
  obtain ⟨f, hf, hnone, rfl⟩ := runWithin_eq_ok hshows.isHole (fills_zeros hshows.isHole) hrun
  obtain ⟨ha, hall⟩ := hposed.runs_of_verified hsolver hf.isHole hnone
  rw [← hholes, ← htext]
  refine ⟨f, hf, rfl, fun s hs => ?_⟩
  rw [(htree.fill ha).ofTree_eq]
  obtain ⟨s', hrun, hq⟩ := hall s hs
  exact ⟨s', hrun, fun n o ho => ho.deterministic hrun, hq⟩

def resetLoop : Stmt :=
  .loop (.operate .gt (.var "x") (.num 0)) (.assign "x" (.var "hole_0"))

def resetGoal : Condition :=
  .operate .le (.var "x") (.int 0)

def resetSpec : Specification :=
  ⟨Condition.eval (.bool true), resetGoal.eval, Condition.eval (.bool true)⟩

def skipSession : Session :=
  ⟨some (Tree.word "skip" []), [], .empty⟩

theorem nameAll_resetLoop :
    nameAll "while (x > 0) do (x := ??)" = (resetLoop.text, ["hole_0"]) := by
  decide

theorem posed_resetLoop : ∃ sketch t,
    (Sketch.prepare skipSession 1 "while (x > 0) do (x := ??)").result = .ok sketch ∧
      sketch.holes = ["hole_0"] ∧ parse resetLoop.text = .ok (some t) ∧ StmtTree resetLoop t ∧
      Posed ⟨Solver.ideal, resetSpec, sketch⟩ 1 resetLoop (.bool true) resetGoal (.bool true) := by
  obtain ⟨sketch, hsketch⟩ : ∃ sketch,
      (Sketch.prepare skipSession 1 "while (x > 0) do (x := ??)").result = .ok sketch := by
    have htree : ∀ {e : Expr} {t : Tree Label}, ExprTree e t →
        StmtTree (.loop (.operate .gt (.var "x") (.num 0)) (.assign "x" e)) _ :=
      fun he => .loop (.operate .gt (.var "x") (.num 0)) (.assign "x" he)
    have hlegible : ∀ {e : Expr}, e.Legible →
        (Stmt.loop (.operate .gt (.var "x") (.num 0)) (.assign "x" e)).Legible := fun he =>
      Stmt.legible_loop.mpr ⟨Expr.legible_operate.mpr
        ⟨Expr.legible_var.mpr (by decide), Expr.legible_num.mpr (by decide)⟩,
        Stmt.legible_assign.mpr ⟨by decide, he⟩⟩
    have hhole := hlegible OperandText.hole.legible_expr
    exact Sketch.exists_prepare (by simp [skipSession]) (htree .hole) (htree .hole)
      (htree (.var "hole_0")) rfl (by decide)
      ⟨hhole, hhole, hlegible (Expr.legible_var.mpr (by decide))⟩ rfl (by decide)
      nameAll_resetLoop (by decide) 1
  have hnames : ∀ x ∈ resetLoop.vars, isName x = true := by decide
  obtain ⟨hholes, hshows, t, ht, htree⟩ :=
    Sketch.prepare_text hsketch rfl hnames rfl (congrArg Prod.fst nameAll_resetLoop)
  refine ⟨sketch, t, hsketch, ?_, ht, htree, hshows, rfl, rfl, rfl, .bool true, ?_, .bool true⟩
  · rw [hholes, nameAll_resetLoop]
  · exact .compare rfl (.var (by decide)) (.int 0)

theorem synthesize_resetLoop : ∃ result,
    synthesizeWithin 1 Solver.ideal skipSession resetSpec 1 "while (x > 0) do (x := ??)" =
      .ok result := by
  obtain ⟨sketch, -, hsketch, hholes, -, -, hposed⟩ := posed_resetLoop
  have hf : ∀ x n, (zeros ["hole_0"]).lookup x = some n → isHole x = true :=
    (fills_zeros (by decide)).isHole
  have ha : ∀ x ∈ resetLoop.assigned, (zeros ["hole_0"]).lookup x = none := by decide
  have hzero : (Expr.num 0).Legible := Expr.legible_num.mpr (by decide)
  have htest : (Expr.operate .gt (.var "x") (.num 0)).Legible :=
    Expr.legible_operate.mpr ⟨Expr.legible_var.mpr (by decide), hzero⟩
  have hlegible : ((resetLoop.unrolled 1).fill (zeros ["hole_0"])).Legible :=
    Stmt.legible_seq.mpr ⟨Stmt.legible_step.mpr ⟨htest,
      Stmt.legible_assign.mpr ⟨by decide, hzero⟩, Stmt.legible_skip⟩, Stmt.legible_exit.mpr htest⟩
  obtain ⟨u, hu⟩ := hlegible.exists_parse rfl (by decide)
  obtain ⟨htree, htry⟩ := hposed.counterexample_eq hf ha hu
  obtain ⟨formula, hformula, -, hiff⟩ := Task.failure_iff htree rfl (by decide) (.inl rfl)
    (Stmt.eval_expresses (isTruth_filledOnce hposed.pre hf ha))
    (Stmt.eval_expresses (isTruth_filledOnce hposed.post hf ha))
    (Stmt.eval_expresses (isTruth_filledOnce hposed.invariant hf ha))
  have hnone : Solver.ideal.model? formula = none := by
    apply Solver.ideal_eq_none
    intro s hs
    obtain ⟨-, hw⟩ := (hiff s).mp hs
    have hstmt : filledOnce 1 resetLoop (zeros ["hole_0"]) =
        .seq (.step (.operate .gt (.var "x") (.num 0)) (.assign "x" (.num 0)) .skip)
          (.exit (.operate .gt (.var "x") (.num 0))) := rfl
    apply hw
    rw [hstmt]
    simp [Stmt.Weakest, resetGoal, Condition.Holds, Condition.value, Expr.Holds, Expr.value,
      Operator.Compares]
    omega
  have hfirst : Problem.counterexample? ⟨Solver.ideal, resetSpec, sketch⟩ (zeros ["hole_0"]) =
      .ok none := by
    rw [htry, Task.counterexample?, hformula]
    simp [bind, Except.bind, pure, Except.pure, hnone]
  refine ⟨Problem.filled ⟨Solver.ideal, resetSpec, sketch⟩ (zeros ["hole_0"]), ?_⟩
  rw [synthesizeWithin, hsketch]
  change Problem.runWithin _ 1 false (.initial sketch.holes) = _
  rw [hholes]
  simp [Problem.runWithin, State.initial, hfirst, bind, Except.bind, pure, Except.pure]

theorem synthesized_runs_resetLoop :
    ∃ result t, synthesizeWithin 1 Solver.ideal skipSession resetSpec 1
        "while (x > 0) do (x := ??)" = .ok result ∧
      parse resetLoop.text = .ok (some t) ∧
      ∃ f, Fills f ["hole_0"] ∧ result = Holes.fill f resetLoop.text ∧ ∀ s, ∃ s',
        Run (fun _ => True) 1 (Stmt.ofTree (fillTree f t)) s (.done s') ∧ s' "x" ≤ 0 := by
  obtain ⟨sketch, t, -, -, ht, htree, hposed⟩ := posed_resetLoop
  obtain ⟨result, hr⟩ := synthesize_resetLoop
  rw [← htree.ofTree_eq] at hposed
  have hruns := synthesized_runs Solver.ideal_exact.sound (by rw [nameAll_resetLoop]; exact ht)
    hposed.isSorted hposed.isFlat hposed.pre hposed.post hposed.invariant hr
  rw [nameAll_resetLoop] at hruns
  obtain ⟨f, hf, hresult, hall⟩ := hruns
  refine ⟨result, t, hr, ht, f, hf, hresult, fun s => ?_⟩
  obtain ⟨s', hrun, -, hq⟩ := hall s rfl
  exact ⟨s', hrun, hq⟩

end WhileSketch.Refinement
