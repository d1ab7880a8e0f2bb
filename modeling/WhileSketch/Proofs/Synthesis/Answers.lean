import Mathlib
import WhileSketch.Proofs.While.Liveness
import WhileSketch.Proofs.Synthesis.Candidates

/-! What a search is told by a solver. An input for which a filling fails is about the variables that
matter: those of the precondition and the live ones. A filling that is found has the values of the live
holes in a state in which the program succeeds. If there is such an input or such a state, and the text
can be read, one is found. -/

namespace WhileSketch

open While Holes

namespace While

section Live

variable {c : Stmt} {K L M : List String} {x : String}

theorem Stmt.mem_live_fill {f : Filling} (hf : ∀ y ∈ c.assigned, f.lookup y = none)
    (hK : ∀ y ∈ K, f.lookup y = none) (hL : ∀ y, y ∈ M ↔ y ∈ L ∧ f.lookup y = none) :
    x ∈ (c.fill f).live K M ↔ x ∈ c.live K L ∧ f.lookup x = none := by
  have hexpr : ∀ (e : Expr) (y : String), y ∈ (e.fill f).vars ↔ y ∈ e.vars ∧ f.lookup y = none := by
    intro e y
    rw [e.vars_fill, List.mem_filter, Option.isNone_iff_eq_none]
  have hinv : ∀ y, y ∈ K ↔ y ∈ K ∧ f.lookup y = none :=
    fun y => ⟨fun hy => ⟨hy, hK y hy⟩, And.left⟩
  induction c generalizing L M x with
  | skip => exact hL x
  | assign y e =>
    have hy := hf y List.mem_cons_self
    simp only [fill, live, mem_liveThrough, hL, hexpr, hy]
    tauto
  | seq a b iha ihb =>
    obtain ⟨hfa, hfb⟩ := List.forall_mem_append.mp hf
    exact iha hfa fun y => ihb hfb hL
  | ite e a b iha ihb =>
    obtain ⟨hfa, hfb⟩ := List.forall_mem_append.mp hf
    simp only [live, fill, List.mem_append, hexpr, iha hfa hL, ihb hfb hL, or_and_right]
  | step e a b iha ihb =>
    obtain ⟨hfa, hfb⟩ := List.forall_mem_append.mp hf
    simp only [live, fill, List.mem_append, hexpr, iha hfa hL, ihb hfb hL, or_and_right, ← hinv x]
  | loop e body ih => exact hinv x
  | assert e | exit e => simp only [live, fill, List.mem_append, hexpr, hL, or_and_right]
  | invalid fault => simp [live]

theorem Stmt.mem_live_preset {settings : Settings} (hx : x ∈ c.live K L)
    (hne : ∀ e ∈ settings, e.1 ≠ x) : x ∈ (c.preset settings).live K L := by
  induction settings with
  | nil => exact hx
  | cons e settings ih =>
    rw [List.forall_mem_cons] at hne
    exact mem_liveThrough.mpr (.inl ⟨ih hne.2, hne.1.symm⟩)

theorem Stmt.live_chained (c : Stmt) : c.chained.live K = c.live K := by
  have hfollowed : ∀ a b : Stmt, (a.followedBy b).live K = a.live K ∘ b.live K :=
    Stmt.followedBy_eq (fun _ _ => rfl) fun _ _ _ => rfl
  induction c with
  | seq a b iha ihb =>
    rw [chained, hfollowed, iha, ihb]
    rfl
  | ite e a b iha ihb | step e a b iha ihb =>
    funext L
    rw [chained, live, iha, ihb, live]
  | _ => rfl

end Live

section Formulas

variable {c : Stmt} {t : Tree Label} {pre post invariant : Assertion} {J K L : List String}
  {φ : Formula} {x : String}

theorem Task.uses_weakest (ht : StmtTree c t) (hs : c.isSorted = true)
    (hpost : post.Uses c.names L) (hinv : invariant.Uses c.names K) {names : List String}
    {a : Assertion} (ha : weakest ⟨t, pre, post, invariant⟩ = .ok (names, a)) :
    names = c.names ∧ a.Uses c.names (c.live K L) := by
  obtain ⟨xs, hxs, ha⟩ := bind_eq_ok.mp ha
  obtain ⟨b, hb, ha⟩ := bind_eq_ok.mp ha
  cases ha
  rw [ht.variableNames_eq] at hxs
  split_ifs at hxs
  cases hxs
  rw [ht.ofTree_eq] at hb
  exact ⟨rfl, wp_uses hs (fun y hy => Stmt.mem_names.mpr hy) hinv hpost hb⟩

/-- The formula for the failures of a program has its live variables and those of the
precondition. -/
theorem Task.mem_vars_of_failure (ht : StmtTree c t) (hs : c.isSorted = true)
    (hpre : pre.Uses c.names J) (hpost : post.Uses c.names L) (hinv : invariant.Uses c.names K)
    (hφ : failure ⟨t, pre, post, invariant⟩ = .ok φ) :
    x ∈ φ.vars ↔ (x ∈ J ∨ x ∈ c.live K L) ∧ x ∈ c.vars := by
  obtain ⟨⟨names, a⟩, ha, hφ⟩ := bind_eq_ok.mp hφ
  obtain ⟨rfl, huses⟩ := uses_weakest ht hs hpost hinv ha
  obtain ⟨v, hv, hφ⟩ := bind_eq_ok.mp hφ
  obtain ⟨w, hw, hφ⟩ := bind_eq_ok.mp hφ
  obtain ⟨i, hi, hφ⟩ := bind_eq_ok.mp hφ
  obtain ⟨n, hn, hφ⟩ := bind_eq_ok.mp hφ
  have hall := Env.symbolic_numeric c.names
  rw [(Value.toFormula_eq_ok hφ).1, Value.negate_eq_ok hn, Value.implies_eq_ok hi, hpre _ hall v hv,
    huses _ hall w hw, Env.occurs_symbolic, Env.occurs_symbolic, Stmt.mem_names, or_and_right]

theorem Task.mem_vars_of_success (ht : StmtTree c t) (hs : c.isSorted = true)
    (hpost : post.Uses c.names L) (hinv : invariant.Uses c.names K)
    (hφ : success ⟨t, pre, post, invariant⟩ = .ok φ) :
    ∃ v, pre (Env.symbolic c.names) = .ok v ∧
      ∀ x, x ∈ φ.vars ↔ x ∈ v.vars ∨ (x ∈ c.live K L ∧ x ∈ c.vars) := by
  obtain ⟨⟨names, a⟩, ha, hφ⟩ := bind_eq_ok.mp hφ
  obtain ⟨rfl, huses⟩ := uses_weakest ht hs hpost hinv ha
  obtain ⟨v, hv, hφ⟩ := bind_eq_ok.mp hφ
  obtain ⟨w, hw, hφ⟩ := bind_eq_ok.mp hφ
  obtain ⟨both, hboth, hφ⟩ := bind_eq_ok.mp hφ
  refine ⟨v, hv, fun x => ?_⟩
  rw [(Value.toFormula_eq_ok hφ).1, (Value.conj_eq_ok hboth).2.1]
  simp only [List.exists_mem_cons_iff, List.not_mem_nil, false_and, exists_false, or_false,
    huses _ (Env.symbolic_numeric _) w hw, Env.occurs_symbolic, Stmt.mem_names]

end Formulas

end While

namespace Refinement

section Told

variable {p : Problem} {limit : Int} {c : Stmt} {P Q I : Condition} {g f : Filling} {m : Settings}
  {x : String}

/-- The variables that are live before a program with its loops unrolled. -/
def liveOnce (limit : Int) (c : Stmt) (Q I : Condition) : List String :=
  (c.unrolled limit).live I.vars Q.vars

theorem Posed.mem_vars_of_liveOnce (h : Posed p limit c P Q I) (hx : x ∈ liveOnce limit c Q I) :
    x ∈ c.vars := by
  have hprogram : ∀ y ∈ programVars c, y ∈ c.vars := fun y hy => (List.mem_filter.mp hy).1
  rcases Stmt.mem_of_live hx with hx | hx | hx
  · exact Stmt.mem_vars_unrolled.mp hx
  · exact hprogram x (h.invariant.mem_names x hx)
  · exact hprogram x (h.post.mem_names x hx)

theorem mem_inputs {model : Model} :
    x ∈ (model.filter fun (y, _) => !isHole y).map Prod.fst ↔
      x ∈ model.map Prod.fst ∧ isHole x = false := by
  simp

/-- An input for which a filling fails has the variables of the precondition and the live ones that
are no holes. -/
theorem Posed.learned_live (h : Posed p limit c P Q I) (hsolver : p.solver.Faithful)
    (hg : Fills g p.sketch.holes) (hm : p.counterexample? g = .ok (some m)) :
    (m.map Prod.fst).Nodup ∧ ∀ x, x ∈ m.map Prod.fst ↔
      (x ∈ P.vars ∨ x ∈ liveOnce limit c Q I) ∧ isHole x = false := by
  obtain ⟨ha, u, m?, hu, hm?, heq⟩ := h.tried hg.isHole hm
  obtain ⟨model, rfl, rfl⟩ := Option.map_eq_some_iff.mp heq.symm
  obtain ⟨φ, hφ, hmodel⟩ := bind_eq_ok.mp hm?
  have hmodel : p.solver.model? φ = some model := Except.ok.inj hmodel
  refine ⟨(hsolver.once hmodel).sublist (List.filter_sublist.map _), fun x => ?_⟩
  have ha' : ∀ y ∈ (c.unrolled limit).assigned, g.lookup y = none :=
    fun y hy => ha y (Stmt.mem_assigned_unrolled.mp hy)
  have hfree : ∀ {X : Condition}, X.IsTruth (programVars c) → ∀ y ∈ X.vars, g.lookup y = none := by
    intro X hX y hy
    exact hg.lookup_eq_none (by simpa using (List.mem_filter.mp (hX.mem_names y hy)).2)
  have hlive : x ∈ (filledOnce limit c g).live I.vars Q.vars ↔
      x ∈ liveOnce limit c Q I ∧ g.lookup x = none := by
    rw [filledOnce, Stmt.live_chained]
    exact Stmt.mem_live_fill ha' (hfree h.invariant)
      fun y => ⟨fun hy => ⟨hy, hfree h.post y hy⟩, And.left⟩
  have hmem : x ∈ (filledOnce limit c g).vars ↔ x ∈ c.vars ∧ g.lookup x = none := by
    rw [filledOnce, Stmt.vars_chained, Stmt.vars_fill ha', List.mem_filter, Stmt.mem_vars_unrolled,
      Option.isNone_iff_eq_none]
  have huses : ∀ {X : Condition}, X.IsTruth (programVars c) →
      Assertion.Uses (filledOnce limit c g).names X.eval X.vars := by
    intro X hX
    exact ((isTruth_filledOnce hX hg.isHole ha).mono fun y hy => Stmt.mem_names.mpr hy).uses
  rw [mem_inputs, hsolver.assigns hmodel, Task.mem_vars_of_failure hu h.isSorted_filledOnce
    (huses h.pre) (huses h.post) (huses h.invariant) hφ, hlive, hmem]
  constructor
  · rintro ⟨⟨hx | hx, -⟩, hhole⟩
    · exact ⟨.inl hx, hhole⟩
    · exact ⟨.inr hx.1, hhole⟩
  · rintro ⟨hx, hhole⟩
    have hnone := hg.lookup_eq_none hhole
    rcases hx with hx | hx
    · exact ⟨⟨.inl hx, (List.mem_filter.mp (h.pre.mem_names x hx)).1, hnone⟩, hhole⟩
    · exact ⟨⟨.inr ⟨hx, hnone⟩, h.mem_vars_of_liveOnce hx, hnone⟩, hhole⟩

/-- The formula for a new filling is about the variables of the program, and among them the live
holes. -/
theorem Posed.vars_asked (h : Posed p limit c P Q I) {s : State}
    (hhole : ∀ e ∈ s.counterexample, isHole e.1 = false) {u : Tree Label}
    (hu : StmtTree (presetOnce limit c s.counterexample) u) {bounded : Bool} {φ : Formula}
    (hφ : Task.success ⟨u, p.query s bounded, p.spec.post, p.spec.invariant⟩ = .ok φ) :
    (∀ x ∈ φ.vars, x ∈ (presetOnce limit c s.counterexample).vars) ∧
      ∀ x ∈ liveOnce limit c Q I, isHole x = true → x ∈ φ.vars := by
  have hprogram : ∀ y ∈ programVars c, y ∈ (presetOnce limit c s.counterexample).names :=
    fun y hy => Stmt.mem_names.mpr (mem_vars_presetOnce (List.mem_filter.mp hy).1)
  rw [h.spec] at hφ
  obtain ⟨v, hv, hvars⟩ := Task.mem_vars_of_success hu h.isSorted_presetOnce
    (h.post.mono hprogram).uses (h.invariant.mono hprogram).uses hφ
  have htruth := ((h.tells_query hprogram s bounded).asserts hv).isTruth
  constructor
  · intro x hx
    rcases (hvars x).mp hx with hx | ⟨-, hx⟩
    · exact Stmt.mem_names.mp (htruth.mem_names x hx)
    · exact hx
  · intro x hx hxhole
    refine (hvars x).mpr (.inr ⟨?_, mem_vars_presetOnce (h.mem_vars_of_liveOnce hx)⟩)
    rw [presetOnce, Stmt.live_chained]
    refine Stmt.mem_live_preset hx ?_
    rintro e he rfl
    rw [hhole e he] at hxhole
    cases hxhole

/-- What is known of a filling that is found, and of a state in which it is: the state satisfies what is
asked, the program succeeds from it once the last input is assigned, and the filling has the values of
the live holes in it. -/
structure Found (p : Problem) (limit : Int) (c : Stmt) (P Q I : Condition) (s : State) (bounded : Bool)
    (f : Filling) (τ : WhileSketch.State) : Prop where
  asked : Asked p s bounded P τ
  succeeds : (c.unrolled limit).Weakest c.names I.Holds Q.Holds (assignAll s.counterexample τ)
  lookup : ∀ x ∈ liveOnce limit c Q I, isHole x = true → f.lookup x = some (τ x)
  mem : ∀ e ∈ f, e.1 ∈ p.sketch.holes ∨ e.1 ∈ (presetOnce limit c s.counterexample).vars

theorem Posed.found (h : Posed p limit c P Q I) (hsolver : p.solver.Faithful) {s : State}
    (hname : ∀ e ∈ s.counterexample, While.isName e.1 = true)
    (hhole : ∀ e ∈ s.counterexample, isHole e.1 = false) {bounded : Bool}
    (hf : p.candidate? s bounded = .ok (some f)) : ∃ τ, Found p limit c P Q I s bounded f τ := by
  obtain ⟨φ, model, hφ, hmodel, rfl⟩ := candidate_eq_some hf
  obtain ⟨t?, ht, hφ⟩ := bind_eq_ok.mp hφ
  cases t? with
  | none => cases hφ
  | some u =>
    have hu := h.tree_of_assignments hname ht
    have hloop : (c.unrolled limit).isLoopFree = true := Stmt.isLoopFree_unrolled h.isFlat
    obtain ⟨hbelow, habove⟩ := h.vars_asked hhole hu hφ
    obtain ⟨hasked, hweakest⟩ := (h.asked_iff hu hφ model.value).mp (hsolver.satisfies hmodel)
    rw [presetOnce, Stmt.weakest_chained, Stmt.weakest_preset,
      Stmt.weakest_iff_run (n := ⊤) hloop] at hweakest
    refine ⟨model.value, hasked, (Stmt.weakest_iff_run (n := ⊤) hloop).mpr hweakest, ?_, ?_⟩
    · intro x hx hxhole
      obtain ⟨e, he, rfl⟩ := List.mem_map.mp ((hsolver.assigns hmodel x).mpr (habove x hx hxhole))
      rw [Holes.complete, List.lookup_append, lookup_filter_isHole hxhole,
        lookup_of_mem (hsolver.once hmodel) he, Option.some_or, value_of_mem (hsolver.once hmodel) he]
    · intro e he
      rcases List.mem_append.mp he with he | he
      · have hmem := List.mem_map_of_mem (f := Prod.fst) (List.mem_filter.mp he).1
        exact .inr (hbelow _ ((hsolver.assigns hmodel _).mp hmem))
      · obtain ⟨y, hy, rfl⟩ := List.mem_map.mp he
        exact .inl (List.mem_filter.mp hy).1

end Told

section Answers

variable {p : Problem} {limit : Int} {c : Stmt} {P Q I : Condition} {f : Filling}

/-- A filling with which the program fails is found out, if the text with it can be read. -/
theorem Posed.exists_counterexample (h : Posed p limit c P Q I) (hsolver : p.solver.Sound)
    (hf : ∀ x n, f.lookup x = some n → isHole x = true) (ha : ∀ x ∈ c.assigned, f.lookup x = none)
    (hid : "id" ∉ c.vars) (hlegible : ((c.unrolled limit).fill f).Legible) {σ : WhileSketch.State}
    (hpre : P.Holds σ) (hagree : f.Agrees σ)
    (hfails : ¬ (c.unrolled limit).Weakest c.names I.Holds Q.Holds σ) :
    ∃ m, p.counterexample? f = .ok (some m) := by
  have ha' : ∀ x ∈ (c.unrolled limit).assigned, f.lookup x = none :=
    fun x hx => ha x (Stmt.mem_assigned_unrolled.mp hx)
  have hsorted : (c.unrolled limit).isSorted = true := by rw [Stmt.isSorted_unrolled, h.isSorted]
  have hloop : (c.unrolled limit).isLoopFree = true := Stmt.isLoopFree_unrolled h.isFlat
  have hvars : ∀ x ∈ ((c.unrolled limit).fill f).vars, x ∈ c.vars := by
    intro x hx
    rw [Stmt.vars_fill ha', List.mem_filter] at hx
    exact Stmt.mem_vars_unrolled.mp hx.1
  obtain ⟨u, hu⟩ := hlegible.exists_parse (by rw [Stmt.isSorted_fill, hsorted])
    fun x hx => h.shows.isName x (hvars x hx)
  obtain ⟨htree, htry⟩ := h.counterexample_eq hf ha hu
  have hid' : "id" ∉ (filledOnce limit c f).vars := by
    rw [filledOnce, Stmt.vars_chained]
    exact fun hmem => hid (hvars _ hmem)
  obtain ⟨φ, hφ, -, hiff⟩ := Task.failure_iff htree h.isSorted_filledOnce hid'
    (.inl h.isLoopFree_filledOnce) (Stmt.eval_expresses (isTruth_filledOnce h.pre hf ha))
    (Stmt.eval_expresses (isTruth_filledOnce h.post hf ha))
    (Stmt.eval_expresses (isTruth_filledOnce h.invariant hf ha))
  have hholds : φ.Holds σ := by
    rw [hiff, filledOnce, Stmt.weakest_chained,
      Stmt.weakest_fill hsorted hloop ha' (fun _ _ => Iff.rfl) hagree]
    exact ⟨hpre, hfails⟩
  cases hmodel : p.solver.model? φ with
  | none => exact absurd hholds (hsolver φ hmodel σ)
  | some m =>
    rw [htry, Task.counterexample?, hφ]
    simp only [bind, Except.bind, pure, Except.pure, hmodel, Option.map_some]
    exact ⟨_, rfl⟩

/-- If there is a state as it is asked for, a new filling is found, if the text with the last input can
be read. -/
theorem Posed.exists_candidate (h : Posed p limit c P Q I) (hsolver : p.solver.Sound) {s : State}
    (hname : ∀ e ∈ s.counterexample, While.isName e.1 = true)
    (hid : "id" ∉ (presetOnce limit c s.counterexample).vars)
    (hlegible : ((c.unrolled limit).preset s.counterexample).Legible) {bounded : Bool} {v : Value}
    (hv : p.query s bounded (Env.symbolic (presetOnce limit c s.counterexample).names) = .ok v)
    {σ : WhileSketch.State} (hasked : Asked p s bounded P σ)
    (hmatch : ∀ e ∈ s.counterexample, σ e.1 = e.2)
    (hsucceeds : (c.unrolled limit).Weakest c.names I.Holds Q.Holds σ) :
    ∃ f, p.candidate? s bounded = .ok (some f) := by
  have hvars : ∀ x ∈ programVars c, x ∈ (presetOnce limit c s.counterexample).vars :=
    fun x hx => mem_vars_presetOnce (List.mem_filter.mp hx).1
  obtain ⟨u, hu⟩ := hlegible.exists_parse
    (by rw [Stmt.isSorted_preset, Stmt.isSorted_unrolled, h.isSorted]) (by
      intro x hx
      rcases Stmt.mem_vars_preset.mp hx with ⟨e, he, rfl⟩ | hx
      · exact hname e he
      · exact h.shows.isName x (Stmt.mem_vars_unrolled.mp hx))
  rw [Stmt.text_preset, ← h.shows.unrolled] at hu
  obtain ⟨φ, hφ, -⟩ := Task.success_iff (h.tree_of_assignments hname hu) h.isSorted_presetOnce hid
    (.inl h.isLoopFree_presetOnce) hv
    ((h.tells_query (fun x hx => Stmt.mem_names.mpr (hvars x hx)) s bounded).asserts hv)
    (Stmt.eval_expresses (h.post.mono hvars)) (Stmt.eval_expresses (h.invariant.mono hvars))
  have hanswer : p.asked s bounded = .ok φ := by
    rw [Problem.asked, hu, h.spec]
    exact hφ
  cases hr : p.solver.model? φ with
  | some m => exact ⟨_, by rw [candidate_eq, hanswer]; simp only [Except.map, hr]; rfl⟩
  | none =>
    have hnone : p.candidate? s bounded = .ok none := by
      rw [candidate_eq, hanswer]
      simp only [Except.map, hr, Option.map_none]
    exact absurd hsucceeds (h.of_candidate_none hsolver hname hnone hasked hmatch)

end Answers

section Forgetting

def plusHole : Stmt :=
  .assign "y" (.operate .add (.var "x") (.var "hole_0"))

def oneOrTwo : Condition :=
  .all [.operate .ge (.var "x") (.int 1), .operate .le (.var "x") (.int 2)]

def twoOrDouble : Condition :=
  .any [.operate .eq (.var "y") (.int 2),
    .all [.operate .eq (.var "x") (.int 2), .operate .eq (.var "y") (.int 4)]]

/-- The problem to make the sum two, or twice the first summand. -/
noncomputable def plusProblem (sketch : Sketch) : Problem :=
  ⟨Solver.ideal, ⟨oneOrTwo.eval, twoOrDouble.eval, Condition.eval (.bool true)⟩, sketch⟩

theorem nameAll_plusHole : nameAll "y := (x + ??)" = (plusHole.text, ["hole_0"]) := by
  decide

theorem posed_plusHole : ∃ sketch t,
    (Sketch.prepare skipSession 10 "y := (x + ??)").result = .ok sketch ∧
      sketch.holes = ["hole_0"] ∧ parse plusHole.text = .ok (some t) ∧ StmtTree plusHole t ∧
      Posed (plusProblem sketch) 10 plusHole oneOrTwo twoOrDouble (.bool true) := by
  obtain ⟨sketch, hsketch⟩ : ∃ sketch,
      (Sketch.prepare skipSession 10 "y := (x + ??)").result = .ok sketch := by
    have htree : ∀ {e : Expr} {t : Tree Label}, ExprTree e t →
        StmtTree (.assign "y" (.operate .add (.var "x") e)) _ :=
      fun he => .assign "y" (.operate .add (.var "x") he)
    have hlegible : ∀ {e : Expr}, e.Legible →
        (Stmt.assign "y" (.operate .add (.var "x") e)).Legible := fun he =>
      Stmt.legible_assign.mpr
        ⟨by decide, Expr.legible_operate.mpr ⟨Expr.legible_var.mpr (by decide), he⟩⟩
    have hhole := hlegible OperandText.hole.legible_expr
    exact Sketch.exists_prepare (by simp [skipSession]) (htree .hole) (htree .hole)
      (htree (.var "hole_0")) rfl (by decide)
      ⟨hhole, hhole, hlegible (Expr.legible_var.mpr (by decide))⟩ rfl (by decide)
      nameAll_plusHole (by decide) 10
  have hnames : ∀ x ∈ plusHole.vars, isName x = true := by decide
  obtain ⟨hholes, hshows, t, ht, htree⟩ :=
    Sketch.prepare_text hsketch rfl hnames rfl (congrArg Prod.fst nameAll_plusHole)
  have hx : Condition.IsNumber (programVars plusHole) (.var "x") := .var (by decide)
  have hy : Condition.IsNumber (programVars plusHole) (.var "y") := .var (by decide)
  refine ⟨sketch, t, hsketch, ?_, ht, htree, hshows, rfl, rfl, rfl, ?_, ?_, .bool true⟩
  · rw [hholes, nameAll_plusHole]
  · refine .all ?_
    simpa using ⟨.compare rfl hx (.int 1), .compare rfl hx (.int 2)⟩
  · refine .any ?_
    simpa using ⟨.compare rfl hy (.int 2), .all (by
      simpa using ⟨.compare rfl hx (.int 2), .compare rfl hy (.int 4)⟩)⟩

theorem holds_oneOrTwo {σ : WhileSketch.State} : oneOrTwo.Holds σ ↔ 1 ≤ σ "x" ∧ σ "x" ≤ 2 := by
  simp [oneOrTwo, Condition.Holds, Condition.HoldAll, Condition.value, Operator.Compares]

def Suits (x hole : Int) : Prop :=
  x + hole = 2 ∨ (x = 2 ∧ x + hole = 4)

theorem weakest_plusHole {names : List String} {inv : WhileSketch.State → Prop}
    {σ : WhileSketch.State} :
    (plusHole.unrolled 10).Weakest names inv twoOrDouble.Holds σ ↔ Suits (σ "x") (σ "hole_0") := by
  simp [plusHole, twoOrDouble, Suits, Stmt.unrolled, Stmt.Weakest, Condition.Holds,
    Condition.HoldAll, Condition.HoldAny, Condition.value, Operator.Compares, Expr.value,
    Operator.compute]

theorem liveOnce_plusHole :
    liveOnce 10 plusHole twoOrDouble (.bool true) = ["x", "x", "hole_0"] := by
  decide

theorem eq_singleton {m : Settings} {x : String} {n : Int} (hnodup : (m.map Prod.fst).Nodup)
    (hkeys : ∀ y, y ∈ m.map Prod.fst ↔ y = x) (hvalue : ∀ e ∈ m, e.2 = n) : m = [(x, n)] := by
  have hkey : m.map Prod.fst = [x] := by
    apply List.perm_singleton.mp
    rw [List.perm_ext_iff_of_nodup hnodup (List.nodup_singleton x)]
    intro y
    rw [hkeys, List.mem_singleton]
  obtain ⟨e, rfl, hx⟩ := List.map_eq_singleton_iff.mp hkey
  rw [← hx, ← hvalue e List.mem_cons_self]

variable {sketch : Sketch}
  (hposed : Posed (plusProblem sketch) 10 plusHole oneOrTwo twoOrDouble (.bool true))
  (hholes : sketch.holes = ["hole_0"])
include hposed hholes

theorem counterexample_plusHole {n a : Int} (hn : Text.readInt (toString n) = .ok n)
    (ha : ∀ x, (1 ≤ x ∧ x ≤ 2) ∧ ¬ Suits x n ↔ x = a) :
    (plusProblem sketch).counterexample? [("hole_0", n)] = .ok (some [("x", a)]) := by
  have hexact := Solver.ideal_exact
  have hfills : Fills [("hole_0", n)] (plusProblem sketch).sketch.holes := by
    rw [plusProblem, hholes]
    exact ⟨fun x k hx => by
      obtain ⟨rfl, -⟩ := List.mem_singleton.mp (mem_of_lookup hx)
      rfl, fun x hx => by
      rw [List.mem_singleton.mp hx]
      exact ⟨n, rfl⟩⟩
  have hlegible : ((plusHole.unrolled 10).fill [("hole_0", n)]).Legible :=
    Stmt.legible_assign.mpr ⟨by decide,
      Expr.legible_operate.mpr ⟨Expr.legible_var.mpr (by decide), Expr.legible_num.mpr hn⟩⟩
  obtain ⟨hone, hnot⟩ := (ha a).mpr rfl
  obtain ⟨m, hm⟩ : ∃ m, (plusProblem sketch).counterexample? [("hole_0", n)] = .ok (some m) := by
    refine hposed.exists_counterexample hexact.sound (σ := fun x => if x = "x" then a else n)
      hfills.isHole ?_ (by decide) hlegible ?_ ?_ ?_
    · intro x hx
      rw [List.mem_singleton.mp hx]
      rfl
    · exact holds_oneOrTwo.mpr hone
    · intro x k hx
      obtain ⟨rfl, rfl⟩ := List.mem_singleton.mp (mem_of_lookup hx)
      rfl
    · exact fun hw => hnot (weakest_plusHole.mp hw)
  obtain ⟨⟨σ, hpre, hagree, hmatch, hfails⟩, -, -⟩ := hposed.failed hexact.faithful hfills hm
  obtain ⟨hnodup, hkeys⟩ := hposed.learned_live hexact.faithful hfills hm
  have honly : ∀ y ∈ oneOrTwo.vars ++ ["x", "x", "hole_0"], isHole y = false → y = "x" := by
    decide
  have hx : ∀ y, y ∈ m.map Prod.fst ↔ y = "x" := by
    intro y
    rw [hkeys, liveOnce_plusHole, ← List.mem_append]
    constructor
    · rintro ⟨hy, hhole⟩
      exact honly y hy hhole
    · intro hy
      rw [hy]
      decide
  have hσ : σ "x" = a := by
    rw [weakest_plusHole, hagree "hole_0" n rfl] at hfails
    exact (ha _).mp ⟨holds_oneOrTwo.mp hpre, hfails⟩
  rw [hm, eq_singleton hnodup hx]
  intro e he
  rw [← hmatch e he, (hx e.1).mp (List.mem_map_of_mem he), hσ]

theorem candidate_plusHole {s : State} (ns : List Int)
    (hs : s.excluded = ns.map fun n => [("hole_0", n)]) {a : Int} (hlast : s.counterexample = [("x", a)])
    (hread : Text.readInt (toString a) = .ok a) (ha : 1 ≤ a ∧ a ≤ 2) {v : Value}
    (hv : (plusProblem sketch).query s true (Env.symbolic ["hole_0", "x", "y"]) = .ok v) {n : Int}
    (hn : ∀ k, k ∉ ns ∧ (s.low ≤ k ∧ k ≤ s.high) ∧ Suits a k ↔ k = n) :
    (plusProblem sketch).candidate? s true = .ok (some [("hole_0", n)]) := by
  have hexact := Solver.ideal_exact
  obtain ⟨hnew, hbounds, hsuits⟩ := (hn n).mpr rfl
  have hvars : (presetOnce 10 plusHole s.counterexample).vars = ["x", "y", "x", "hole_0"] := by
    rw [hlast]
    rfl
  have hnames : (presetOnce 10 plusHole s.counterexample).names = ["hole_0", "x", "y"] := by
    rw [Stmt.names, hvars]
    decide
  have hasked : ∀ τ, Asked (plusProblem sketch) s true oneOrTwo τ ↔
      (1 ≤ τ "x" ∧ τ "x" ≤ 2) ∧ τ "hole_0" ∉ ns ∧ s.low ≤ τ "hole_0" ∧ τ "hole_0" ≤ s.high := by
    intro τ
    have hlist : (∀ f ∈ s.excluded, ¬ ∀ e ∈ f, τ e.1 = e.2) ↔ τ "hole_0" ∉ ns := by
      simp only [hs, List.forall_mem_map, List.forall_mem_singleton]
      exact ⟨fun h hmem => h _ hmem rfl, fun h k hk heq => h (heq ▸ hk)⟩
    rw [Asked, hlist, holds_oneOrTwo]
    simp [plusProblem, hholes]
  have hname : ∀ e ∈ s.counterexample, While.isName e.1 = true ∧ isHole e.1 = false := by
    rw [hlast, List.forall_mem_singleton]
    exact ⟨show isName "x" = true by decide, show isHole "x" = false by decide⟩
  obtain ⟨f, hf⟩ : ∃ f, (plusProblem sketch).candidate? s true = .ok (some f) := by
    refine hposed.exists_candidate hexact.sound (σ := fun x => if x = "x" then a else n) (v := v)
      (fun e he => (hname e he).1) ?_ ?_ ?_ ?_ ?_ ?_
    · rw [hvars]
      decide
    · rw [hlast]
      exact Stmt.legible_seq.mpr ⟨Stmt.legible_assign.mpr ⟨by decide, Expr.legible_num.mpr hread⟩,
        Stmt.legible_assign.mpr ⟨by decide, Expr.legible_operate.mpr
          ⟨Expr.legible_var.mpr (by decide), Expr.legible_var.mpr (by decide)⟩⟩⟩
    · rw [hnames]
      exact hv
    · exact (hasked _).mpr ⟨ha, hnew, hbounds⟩
    · rw [hlast, List.forall_mem_singleton]
      rfl
    · exact weakest_plusHole.mpr hsuits
  obtain ⟨τ, hfound⟩ := hposed.found hexact.faithful (fun e he => (hname e he).1)
    (fun e he => (hname e he).2) hf
  have hassigns := candidate_assigns hposed.shows.isHole (by rw [plusProblem, hholes]; decide)
    hexact.faithful.honest hf
  have hτ : τ "hole_0" = n := by
    obtain ⟨-, hleft, hwithin⟩ := (hasked τ).mp hfound.asked
    have hlater := weakest_plusHole.mp hfound.succeeds
    rw [hlast] at hlater
    exact (hn _).mp ⟨hleft, hwithin, hlater⟩
  have hlookup : f.lookup "hole_0" = some n := by
    rw [hfound.lookup "hole_0" (by rw [liveOnce_plusHole]; decide) rfl, hτ]
  have honly : ∀ y ∈ ["hole_0"] ++ ["x", "y", "x", "hole_0"], isHole y = true → y = "hole_0" := by
    decide
  have hkeys : ∀ y, y ∈ f.map Prod.fst ↔ y = "hole_0" := by
    intro y
    constructor
    · intro hy
      obtain ⟨e, he, rfl⟩ := List.mem_map.mp hy
      have hhole := hassigns.isHole e.1 e.2 (lookup_of_mem hassigns.nodup he)
      have hmem := hfound.mem e he
      rw [hvars, plusProblem, hholes, ← List.mem_append] at hmem
      exact honly _ hmem hhole
    · intro hy
      rw [hy]
      exact List.mem_map_of_mem (mem_of_lookup hlookup)
  rw [hf, eq_singleton hassigns.nodup hkeys]
  intro e he
  have hvalue := lookup_of_mem hassigns.nodup he
  rw [(hkeys e.1).mp (List.mem_map_of_mem he), hlookup] at hvalue
  exact (Option.some.inj hvalue).symm

end Forgetting

end Refinement
end WhileSketch
