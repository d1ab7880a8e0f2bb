import Mathlib
import WhileSketch.Proofs.Failure
import WhileSketch.Proofs.While.Programs

/-! What the answers of the verifier say about runs. -/

namespace WhileSketch

def Assertion.Fails (a : Assertion) : Prop :=
  ∀ env v, a env ≠ .ok v

namespace While

theorem branch_fails {c : Expr} {yes no : Assertion} (h : yes.Fails ∨ no.Fails) :
    (branch c yes no).Fails := by
  intro env v hv
  obtain ⟨_, -, hv⟩ := bind_eq_ok.mp hv
  obtain ⟨y, hy, hv⟩ := bind_eq_ok.mp hv
  obtain ⟨_, -, hv⟩ := bind_eq_ok.mp hv
  obtain ⟨_, -, hv⟩ := bind_eq_ok.mp hv
  obtain ⟨_, -, hv⟩ := bind_eq_ok.mp hv
  obtain ⟨n, hn, -⟩ := bind_eq_ok.mp hv
  exact h.elim (fun h => h env y hy) fun h => h env n hn

theorem delayed_fails {w : Except Fault Assertion} (h : ∀ a, w = .ok a → a.Fails) :
    Assertion.Fails (fun env => do (← w) env) := by
  intro env v hv
  obtain ⟨a, ha, hv⟩ := bind_eq_ok.mp hv
  exact h a ha env v hv

theorem guarded_fails {guard : Assertion} {a : Assertion} (h : a.Fails) :
    Assertion.Fails (fun env => do
      let v ← guard env
      Value.conj [v, ← a env]) := by
  intro env v hv
  obtain ⟨_, -, hv⟩ := bind_eq_ok.mp hv
  obtain ⟨w, hw, -⟩ := bind_eq_ok.mp hv
  exact h env w hw

/-- Where there are no variables, nothing can be said about all their values, so there is no
weakest precondition of a loop. -/
theorem wp_fails {c : Stmt} {invariant post a : Assertion}
    (h : c.isLoopFree = false ∨ post.Fails) (ha : wp [] invariant c post = .ok a) : a.Fails := by
  induction c generalizing post a with
  | skip =>
    cases ha
    exact h.resolve_left (by simp [Stmt.isLoopFree])
  | assign x e =>
    cases ha
    intro env v hv
    obtain ⟨_, -, hv⟩ := bind_eq_ok.mp hv
    exact h.resolve_left (by simp [Stmt.isLoopFree]) _ _ hv
  | seq a b iha ihb =>
    obtain ⟨_, hb, ha⟩ := bind_eq_ok.mp ha
    simp only [Stmt.isLoopFree, Bool.and_eq_false_iff] at h
    obtain (h | h) | h := h
    · exact iha (.inl h) ha
    · exact iha (.inr (ihb (.inl h) hb)) ha
    · exact iha (.inr (ihb (.inr h) hb)) ha
  | ite c a b iha ihb =>
    cases ha
    simp only [Stmt.isLoopFree, Bool.and_eq_false_iff] at h
    obtain (h | h) | h := h
    · exact branch_fails (.inl (delayed_fails fun _ => iha (.inl h)))
    · exact branch_fails (.inr (delayed_fails fun _ => ihb (.inl h)))
    · exact branch_fails (.inl (delayed_fails fun _ => iha (.inr h)))
  | step c a b iha ihb =>
    cases ha
    simp only [Stmt.isLoopFree, Bool.and_eq_false_iff] at h
    apply guarded_fails
    obtain (h | h) | h := h
    · exact branch_fails (.inl (delayed_fails fun _ => iha (.inl h)))
    · exact branch_fails (.inr (delayed_fails fun _ => ihb (.inl h)))
    · exact branch_fails (.inl (delayed_fails fun _ => iha (.inr h)))
  | loop c body ih =>
    cases ha
    intro env v hv
    iterate 14 obtain ⟨_, -, hv⟩ := bind_eq_ok.mp hv
    obtain ⟨_, hall, -⟩ := bind_eq_ok.mp hv
    cases hall
  | assert c =>
    cases ha
    exact guarded_fails (h.resolve_left (by simp [Stmt.isLoopFree]))
  | exit c =>
    cases ha
    intro env v hv
    obtain ⟨_, -, hv⟩ := bind_eq_ok.mp hv
    obtain ⟨_, -, hv⟩ := bind_eq_ok.mp hv
    obtain ⟨w, hw, -⟩ := bind_eq_ok.mp hv
    exact h.resolve_left (by simp [Stmt.isLoopFree]) env w hw
  | invalid fault => cases ha

namespace Task

variable {c : Stmt} {t : Tree Label} {pre post invariant : Assertion} {p q inv : State → Prop}

theorem weakest_expresses (pre : Assertion) (ht : StmtTree c t) (hs : c.isSorted = true) (hid : "id" ∉ c.vars)
    (hloop : c.isLoopFree = true ∨ c.vars ≠ []) (hpost : post.Expresses c.names q)
    (hinv : invariant.Expresses c.names inv) :
    ∃ a, weakest ⟨t, pre, post, invariant⟩ = .ok (c.names, a) ∧
      a.Expresses c.names (c.Weakest c.names inv q) := by
  have hvars : ∀ x ∈ c.vars, x ∈ c.names := fun x hx => Stmt.mem_names.mpr hx
  have hnames : c.vars ≠ [] → c.names ≠ [] := by
    intro h
    obtain ⟨x, hx⟩ := List.exists_mem_of_ne_nil _ h
    exact List.ne_nil_of_mem (hvars x hx)
  obtain ⟨a, ha, hae⟩ := wp_expresses hs hvars (hloop.imp_right hnames) hinv hpost
  refine ⟨a, ?_, hae⟩
  rw [weakest, ht.variableNames_eq, if_neg hid, ht.ofTree_eq]
  simp only [bind, Except.bind, ha]
  rfl

/-- A formula for the inputs on which the program fails says just that. -/
theorem failure_iff (ht : StmtTree c t) (hs : c.isSorted = true) (hid : "id" ∉ c.vars)
    (hloop : c.isLoopFree = true ∨ c.vars ≠ []) (hpre : pre.Expresses c.names p)
    (hpost : post.Expresses c.names q) (hinv : invariant.Expresses c.names inv) :
    ∃ f, failure ⟨t, pre, post, invariant⟩ = .ok f ∧ (∀ x ∈ f.vars, x ∈ c.vars) ∧
      ∀ s, f.Holds s ↔ p s ∧ ¬ c.Weakest c.names inv q s := by
  obtain ⟨a, ha, hae⟩ := weakest_expresses pre ht hs hid hloop hpost hinv
  have hall := Env.symbolic_numeric c.names
  obtain ⟨v, hv, hva⟩ := hpre _ hall
  obtain ⟨w, hw, hwa⟩ := hae _ hall
  obtain ⟨i, hi, hia⟩ := Value.implies_asserts hva hwa
  obtain ⟨n, hn, hna⟩ := Value.negate_asserts hia
  obtain ⟨f, hf, hfv, hfs⟩ := Value.toFormula_of_isTruth hna.isTruth
  refine ⟨f, ?_, fun x hx => Stmt.mem_names.mp (hfv x hx), fun s => ?_⟩
  · simp only [failure, ha, bind, Except.bind, hv, hw, hi, hn, hf]
  · rw [hfs, hna.holds_iff]
    simp only [Env.state_symbolic, Classical.not_imp]

theorem success_iff (ht : StmtTree c t) (hs : c.isSorted = true) (hid : "id" ∉ c.vars)
    (hloop : c.isLoopFree = true ∨ c.vars ≠ []) {v : Value}
    (hv : pre (Env.symbolic c.names) = .ok v) (hva : v.Asserts c.names p)
    (hpost : post.Expresses c.names q) (hinv : invariant.Expresses c.names inv) :
    ∃ f, success ⟨t, pre, post, invariant⟩ = .ok f ∧
      ∀ s, f.Holds s ↔ p s ∧ c.Weakest c.names inv q s := by
  obtain ⟨a, ha, hae⟩ := weakest_expresses pre ht hs hid hloop hpost hinv
  obtain ⟨w, hw, hwa⟩ := hae _ (Env.symbolic_numeric c.names)
  obtain ⟨u, hu, hua⟩ := Value.conj_pair hva hwa
  obtain ⟨f, hf, -, hfs⟩ := Value.toFormula_of_isTruth hua.isTruth
  refine ⟨f, ?_, fun s => ?_⟩
  · simp only [success, ha, bind, Except.bind, hv, hw, hu, hf]
  · rw [hfs, hua.holds_iff]
    simp only [Env.state_symbolic]

/-- If there is a weakest precondition, no variable hides its own name, and there are variables
for loops to be about. -/
theorem of_weakest_ok (ht : StmtTree c t) {names : List String} {a : Assertion} {env : Env}
    {v : Value} (hw : weakest ⟨t, pre, post, invariant⟩ = .ok (names, a)) (hv : a env = .ok v) :
    "id" ∉ c.vars ∧ (c.isLoopFree = true ∨ c.vars ≠ []) := by
  obtain ⟨xs, hxs, hw⟩ := bind_eq_ok.mp hw
  obtain ⟨b, hb, hw⟩ := bind_eq_ok.mp hw
  cases hw
  rw [ht.variableNames_eq] at hxs
  split_ifs at hxs with hid
  cases hxs
  refine ⟨hid, ?_⟩
  by_contra! h
  have hnames : c.names = [] := List.eq_nil_iff_forall_not_mem.mpr fun x hx => by
    simp [h.2] at hx
  rw [hnames, ht.ofTree_eq] at hb
  exact wp_fails (.inl (by simpa using h.1)) hb env v hv

theorem of_failure_ok (ht : StmtTree c t) {f : Formula}
    (hf : failure ⟨t, pre, post, invariant⟩ = .ok f) :
    "id" ∉ c.vars ∧ (c.isLoopFree = true ∨ c.vars ≠ []) := by
  obtain ⟨⟨names, a⟩, hw, hf⟩ := bind_eq_ok.mp hf
  obtain ⟨_, -, hf⟩ := bind_eq_ok.mp hf
  obtain ⟨_, hv, -⟩ := bind_eq_ok.mp hf
  exact of_weakest_ok ht hw hv

theorem failure_holds (ht : StmtTree c t) (hs : c.isSorted = true)
    (hpre : pre.Expresses c.names p) (hpost : post.Expresses c.names q)
    (hinv : invariant.Expresses c.names inv) {f : Formula}
    (hf : failure ⟨t, pre, post, invariant⟩ = .ok f) :
    (∀ x ∈ f.vars, x ∈ c.vars) ∧ ∀ s, f.Holds s ↔ p s ∧ ¬ c.Weakest c.names inv q s := by
  obtain ⟨hid, hloop⟩ := of_failure_ok ht hf
  obtain ⟨g, hg, hvars, hiff⟩ := failure_iff ht hs hid hloop hpre hpost hinv
  rw [hf] at hg
  cases hg
  exact ⟨hvars, hiff⟩

theorem of_success_ok (ht : StmtTree c t) {f : Formula}
    (hf : success ⟨t, pre, post, invariant⟩ = .ok f) :
    "id" ∉ c.vars ∧ (c.isLoopFree = true ∨ c.vars ≠ []) := by
  obtain ⟨⟨names, a⟩, hw, hf⟩ := bind_eq_ok.mp hf
  obtain ⟨_, -, hf⟩ := bind_eq_ok.mp hf
  obtain ⟨_, hv, -⟩ := bind_eq_ok.mp hf
  exact of_weakest_ok ht hw hv

end Task

theorem Stmt.eval_expresses {c : Stmt} {P : Condition} (hP : P.IsTruth c.vars) :
    Assertion.Expresses c.names P.eval P.Holds :=
  Condition.eval_expresses (hP.mono fun _ hx => Stmt.mem_names.mpr hx)

/-- The weakest precondition of a program can be built, and it is true in a state. -/
def Task.WeakestHolds (t : Task) (s : State) : Prop :=
  ∃ names a v, t.weakest = .ok (names, a) ∧ a (Env.symbolic names) = .ok v ∧ v.Holds s

theorem StmtTree.weakestHolds_iff {c : Stmt} {t : Tree Label} (ht : StmtTree c t)
    (hs : c.isSorted = true) {pre post invariant : Assertion} {q inv : State → Prop}
    (hpost : post.Expresses c.names q) (hinv : invariant.Expresses c.names inv) {s : State} :
    Task.WeakestHolds ⟨t, pre, post, invariant⟩ s ↔
      ("id" ∉ c.vars ∧ (c.isLoopFree = true ∨ c.vars ≠ [])) ∧ c.Weakest c.names inv q s := by
  have hbuilt : "id" ∉ c.vars ∧ (c.isLoopFree = true ∨ c.vars ≠ []) →
      ∃ a v, Task.weakest ⟨t, pre, post, invariant⟩ = .ok (c.names, a) ∧
        a (Env.symbolic c.names) = .ok v ∧ (v.Holds s ↔ c.Weakest c.names inv q s) := by
    rintro ⟨hid, hloop⟩
    obtain ⟨a, ha, hae⟩ := Task.weakest_expresses pre ht hs hid hloop hpost hinv
    obtain ⟨v, hv, hva⟩ := hae _ (Env.symbolic_numeric c.names)
    refine ⟨a, v, ha, hv, ?_⟩
    rw [hva.holds_iff, Env.state_symbolic]
  constructor
  · rintro ⟨names, a, v, ha, hv, hholds⟩
    have hable := Task.of_weakest_ok ht ha hv
    obtain ⟨a', v', ha', hv', hiff⟩ := hbuilt hable
    rw [ha] at ha'
    cases ha'
    rw [hv] at hv'
    cases hv'
    exact ⟨hable, hiff.mp hholds⟩
  · rintro ⟨hable, hw⟩
    obtain ⟨a, v, ha, hv, hiff⟩ := hbuilt hable
    exact ⟨c.names, a, v, ha, hv, hiff.mpr hw⟩

theorem verified_weakest {solver : Solver} (hsolver : solver.Sound) {c : Stmt} {t : Tree Label}
    (ht : StmtTree c t) (hs : c.isSorted = true) {P Q I : Condition} (hP : P.IsTruth c.vars)
    (hQ : Q.IsTruth c.vars) (hI : I.IsTruth c.vars)
    (hv : Task.counterexample? solver ⟨t, P.eval, Q.eval, I.eval⟩ = .ok none) {s : State}
    (hp : P.Holds s) : c.Weakest c.names I.Holds Q.Holds s := by
  obtain ⟨f, hf, hnone⟩ := bind_eq_ok.mp hv
  obtain ⟨-, hiff⟩ := Task.failure_holds ht hs (Stmt.eval_expresses hP) (Stmt.eval_expresses hQ)
    (Stmt.eval_expresses hI) hf
  by_contra hw
  exact hsolver f (by simpa [pure, Except.pure] using hnone) s ((hiff s).mpr ⟨hp, hw⟩)

/-- A verified program, whatever the invariant: from a state that satisfies the precondition no run
comes to a false claim, and each run that ends does so in a state that satisfies the
postcondition. -/
theorem verified_runs {solver : Solver} (hsolver : solver.Sound) {c : Stmt} {t : Tree Label}
    (ht : StmtTree c t) (hs : c.isSorted = true) {P Q I : Condition} (hP : P.IsTruth c.vars)
    (hQ : Q.IsTruth c.vars) (hI : I.IsTruth c.vars)
    (hv : Task.counterexample? solver ⟨t, P.eval, Q.eval, I.eval⟩ = .ok none) {s : State}
    (hp : P.Holds s) :
    ¬ Run (fun _ => True) ⊤ c s .failed ∧
      ∀ s', Run (fun _ => True) ⊤ c s (.done s') → Q.Holds s' := by
  have hw := verified_weakest hsolver ht hs hP hQ hI hv hp
  have hassigned : ∀ x ∈ c.assigned, x ∈ c.names :=
    fun x hx => Stmt.mem_names.mpr (Stmt.mem_vars_of_mem_assigned hx)
  constructor
  · intro hr
    obtain ⟨_, ho, -⟩ := hw.sound (fun _ _ => trivial) hassigned hr
    cases ho
  · intro s' hr
    obtain ⟨_, ho, hq⟩ := hw.sound (fun _ _ => trivial) hassigned hr
    cases ho
    exact hq

def nestedLoops : Stmt :=
  .loop (.operate .lt (.var "x") (.num 10))
    (.seq (.loop (.operate .lt (.var "y") (.var "x"))
        (.assign "y" (.operate .add (.var "y") (.num 1))))
      (.ite (.operate .lt (.var "x") (.num 10))
        (.seq (.assign "x" (.operate .add (.var "x") (.num 1)))
          (.assert (.operate .le (.var "x") (.num 10))))
        .skip))

theorem verified_runs_nestedLoops :
    ∃ t, StmtTree nestedLoops t ∧
      Task.counterexample? Solver.ideal ⟨t, Condition.eval (.operate .eq (.var "x") (.int 0)),
        Condition.eval (.operate .eq (.var "x") (.int 10)),
        Condition.eval (.operate .le (.var "x") (.int 10))⟩ = .ok none ∧
      ¬ Run (fun _ => True) ⊤ nestedLoops (fun _ => 0) .failed ∧
      ∀ s', Run (fun _ => True) ⊤ nestedLoops (fun _ => 0) (.done s') → s' "x" = 10 := by
  obtain ⟨t, ht⟩ := Stmt.exists_tree (c := nestedLoops) rfl
  have hc : ∀ op n, op.isComparison = true →
      Condition.IsTruth nestedLoops.vars (.operate op (.var "x") (.int n)) :=
    fun op n hop => .compare hop (.var (by decide)) (.int n)
  have hv : Task.counterexample? Solver.ideal ⟨t, Condition.eval (.operate .eq (.var "x") (.int 0)),
      Condition.eval (.operate .eq (.var "x") (.int 10)),
      Condition.eval (.operate .le (.var "x") (.int 10))⟩ = .ok none := by
    obtain ⟨f, hf, -, hiff⟩ := Task.failure_iff ht rfl (by decide) (.inr (by decide))
      (Stmt.eval_expresses (hc .eq 0 rfl)) (Stmt.eval_expresses (hc .eq 10 rfl))
      (Stmt.eval_expresses (hc .le 10 rfl))
    have hnone : Solver.ideal.model? f = none := by
      apply Solver.ideal_eq_none
      intro s hs
      obtain ⟨hzero, hs⟩ := (hiff s).mp hs
      apply hs
      simp only [nestedLoops, Stmt.Weakest, Condition.Holds, Condition.value, Expr.Holds,
        Expr.value, Operator.Compares, Operator.compute] at hzero ⊢
      refine ⟨by omega, fun s' _ => ⟨fun hi => ⟨hi.1, fun s'' _ => ⟨?_, ?_⟩⟩, by omega⟩⟩
      · simp +contextual
      · simp
        omega
    rw [Task.counterexample?, hf]
    simp [bind, Except.bind, hnone, pure, Except.pure]
  have hr := verified_runs Solver.ideal_exact.sound ht rfl (hc .eq 0 rfl) (hc .eq 10 rfl)
    (hc .le 10 rfl) hv (s := fun _ => 0) rfl
  exact ⟨t, ht, hv, hr⟩

/-- The weakest precondition of a program without loops is built without failure, unless a
variable is called like the nodes above variables, and says of each state exactly that the run from
it meets all claims and ends in a state that satisfies the postcondition; in particular, values for
which the verifier reports a failure are an input on which the program fails. -/
theorem weakest_exact {c : Stmt} {t : Tree Label} (ht : StmtTree c t) (hs : c.isSorted = true)
    (hloop : c.isLoopFree = true) {P Q I : Condition} (hP : P.IsTruth c.vars)
    (hQ : Q.IsTruth c.vars) (hI : I.IsTruth c.vars) :
    ("id" ∈ c.vars →
      Task.weakest ⟨t, P.eval, Q.eval, I.eval⟩ = .error .noSuchItem) ∧
    ("id" ∉ c.vars →
      (∃ names a, Task.weakest ⟨t, P.eval, Q.eval, I.eval⟩ = .ok (names, a) ∧
        (∀ x, x ∈ names ↔ x ∈ c.vars) ∧
        ∀ env : Env, env.Numeric names → ∃ v, a env = .ok v ∧ v.IsTruth names ∧
          ∀ s, v.Holds s ↔ ∃ s', Run I.Holds ⊤ c (env.state s) (.done s') ∧ Q.Holds s') ∧
      ∀ (solver : Solver) (m : Model), solver.Exact →
        Task.counterexample? solver ⟨t, P.eval, Q.eval, I.eval⟩ = .ok (some m) →
          P.Holds m.value ∧ ¬ ∃ s', Run I.Holds ⊤ c m.value (.done s') ∧ Q.Holds s') := by
  refine ⟨fun hid => ?_, fun hid => ⟨?_, fun solver m hsolver hm => ?_⟩⟩
  · rw [Task.weakest, ht.variableNames_eq, if_pos hid]
    rfl
  · obtain ⟨a, ha, hae⟩ := Task.weakest_expresses P.eval ht hs hid (.inl hloop)
      (Stmt.eval_expresses hQ) (Stmt.eval_expresses hI)
    refine ⟨c.names, a, ha, fun x => Stmt.mem_names, fun env henv => ?_⟩
    obtain ⟨v, hv, hva⟩ := hae env henv
    exact ⟨v, hv, hva.isTruth, fun s => (hva.holds_iff s).trans (Stmt.weakest_iff_run hloop)⟩
  · obtain ⟨f, hf, -, hiff⟩ := Task.failure_iff ht hs hid (.inl hloop) (Stmt.eval_expresses hP)
      (Stmt.eval_expresses hQ) (Stmt.eval_expresses hI)
    obtain ⟨g, hg, hm⟩ := bind_eq_ok.mp hm
    rw [hf] at hg
    cases hg
    have hmodel : solver.model? f = some m := by simpa [pure, Except.pure] using hm
    have h := (hiff m.value).mp (hsolver.satisfies hmodel)
    rwa [Stmt.weakest_iff_run hloop] at h

/-- One conditional step of a loop, its end, and a claim. -/
def steppedOnce : Stmt :=
  .seq (.step (.operate .lt (.var "x") (.num 1))
      (.assign "x" (.operate .add (.var "x") (.num 1))) .skip)
    (.seq (.exit (.operate .lt (.var "x") (.num 1)))
      (.assert (.operate .ge (.var "x") (.num 1))))

theorem weakest_exact_steppedOnce :
    ∃ t, StmtTree steppedOnce t ∧ steppedOnce.isSorted = true ∧ steppedOnce.isLoopFree = true ∧
      ∃ names a, Task.weakest ⟨t, Condition.eval (.bool true),
          Condition.eval (.operate .eq (.var "x") (.int 1)),
          Condition.eval (.operate .le (.var "x") (.int 1))⟩ = .ok (names, a) ∧
        ∃ v, a (Env.symbolic names) = .ok v ∧ v.Holds (fun _ => 0) ∧ ¬ v.Holds (fun _ => 2) := by
  obtain ⟨t, ht⟩ := Stmt.exists_tree (c := steppedOnce) rfl
  have hc : ∀ op, op.isComparison = true →
      Condition.IsTruth steppedOnce.vars (.operate op (.var "x") (.int 1)) :=
    fun op hop => .compare hop (.var (by decide)) (.int 1)
  obtain ⟨⟨names, a, ha, -, hall⟩, -⟩ :=
    (weakest_exact ht rfl rfl (.bool true) (hc .eq rfl) (hc .le rfl)).2 (by decide)
  obtain ⟨v, hv, -, hiff⟩ := hall _ (Env.symbolic_numeric names)
  simp only [Env.state_symbolic] at hiff
  refine ⟨t, ht, rfl, rfl, names, a, ha, v, hv, (hiff _).mpr ?_, fun h => ?_⟩
  · have hstep : Expr.Holds (fun _ => 0) (.operate .lt (.var "x") (.num 1)) := by decide
    refine ⟨_, .seq (.stepTrue ?_ hstep .assign) (.seq (.exit ?_) (.assert ?_)), ?_⟩ <;>
      simp [Condition.Holds, Condition.value, Expr.Holds, Expr.value, Operator.Compares,
        Operator.compute]
  · obtain ⟨_, hr, -⟩ := (hiff _).mp h
    cases hr with
    | seq hstep _ =>
      cases hstep with
      | stepTrue hi _ _ | stepFalse hi _ _ =>
        simp [Condition.Holds, Condition.value, Operator.Compares] at hi

/-- An assignment to a variable that is called like the nodes above variables. -/
theorem weakest_id_fails :
    ∃ t, StmtTree (.assign "id" (.num 1)) t ∧
      Task.weakest ⟨t, Condition.eval (.bool true),
        Condition.eval (.operate .eq (.var "id") (.int 1)), Condition.eval (.bool true)⟩ =
          .error .noSuchItem :=
  ⟨_, .assign "id" (.num 1), rfl⟩

end While

end WhileSketch
