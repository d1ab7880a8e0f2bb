import Mathlib
import WhileSketch.Proofs.While.Unrolling
import WhileSketch.Proofs.While.Verification

/-! What a larger number of steps does to a verified program. The steps that are added find the loop
left, but each of them asks for the invariant once more. -/

namespace WhileSketch.While

/-- Rounds of a loop from a state, each of which begins with its condition and `inv` true. -/
inductive Turns (inv : State → Prop) (c : Expr) (body : Stmt) (s : State) : Nat → State → Prop
  | none : Turns inv c body s 0 s
  | next {n s' s''} (h : Turns inv c body s n s') (hi : inv s') (hc : c.Holds s')
      (hbody : Run inv ⊤ body s' (.done s'')) : Turns inv c body s (n + 1) s''

/-- A run of a statement from one state comes to another, and leaves there a loop that is not inside
another loop and has made the given number of rounds. -/
inductive Leaves (n : Nat) : Stmt → State → State → Prop
  | seqFirst {a b s s'} (h : Leaves n a s s') : Leaves n (.seq a b) s s'
  | seqSecond {a b s s₁ s'} (ha : Ends .integers ⊤ a s s₁) (h : Leaves n b s₁ s') :
      Leaves n (.seq a b) s s'
  | iteTrue {c a b s s'} (hc : c.Holds s) (h : Leaves n a s s') : Leaves n (.ite c a b) s s'
  | iteFalse {c a b s s'} (hc : ¬ c.Holds s) (h : Leaves n b s s') : Leaves n (.ite c a b) s s'
  | stepTrue {c a b s s'} (hc : c.Holds s) (h : Leaves n a s s') : Leaves n (.step c a b) s s'
  | stepFalse {c a b s s'} (hc : ¬ c.Holds s) (h : Leaves n b s s') : Leaves n (.step c a b) s s'
  | loop {c body s s'} (h : Rounds .integers c body n s s') (hc : ¬ c.Holds s') :
      Leaves n (.loop c body) s s'

section Steps

variable {inv : State → Prop} {c : Expr} {body a : Stmt} {s s' : State} {n : Nat}

theorem run_seq_iff {k : ℕ∞} {b : Stmt} : Run inv k (.seq a b) s (.done s') ↔
    ∃ s₁, Run inv k a s (.done s₁) ∧ Run inv k b s₁ (.done s') := by
  constructor
  · intro h
    cases h with
    | seq ha hb => exact ⟨_, ha, hb⟩
  · rintro ⟨s₁, ha, hb⟩
    exact .seq ha hb

theorem run_step_iff : Run inv ⊤ (.step c body .skip) s (.done s') ↔
    inv s ∧ (c.Holds s ∧ Run inv ⊤ body s (.done s') ∨ ¬ c.Holds s ∧ s' = s) := by
  constructor
  · intro h
    cases h with
    | stepTrue hi hc hbody => exact ⟨hi, .inl ⟨hc, hbody⟩⟩
    | stepFalse hi hc hskip =>
      cases hskip
      exact ⟨hi, .inr ⟨hc, rfl⟩⟩
  · rintro ⟨hi, ⟨hc, hbody⟩ | ⟨hc, rfl⟩⟩
    · exact .stepTrue hi hc hbody
    · exact .stepFalse hi hc .skip

/-- The steps of an unrolled loop make its rounds. They stop early where the condition is false, and
find `inv` true there. -/
theorem run_steps_iff : Run inv ⊤ (.steps c body n) s (.done s') ↔
    ∃ m ≤ n + 1, Turns inv c body s m s' ∧ (m = n + 1 ∨ inv s' ∧ ¬ c.Holds s') := by
  induction n generalizing s' with
  | zero =>
    rw [Stmt.steps, run_step_iff]
    constructor
    · rintro ⟨hi, ⟨hc, hbody⟩ | ⟨hc, rfl⟩⟩
      · exact ⟨1, le_rfl, .next .none hi hc hbody, .inl rfl⟩
      · exact ⟨0, Nat.zero_le 1, .none, .inr ⟨hi, hc⟩⟩
    · rintro ⟨m, hm, hturns, hend⟩
      cases hturns with
      | none =>
        obtain ⟨hi, hc⟩ := hend.resolve_left (by omega)
        exact ⟨hi, .inr ⟨hc, rfl⟩⟩
      | @next m s₁ _ hturns hi hc hbody =>
        obtain rfl : m = 0 := by omega
        cases hturns
        exact ⟨hi, .inl ⟨hc, hbody⟩⟩
  | succ n ih =>
    rw [Stmt.steps, run_seq_iff]
    constructor
    · rintro ⟨s₁, hsteps, hlast⟩
      obtain ⟨m, hm, hturns, hend⟩ := ih.mp hsteps
      obtain ⟨hi, ⟨hc, hbody⟩ | ⟨hc, rfl⟩⟩ := run_step_iff.mp hlast
      · have hall : m = n + 1 := hend.resolve_right fun h => h.2 hc
        exact ⟨n + 2, le_rfl, .next (hall ▸ hturns) hi hc hbody, .inl rfl⟩
      · exact ⟨m, by omega, hturns, .inr ⟨hi, hc⟩⟩
    · rintro ⟨m, hm, hturns, hend⟩
      by_cases hall : m = n + 2
      · subst hall
        cases hturns with
        | @next _ s₁ _ hturns hi hc hbody =>
          exact ⟨s₁, ih.mpr ⟨n + 1, le_rfl, hturns, .inl rfl⟩, run_step_iff.mpr ⟨hi, .inl ⟨hc, hbody⟩⟩⟩
      · obtain ⟨hi, hc⟩ := hend.resolve_left hall
        exact ⟨s', ih.mpr ⟨m, by omega, hturns, .inr ⟨hi, hc⟩⟩,
          run_step_iff.mpr ⟨hi, .inr ⟨hc, rfl⟩⟩⟩

/-- An unrolled loop asks for `inv` at the start of each round, and where it is left unless all its
steps have been taken. -/
theorem run_unrolled_loop_iff {limit : Int} (hlimit : 1 ≤ limit) :
    Run inv ⊤ (Stmt.unrolled limit (.loop c body)) s (.done s') ↔
      ∃ m ≤ limit.toNat, Turns inv c body s m s' ∧ ¬ c.Holds s' ∧ (m < limit.toNat → inv s') := by
  have hsucc : limit.toNat = (limit - 1).toNat + 1 := by omega
  rw [Stmt.unrolled, run_seq_iff, hsucc]
  constructor
  · rintro ⟨s₁, hsteps, hexit⟩
    cases hexit with
    | exit hc =>
      obtain ⟨m, hm, hturns, hend⟩ := run_steps_iff.mp hsteps
      exact ⟨m, hm, hturns, hc, fun hlt => (hend.resolve_left (by omega)).1⟩
  · rintro ⟨m, hm, hturns, hc, hend⟩
    refine ⟨s', run_steps_iff.mpr ⟨m, hm, hturns, ?_⟩, .exit hc⟩
    by_cases hall : m = (limit - 1).toNat + 1
    · exact .inl hall
    · exact .inr ⟨hend (by omega), hc⟩

theorem Turns.rounds (h : Turns inv c body s n s') : Rounds .integers c body n s s' := by
  induction h with
  | none => exact .none
  | next _ _ hc hbody ih =>
    have hends := ends_integers_iff.mpr (hbody.weaken fun _ _ => trivial)
    exact rounds_succ.mpr ⟨_, ih, by simpa [Reading.integers] using hc, hends⟩

theorem Rounds.unique {m : Nat} {s'' : State} (h : Rounds .integers c body m s s')
    (hc : ¬ c.Holds s') (h' : Rounds .integers c body n s s'') (hc' : ¬ c.Holds s'') :
    m = n ∧ s' = s'' := by
  induction h generalizing n with
  | none =>
    cases h' with
    | none => exact ⟨rfl, rfl⟩
    | next hc' => exact absurd (by simpa [Reading.integers] using hc') hc
  | next hnext hbody _ ih =>
    cases h' with
    | none => exact absurd (by simpa [Reading.integers] using hnext) hc'
    | next _ hbody' hrest' =>
      have hsame := (ends_integers_iff.mp hbody).deterministic (ends_integers_iff.mp hbody')
      cases hsame
      obtain ⟨rfl, rfl⟩ := ih hc hrest'
      exact ⟨rfl, rfl⟩

end Steps

section Runs

variable {inv : State → Prop} {a : Stmt} {s s' u : State} {k k' : Int}

/-- A run of an unrolled program is a run of the program. -/
theorem ends_of_run_unrolled (h : Run inv ⊤ (a.unrolled k) s (.done s')) :
    Ends .integers ⊤ a s s' := by
  have hplain := run_unrolled_iff.mp (h.weaken fun _ _ => trivial)
  exact ends_integers_iff.mpr (hplain.mono le_top)

/-- With more steps a program runs as before, if the invariant is true wherever a loop is left that
has taken all its steps. -/
theorem run_unrolled_mono (hk : 1 ≤ k) (hkk' : k ≤ k')
    (hleft : ∀ u, Leaves k.toNat a s u → inv u) (h : Run inv ⊤ (a.unrolled k) s (.done s')) :
    Run inv ⊤ (a.unrolled k') s (.done s') := by
  induction a generalizing s s' with
  | seq a b iha ihb =>
    obtain ⟨s₁, ha, hb⟩ := run_seq_iff.mp h
    have hends := ends_of_run_unrolled ha
    exact .seq (iha (fun u hu => hleft u (.seqFirst hu)) ha)
      (ihb (fun u hu => hleft u (.seqSecond hends hu)) hb)
  | ite c a b iha ihb =>
    cases h with
    | iteTrue hc ha => exact .iteTrue hc (iha (fun u hu => hleft u (.iteTrue hc hu)) ha)
    | iteFalse hc hb => exact .iteFalse hc (ihb (fun u hu => hleft u (.iteFalse hc hu)) hb)
  | step c a b iha ihb =>
    cases h with
    | stepTrue hi hc ha => exact .stepTrue hi hc (iha (fun u hu => hleft u (.stepTrue hc hu)) ha)
    | stepFalse hi hc hb =>
      exact .stepFalse hi hc (ihb (fun u hu => hleft u (.stepFalse hc hu)) hb)
  | loop c body _ =>
    obtain ⟨m, hm, hturns, hc, hend⟩ := (run_unrolled_loop_iff hk).mp h
    refine (run_unrolled_loop_iff (hk.trans hkk')).mpr ⟨m, by omega, hturns, hc, fun _ => ?_⟩
    by_cases hall : m = k.toNat
    · exact hleft s' (.loop (hall ▸ hturns.rounds) hc)
    · exact hend (by omega)
  | _ => exact h

/-- Where there are steps left over, a run of an unrolled program finds the invariant true. -/
theorem inv_of_leaves {k' : Int} (hk : 1 ≤ k) (hkk' : k < k')
    (h : Run inv ⊤ (a.unrolled k') s (.done s')) (hu : Leaves k.toNat a s u) : inv u := by
  induction hu generalizing s' with
  | seqFirst _ ih =>
    obtain ⟨s₁, ha, -⟩ := run_seq_iff.mp h
    exact ih ha
  | seqSecond ha _ ih =>
    obtain ⟨s₁, ha', hb⟩ := run_seq_iff.mp h
    have hsame := (ends_integers_iff.mp ha).deterministic
      (ends_integers_iff.mp (ends_of_run_unrolled ha'))
    cases hsame
    exact ih hb
  | iteTrue hc _ ih =>
    cases h with
    | iteTrue _ ha => exact ih ha
    | iteFalse hc' _ => exact absurd hc hc'
  | iteFalse hc _ ih =>
    cases h with
    | iteTrue hc' _ => exact absurd hc' hc
    | iteFalse _ hb => exact ih hb
  | stepTrue hc _ ih =>
    cases h with
    | stepTrue _ _ ha => exact ih ha
    | stepFalse _ hc' _ => exact absurd hc hc'
  | stepFalse hc _ ih =>
    cases h with
    | stepTrue _ hc' _ => exact absurd hc' hc
    | stepFalse _ _ hb => exact ih hb
  | loop hrounds hc =>
    obtain ⟨m, -, hturns, hc', hend⟩ := (run_unrolled_loop_iff (by omega)).mp h
    obtain ⟨rfl, rfl⟩ := hturns.rounds.unique hc' hrounds hc
    exact hend (by omega)

end Runs

/-- The formula for the inputs on which the program fails can be built, and no state satisfies
it. -/
def Task.IsValid (t : Task) : Prop :=
  ∃ f, t.failure = .ok f ∧ ∀ s, ¬ f.Holds s

theorem StmtTree.isValid_iff {a : Stmt} {t : Tree Label} (ht : StmtTree a t)
    (hs : a.isSorted = true) (hloop : a.isLoopFree = true) {P Q I : Condition}
    (hP : P.IsTruth a.vars) (hQ : Q.IsTruth a.vars) (hI : I.IsTruth a.vars) :
    Task.IsValid ⟨t, P.eval, Q.eval, I.eval⟩ ↔ "id" ∉ a.vars ∧
      ∀ s, P.Holds s → ∃ s', Run I.Holds ⊤ a s (.done s') ∧ Q.Holds s' := by
  have hruns : ∀ s, a.Weakest a.names I.Holds Q.Holds s ↔
      ∃ s', Run I.Holds ⊤ a s (.done s') ∧ Q.Holds s' := fun _ => Stmt.weakest_iff_run hloop
  constructor
  · rintro ⟨f, hf, hnone⟩
    obtain ⟨-, hiff⟩ := Task.failure_holds ht hs (Stmt.eval_expresses hP) (Stmt.eval_expresses hQ)
      (Stmt.eval_expresses hI) hf
    refine ⟨(Task.of_failure_ok ht hf).1, fun s hp => (hruns s).mp ?_⟩
    by_contra hw
    exact hnone s ((hiff s).mpr ⟨hp, hw⟩)
  · rintro ⟨hid, hall⟩
    obtain ⟨f, hf, -, hiff⟩ := Task.failure_iff ht hs hid (.inl hloop) (Stmt.eval_expresses hP)
      (Stmt.eval_expresses hQ) (Stmt.eval_expresses hI)
    refine ⟨f, hf, fun s hfs => ?_⟩
    obtain ⟨hp, hw⟩ := (hiff s).mp hfs
    exact hw ((hruns s).mpr (hall s hp))

theorem StmtTree.isValid_unroll {a : Stmt} {t : Tree Label} (ht : StmtTree a t)
    (hnames : ∀ x ∈ a.vars, isName x = true) (hs : a.isSorted = true) (hflat : a.isFlat = true)
    {P Q I : Condition} (hP : P.IsTruth a.vars) (hQ : Q.IsTruth a.vars) (hI : I.IsTruth a.vars)
    (k : Int) : ∃ u, While.unroll k t = .ok u ∧
      (Task.IsValid ⟨u, P.eval, Q.eval, I.eval⟩ ↔ "id" ∉ a.vars ∧
        ∀ s, P.Holds s → ∃ s', Run I.Holds ⊤ (a.unrolled k) s (.done s') ∧ Q.Holds s') := by
  have hwhile : ∀ x ∈ a.vars, x ≠ "while" := by
    rintro x hx rfl
    exact absurd (hnames _ hx) (by decide)
  obtain ⟨u, hu, htree⟩ : ∃ u, While.unroll k t = .ok u ∧ StmtTree (a.unrolled k) u := ht.unroll hwhile
  have hvars : ∀ x, x ∈ a.vars → x ∈ (a.unrolled k).vars := fun x => Stmt.mem_vars_unrolled.mpr
  refine ⟨u, hu, ?_⟩
  rw [htree.isValid_iff ((Stmt.isSorted_unrolled a).trans hs) (Stmt.isLoopFree_unrolled hflat)
    (hP.mono hvars) (hQ.mono hvars) (hI.mono hvars), Stmt.mem_vars_unrolled]

/-- A program that is verified with some number of steps for its loops is verified with a larger
one just when the invariant is true wherever a run leaves a loop that has taken all its steps. -/
theorem isValid_unroll_iff {a : Stmt} {t : Tree Label} (ht : StmtTree a t)
    (hnames : ∀ x ∈ a.vars, isName x = true) (hs : a.isSorted = true) (hflat : a.isFlat = true)
    {P Q I : Condition} (hP : P.IsTruth a.vars) (hQ : Q.IsTruth a.vars) (hI : I.IsTruth a.vars)
    {k k' : Int} (hk : 1 ≤ k) (hkk' : k ≤ k') :
    ∃ u u', unroll k t = .ok u ∧ unroll k' t = .ok u' ∧
      (Task.IsValid ⟨u, P.eval, Q.eval, I.eval⟩ →
        (Task.IsValid ⟨u', P.eval, Q.eval, I.eval⟩ ↔
          k = k' ∨ ∀ s, P.Holds s → ∀ s', Leaves k.toNat a s s' → I.Holds s')) := by
  obtain ⟨u, hu, hiff⟩ := ht.isValid_unroll hnames hs hflat hP hQ hI k
  obtain ⟨u', hu', hiff'⟩ := ht.isValid_unroll hnames hs hflat hP hQ hI k'
  refine ⟨u, u', hu, hu', fun hvalid => ?_⟩
  obtain ⟨hid, hruns⟩ := hiff.mp hvalid
  rw [hiff']
  constructor
  · rintro ⟨-, hruns'⟩
    by_cases heq : k = k'
    · exact .inl heq
    · refine .inr fun s hp s' hleft => ?_
      obtain ⟨s₁, hrun, -⟩ := hruns' s hp
      exact inv_of_leaves hk (by omega) hrun hleft
  · rintro (rfl | hleft)
    · exact ⟨hid, hruns⟩
    · refine ⟨hid, fun s hp => ?_⟩
      obtain ⟨s', hrun, hq⟩ := hruns s hp
      exact ⟨s', run_unrolled_mono hk hkk' (hleft s hp) hrun, hq⟩

section Countdown

variable {inv : State → Prop} {s s' : State}

def countIs (op : Operator) (n : Int) : Condition :=
  .operate op (.var "x") (.int n)

theorem isTruth_countIs (op : Operator) (hop : op.isComparison = true) (n : Int) :
    (countIs op n).IsTruth countdown.vars :=
  .compare hop (.var (by decide)) (.int n)

theorem turns_countdown (inv : State → Prop) (hx : s "x" = 1) (hi : inv s) :
    Turns inv (.operate .gt (.var "x") (.num 0)) (.assign "x" (.operate .sub (.var "x") (.num 1)))
        s 1 (Function.update s "x" 0) ∧
      ¬ Expr.Holds (Function.update s "x" 0) (.operate .gt (.var "x") (.num 0)) := by
  have hvalue : Expr.value s (.operate .sub (.var "x") (.num 1)) = 0 := by
    simp [Expr.value, Operator.compute, hx]
  have hbody : Run inv ⊤ (.assign "x" (.operate .sub (.var "x") (.num 1))) s
      (.done (Function.update s "x" 0)) := by
    rw [← hvalue]
    exact .assign
  refine ⟨.next .none hi ?_ hbody, ?_⟩
  · simp [Expr.Holds, Expr.value, Operator.Compares, hx]
  · simp [Expr.Holds, Expr.value, Operator.Compares]

theorem run_countdown (hx : s "x" = 1) (hi : inv s) :
    Run inv ⊤ (countdown.unrolled 1) s (.done (Function.update s "x" 0)) := by
  obtain ⟨hturns, hc⟩ := turns_countdown inv hx hi
  exact (run_unrolled_loop_iff le_rfl).mpr ⟨1, le_rfl, hturns, hc, by simp⟩

theorem leaves_countdown_iff (hx : s "x" = 1) :
    Leaves 1 countdown s s' ↔ s' = Function.update s "x" 0 := by
  obtain ⟨hturns, hc⟩ := turns_countdown (fun _ => True) hx trivial
  constructor
  · intro h
    cases h with
    | loop hrounds hc' => exact (hturns.rounds.unique hc hrounds hc').2.symm
  · rintro rfl
    exact .loop hturns.rounds hc

theorem isValid_unroll_iff_countdown : ∃ u u', unroll 1 countdownTree = .ok u ∧
    unroll 3 countdownTree = .ok u' ∧
    Task.IsValid ⟨u, (countIs .eq 1).eval, (countIs .le 0).eval, (countIs .le 1).eval⟩ ∧
    Task.IsValid ⟨u', (countIs .eq 1).eval, (countIs .le 0).eval, (countIs .le 1).eval⟩ := by
  have hnames : ∀ x ∈ countdown.vars, isName x = true := by decide
  have hpre := isTruth_countIs .eq rfl 1
  have hpost := isTruth_countIs .le rfl 0
  have hinv := isTruth_countIs .le rfl 1
  obtain ⟨u, u', hu, hu', hiff⟩ := isValid_unroll_iff stmtTree_countdown hnames rfl rfl hpre hpost
    hinv (le_refl 1) (by decide : (1 : Int) ≤ 3)
  obtain ⟨v, hv, hvalid⟩ := stmtTree_countdown.isValid_unroll hnames rfl rfl hpre hpost hinv 1
  rw [hu] at hv
  cases hv
  have hone : Task.IsValid ⟨u, (countIs .eq 1).eval, (countIs .le 0).eval, (countIs .le 1).eval⟩ := by
    refine hvalid.mpr ⟨by decide, fun s hs => ⟨_, run_countdown hs (le_of_eq hs), ?_⟩⟩
    simp [countIs, Condition.Holds, Condition.value, Operator.Compares]
  refine ⟨u, u', hu, hu', hone, (hiff hone).mpr (.inr fun s hs s' hleft => ?_)⟩
  rw [(leaves_countdown_iff hs).mp hleft]
  simp [countIs, Condition.Holds, Condition.value, Operator.Compares]

/-- A loop may be left with the invariant false; one more step then asks for it, and the program
that was verified no longer is. -/
theorem not_isValid_countdown : ∃ u u', unroll 1 countdownTree = .ok u ∧
    unroll 2 countdownTree = .ok u' ∧
    Task.IsValid ⟨u, (countIs .eq 1).eval, Condition.eval (.bool true), (countIs .eq 1).eval⟩ ∧
    ¬ Task.IsValid ⟨u', (countIs .eq 1).eval, Condition.eval (.bool true), (countIs .eq 1).eval⟩ := by
  have hnames : ∀ x ∈ countdown.vars, isName x = true := by decide
  have hone := isTruth_countIs .eq rfl 1
  obtain ⟨u, hu, hvalid⟩ := stmtTree_countdown.isValid_unroll hnames rfl rfl hone (.bool true) hone 1
  obtain ⟨u', hu', hvalid'⟩ :=
    stmtTree_countdown.isValid_unroll hnames rfl rfl hone (.bool true) hone 2
  refine ⟨u, u', hu, hu', hvalid.mpr ⟨by decide, fun s hs => ⟨_, run_countdown hs hs, rfl⟩⟩, ?_⟩
  rw [hvalid']
  rintro ⟨-, hruns⟩
  have hstart : (countIs .eq 1).Holds fun _ => 1 := rfl
  obtain ⟨s', hrun, -⟩ := hruns _ hstart
  have hend := inv_of_leaves le_rfl (by decide) hrun ((leaves_countdown_iff rfl).mpr rfl)
  simp [countIs, Condition.Holds, Condition.value, Operator.Compares] at hend

end Countdown

end WhileSketch.While
