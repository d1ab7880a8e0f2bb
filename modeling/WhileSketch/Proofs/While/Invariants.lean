import Mathlib
import WhileSketch.Proofs.While.Limits

/-! What an invariant says of the steps of an unrolled loop. It is true wherever a round begins and
where the loop is left, so no step finds it false. -/

namespace WhileSketch

theorem Env.Numeric.congr {names names' : List String} {env : Env} (h : env.Numeric names)
    (hmem : ∀ x, x ∈ names ↔ x ∈ names') : env.Numeric names' where
  number x hx := by
    obtain ⟨v, hv, hn⟩ := h.number x ((hmem x).mpr hx)
    refine ⟨v, hv, ?_⟩
    cases v with
    | int n => trivial
    | term t => exact fun y hy => (hmem y).mp (hn y hy)
    | bool b | formula f => exact hn.elim
  none x hx := h.none x fun hx' => hx ((hmem x).mp hx')

theorem Assertion.Expresses.congr {names names' : List String} {a : Assertion} {p : State → Prop}
    (h : a.Expresses names p) (hmem : ∀ x, x ∈ names ↔ x ∈ names') : a.Expresses names' p := by
  intro env henv
  obtain ⟨v, hv, hva⟩ := h env (henv.congr fun x => (hmem x).symm)
  refine ⟨v, hv, ?_, hva.holds_iff⟩
  have htruth := hva.isTruth
  cases v with
  | bool b => trivial
  | formula f => exact fun x hx => (hmem x).mp (htruth x hx)
  | int n | term t => exact htruth.elim

namespace While

variable {names : List String} {inv post : State → Prop} {c : Expr} {body a : Stmt} {s s' : State}

theorem Stmt.Weakest.run {n : ℕ∞} (hassigned : ∀ x ∈ a.assigned, x ∈ names)
    (h : a.Weakest names inv post s) (hr : Run (fun _ => True) n a s (.done s')) :
    Run inv n a s (.done s') := by
  generalize ho : Outcome.done s' = o at hr
  induction hr generalizing post s' with
  | skip => exact .skip
  | assign => exact .assign
  | seq ha _ iha ihb =>
    obtain ⟨hassa, hassb⟩ := List.forall_mem_append.mp hassigned
    obtain ⟨t, ht, hb⟩ := h.sound (fun _ _ => trivial) hassa ha
    cases ht
    exact .seq (iha hassa h rfl) (ihb hassb hb ho)
  | iteTrue hc _ ih =>
    obtain ⟨hassa, -⟩ := List.forall_mem_append.mp hassigned
    rcases h with ⟨-, ha⟩ | ⟨hc', -⟩
    · exact .iteTrue hc (ih hassa ha ho)
    · exact absurd hc hc'
  | iteFalse hc _ ih =>
    obtain ⟨-, hassb⟩ := List.forall_mem_append.mp hassigned
    rcases h with ⟨hc', -⟩ | ⟨-, hb⟩
    · exact absurd hc' hc
    · exact .iteFalse hc (ih hassb hb ho)
  | stepTrue _ hc _ ih =>
    obtain ⟨hassa, -⟩ := List.forall_mem_append.mp hassigned
    rcases h with ⟨hi, ⟨-, ha⟩ | ⟨hc', -⟩⟩
    · exact .stepTrue hi hc (ih hassa ha ho)
    · exact absurd hc hc'
  | stepFalse _ hc _ ih =>
    obtain ⟨-, hassb⟩ := List.forall_mem_append.mp hassigned
    rcases h with ⟨hi, ⟨hc', -⟩ | ⟨-, hb⟩⟩
    · exact absurd hc' hc
    · exact .stepFalse hi hc (ih hassb hb ho)
  | loopDone hc => exact .loopDone hc
  | @loopNext _ _ e body _ s₁ _ hn hc hbody _ ihb ihr =>
    have hround_assigned : ∀ x ∈ body.assigned, x ∈ names := hassigned
    obtain ⟨hi, hall⟩ := h
    have hround := (hall _ fun _ _ => rfl).1 ⟨hi, hc⟩
    obtain ⟨t, ht, hit⟩ := hround.sound (fun _ _ => trivial) hround_assigned hbody
    cases ht
    have hrest : (Stmt.loop e body).Weakest names inv post s₁ := by
      refine ⟨hit, fun u hu => hall u ?_⟩
      intro x hx
      rw [hu x hx, hbody.frame fun hx' => hx (hround_assigned x hx')]
    exact .loopNext hn hc (ihb hround_assigned hround rfl) (ihr hassigned hrest ho)
  | assert hc => exact .assert hc
  | exit hc => exact .exit hc
  | seqFailed | stepFailed | loopFailed | assertFailed | exitFailed => cases ho

/-- An invariant that the body of a loop keeps is true at the start of each of its rounds and after
the last one. -/
theorem turns_of_rounds {n : Nat} (hassigned : ∀ x ∈ body.assigned, x ∈ names) (hi : inv s)
    (hkept : ∀ t, s.AgreeOutside names t → inv t ∧ c.Holds t → body.Weakest names inv inv t)
    (h : Rounds .integers c body n s s') :
    Turns inv c body s n s' ∧ inv s' ∧ s.AgreeOutside names s' := by
  induction n generalizing s' with
  | zero =>
    cases h
    exact ⟨.none, hi, fun _ _ => rfl⟩
  | succ n ih =>
    obtain ⟨t, hrounds, hc, hbody⟩ := rounds_succ.mp h
    obtain ⟨hturns, hit, hagree⟩ := ih hrounds
    have hct : c.Holds t := by simpa [Reading.integers] using hc
    have hround := hkept t hagree ⟨hit, hct⟩
    have hrun := ends_integers_iff.mp hbody
    obtain ⟨t', ht', hit'⟩ := hround.sound (fun _ _ => trivial) hassigned hrun
    cases ht'
    refine ⟨.next hturns hit hct (hround.run hassigned hrun), hit', fun x hx => ?_⟩
    rw [hrun.frame fun hx' => hx (hassigned x hx'), hagree x hx]

/-- Started where the weakest precondition with an invariant is true, an unrolled program takes the
run of the program, if that has no more rounds than there are steps. -/
theorem Stmt.Weakest.run_unrolled {limit : Int} (hassigned : ∀ x ∈ a.assigned, x ∈ names)
    (h : a.Weakest names inv post s)
    (hr : Run (fun _ => True) (max limit 1).toNat a s (.done s')) :
    Run inv ⊤ (a.unrolled limit) s (.done s') := by
  induction a generalizing post s s' with
  | seq a b iha ihb =>
    obtain ⟨hassa, hassb⟩ := List.forall_mem_append.mp hassigned
    obtain ⟨t, ha, hb⟩ := run_seq_iff.mp hr
    obtain ⟨t', ht', hw⟩ := h.sound (fun _ _ => trivial) hassa ha
    cases ht'
    exact .seq (iha hassa h ha) (ihb hassb hw hb)
  | ite e a b iha ihb =>
    obtain ⟨hassa, hassb⟩ := List.forall_mem_append.mp hassigned
    cases hr with
    | iteTrue hc ha => exact .iteTrue hc (iha hassa (h.resolve_right fun h => h.1 hc).2 ha)
    | iteFalse hc hb => exact .iteFalse hc (ihb hassb (h.resolve_left fun h => hc h.1).2 hb)
  | step e a b iha ihb =>
    obtain ⟨hassa, hassb⟩ := List.forall_mem_append.mp hassigned
    obtain ⟨hi, h⟩ := h
    cases hr with
    | stepTrue _ hc ha => exact .stepTrue hi hc (iha hassa (h.resolve_right fun h => h.1 hc).2 ha)
    | stepFalse _ hc hb => exact .stepFalse hi hc (ihb hassb (h.resolve_left fun h => hc h.1).2 hb)
  | loop e body _ =>
    have hround_assigned : ∀ x ∈ body.assigned, x ∈ names := hassigned
    obtain ⟨hi, hall⟩ := h
    obtain ⟨m, hm, hrounds, hend⟩ := ends_loop_iff.mp (ends_integers_iff.mpr hr)
    obtain ⟨hturns, hi', -⟩ :=
      turns_of_rounds hround_assigned hi (fun t ht => (hall t ht).1) hrounds
    have hc : ¬ e.Holds s' := by simpa [Reading.integers] using hend
    have hsteps : Stmt.unrolled limit (.loop e body) = Stmt.unrolled (max limit 1) (.loop e body) := by
      have hpred : (limit - 1).toNat = (max limit 1 - 1).toNat := by omega
      rw [Stmt.unrolled, Stmt.unrolled, hpred]
    rw [hsteps]
    exact (run_unrolled_loop_iff (le_max_right limit 1)).mpr ⟨m, hm, hturns, hc, fun _ => hi'⟩
  | skip | assign | assert | exit | invalid => exact (h.run hassigned hr).mono le_top

/-- What is verified with an invariant is verified with unrolled loops, from each state from which
the program ends with no more rounds of a loop than there are steps. -/
theorem weakestHolds_unroll {t : Tree Label} (ht : StmtTree a t)
    (hnames : ∀ x ∈ a.vars, isName x = true) (hs : a.isSorted = true) (hflat : a.isFlat = true)
    (pre : Assertion) {post invariant : Assertion} {q inv : State → Prop}
    (hpost : post.Expresses a.names q) (hinv : invariant.Expresses a.names inv) (limit : Int) :
    ∃ u, unroll limit t = .ok u ∧ ∀ s o, Task.WeakestHolds ⟨t, pre, post, invariant⟩ s →
      Run (fun _ => True) (max limit 1).toNat (Stmt.ofTree t) s o →
        Task.WeakestHolds ⟨u, pre, post, invariant⟩ s := by
  have hwhile : ∀ x ∈ a.vars, x ≠ "while" := by
    rintro x hx rfl
    exact absurd (hnames _ hx) (by decide)
  obtain ⟨u, hu, hut⟩ : ∃ u, unroll limit t = .ok u ∧ StmtTree (a.unrolled limit) u :=
    ht.unroll hwhile
  have hmem : ∀ x, x ∈ a.names ↔ x ∈ (a.unrolled limit).names := fun x => by
    rw [Stmt.mem_names, Stmt.mem_names, Stmt.mem_vars_unrolled]
  have hassigned : ∀ x ∈ a.assigned, x ∈ a.names :=
    fun x hx => Stmt.mem_names.mpr (Stmt.mem_vars_of_mem_assigned hx)
  have hloop : (a.unrolled limit).isLoopFree = true := Stmt.isLoopFree_unrolled hflat
  refine ⟨u, hu, fun s o hw hr => ?_⟩
  obtain ⟨⟨hid, -⟩, hw⟩ := (ht.weakestHolds_iff hs hpost hinv).mp hw
  rw [ht.ofTree_eq] at hr
  obtain ⟨s', rfl, hq⟩ := hw.sound (fun _ _ => trivial) hassigned hr
  rw [hut.weakestHolds_iff ((Stmt.isSorted_unrolled a).trans hs) (hpost.congr hmem)
    (hinv.congr hmem), Stmt.weakest_iff_run (n := ⊤) hloop, Stmt.mem_vars_unrolled]
  exact ⟨⟨hid, .inl hloop⟩, s', hw.run_unrolled hassigned hr, hq⟩

/-- Two steps are enough to count down from two, and each of them finds the counter not negative. -/
theorem weakestHolds_unroll_countdown : ∃ u, unroll 2 countdownTree = .ok u ∧
    Task.WeakestHolds ⟨countdownTree, Condition.eval (.bool true), (countIs .eq 0).eval,
      (countIs .ge 0).eval⟩ (fun _ => 2) ∧
    Task.WeakestHolds ⟨u, Condition.eval (.bool true), (countIs .eq 0).eval,
      (countIs .ge 0).eval⟩ (fun _ => 2) := by
  have hpost := Stmt.eval_expresses (isTruth_countIs .eq rfl 0)
  have hinv := Stmt.eval_expresses (isTruth_countIs .ge rfl 0)
  have hw : Task.WeakestHolds ⟨countdownTree, Condition.eval (.bool true), (countIs .eq 0).eval,
      (countIs .ge 0).eval⟩ (fun _ => 2) := by
    rw [stmtTree_countdown.weakestHolds_iff rfl hpost hinv]
    have hstart : (countIs .ge 0).Holds fun _ => 2 := by
      simp [countIs, Condition.Holds, Condition.value, Operator.Compares]
    refine ⟨by decide, hstart, fun s' _ => ?_⟩
    simp only [Stmt.Weakest, countIs, Condition.Holds, Condition.value, Expr.Holds, Expr.value,
      Operator.Compares, Operator.compute, Function.update_self]
    omega
  have hrun : Run (fun _ => True) (2 : ℕ) countdown (fun _ => 2)
      (.done (Function.update (Function.update (fun _ => 2) "x" 1) "x" 0)) :=
    .loopNext (m := 1) le_rfl (by decide) .assign
      (.loopNext (m := 0) le_rfl (by decide) .assign (.loopDone (by decide)))
  obtain ⟨u, hu, hall⟩ := weakestHolds_unroll stmtTree_countdown (by decide) rfl rfl
    (Condition.eval (.bool true)) hpost hinv 2
  rw [stmtTree_countdown.ofTree_eq] at hall
  exact ⟨u, hu, hw, hall _ _ hw hrun⟩

end While

end WhileSketch
