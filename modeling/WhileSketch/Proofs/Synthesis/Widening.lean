import Mathlib
import WhileSketch.Proofs.Synthesis.Course

/-! The bounds of a search. They are about the last hole only, and they are widened no more than
finitely often before a new filling is found. -/

namespace WhileSketch.Refinement

open While Holes

section Bounds

theorem forall_within_iff {holes : List String} {low high : Int}
    (h : high < low ∨ ∀ x ∈ holes, x ∈ holes.getLast?) (n : String → Int) :
    (∀ x ∈ holes.getLast?, low ≤ n x ∧ n x ≤ high) ↔ ∀ x ∈ holes, low ≤ n x ∧ n x ≤ high := by
  refine ⟨fun hlast x hx => ?_, fun hall x hx => hall x (List.mem_of_getLast? hx)⟩
  obtain hempty | hlone := h
  · have hy := List.getLast?_eq_some_getLast (List.ne_nil_of_mem hx)
    have hbounds := hlast _ hy
    omega
  · exact hlast x (hlone x hx)

/-- The numbers that put the last hole at the lower end of the bounds, and all others above them. -/
def outsideLast (holes : List String) (low high : Int) (x : String) : Int :=
  if x ∈ holes.getLast? then low else high + 1

theorem binds_int (names vars : List String) (n : String → Int) :
    Env.Binds names vars (fun x _ => n x) fun x => some (.int (n x)) :=
  fun x _ => ⟨.int (n x), rfl, Value.denotes_int (n x)⟩

/-- Bounds say that the last hole is within them. This is to say that all holes are, if and only if
no number is within the bounds or there is no other hole. -/
theorem bounds_last_iff (holes names : List String) (low high : Int) :
    (∀ env value, Env.Binds names holes value env → ∃ v, bounds holes low high env = .ok v ∧
      v.Asserts names fun σ => ∀ x ∈ holes.getLast?, low ≤ value x σ ∧ value x σ ≤ high) ∧
    ((∀ env value, Env.Binds names holes value env → ∃ v, bounds holes low high env = .ok v ∧
      v.Asserts names fun σ => ∀ x ∈ holes, low ≤ value x σ ∧ value x σ ≤ high) ↔
      high < low ∨ ∀ x ∈ holes, x ∈ holes.getLast?) := by
  refine ⟨fun env value henv => exists_bounds henv low high, fun hall => ?_,
    fun h env value henv => ?_⟩
  · by_contra hnot
    push Not at hnot
    obtain ⟨hbounds, x, hx, hother⟩ := hnot
    have henv := binds_int names holes (outsideLast holes low high)
    obtain ⟨v, hv, hva⟩ := hall _ _ henv
    obtain ⟨w, hw, hwa⟩ := exists_bounds henv low high
    cases hv.symm.trans hw
    have hlast : v.Holds fun _ => 0 := by
      refine (hwa.holds_iff _).mpr fun y hy => ?_
      rw [outsideLast, if_pos hy]
      exact ⟨le_rfl, hbounds⟩
    have hout := ((hva.holds_iff _).mp hlast x hx).2
    rw [outsideLast, if_neg hother] at hout
    omega
  · obtain ⟨v, hv, hva⟩ := exists_bounds henv low high
    exact ⟨v, hv, hva.congr fun σ => forall_within_iff h fun x => value x σ⟩

def sixAndZero (x : String) : Int :=
  if x = "hole_0" then 6 else 0

theorem bounds_last_iff_pair : ∃ v,
    bounds ["hole_1", "hole_0"] (-5) 5 (fun x => some (.int (sixAndZero x))) = .ok v ∧
      ∀ σ, ¬ v.Holds σ := by
  obtain ⟨v, hv, hva⟩ := (bounds_last_iff ["hole_1", "hole_0"] [] (-5) 5).1 _ _
    (binds_int [] ["hole_1", "hole_0"] sixAndZero)
  refine ⟨v, hv, fun σ hσ => ?_⟩
  have hsix := (hva.holds_iff σ).mp hσ "hole_0" rfl
  exact absurd hsix.2 (by decide)

/-- A hole that is not the last one may be out of bounds. -/
theorem bounds_first_free : ∃ v,
    bounds ["hole_0", "hole_1"] (-5) 5 (fun x => some (.int (sixAndZero x))) = .ok v ∧
      (∀ σ, v.Holds σ) ∧ ¬ ∀ x ∈ ["hole_0", "hole_1"], -5 ≤ sixAndZero x ∧ sixAndZero x ≤ 5 := by
  obtain ⟨v, hv, hva⟩ := exists_bounds (binds_int [] ["hole_0", "hole_1"] sixAndZero) (-5) 5
  refine ⟨v, hv, fun σ => (hva.holds_iff σ).mpr fun x hx => ?_, by decide⟩
  cases hx
  decide

end Bounds

section Widening

variable {p : Problem} {s : State}

theorem State.widen_iterate (s : State) (n : Nat) :
    State.widen^[n] s = { s with low := s.low - 20 * n, high := s.high + 20 * n } := by
  induction n with
  | zero => simp
  | succ n ih =>
    rw [Function.iterate_succ_apply', ih, State.widen]
    push_cast
    congr 1 <;> ring

theorem exists_within (p : Problem) (s : State) (σ : WhileSketch.State) :
    ∃ n, Within p (State.widen^[n] s) σ := by
  unfold Within
  cases p.sketch.holes.getLast? with
  | none => exact ⟨0, by simp⟩
  | some x =>
    refine ⟨(s.low - σ x).toNat + (σ x - s.high).toNat, fun y hy => ?_⟩
    cases hy
    rw [State.widen_iterate]
    push_cast
    omega

theorem Barred.widen (hs : Barred p s) (n : Nat) : Barred p (State.widen^[n] s) := by
  rw [State.widen_iterate]
  exact ⟨hs.ne_nil, hs.fills⟩

theorem candidate_widen (p : Problem) (s : State) (n : Nat) :
    p.candidate? (State.widen^[n] s) false = p.candidate? s false := by
  rw [State.widen_iterate]
  rfl

/-- If there is a filling at all, there is one within bounds that are wide enough. -/
theorem Barred.exists_widen (hs : Barred p s) (hsolver : p.solver.Decides) {g : Filling}
    (hg : p.candidate? s false = .ok (some g)) :
    ∃ n f, p.candidate? (State.widen^[n] s) true = .ok (some f) := by
  obtain ⟨φ, m, hφ, hm, -⟩ := candidate_eq_some hg
  obtain ⟨σ, hσ⟩ := (hsolver φ).mp ⟨m, hm⟩
  obtain ⟨n, hn⟩ := exists_within p s σ
  have hnarrows := (hs.widen n).narrows_asked
  have hasked : p.asked (State.widen^[n] s) false = .ok φ := by
    rw [State.widen_iterate]
    exact hφ
  rw [hasked] at hnarrows
  generalize hr : p.asked (State.widen^[n] s) true = r at hnarrows
  cases hnarrows with
  | @ok _ ψ hψ =>
    obtain ⟨m', hm'⟩ := (hsolver ψ).mpr ⟨σ, (hψ σ).mpr ⟨hσ, hn⟩⟩
    refine ⟨n, ?_⟩
    simp only [candidate_eq, hr, Except.map, hm', Option.map_some]
    exact ⟨_, rfl⟩

/-- If there is a filling at all, one is found after the bounds have been widened some times, with
nothing found before. -/
theorem Barred.exists_first (hs : Barred p s) (hsolver : p.solver.Decides) {g : Filling}
    (hg : p.candidate? s false = .ok (some g)) :
    ∃ n f, (∀ m < n, p.candidate? (State.widen^[m] s) true = .ok none) ∧
      p.candidate? (State.widen^[n] s) true = .ok (some f) := by
  classical
  have hexists := hs.exists_widen hsolver hg
  obtain ⟨f, hf⟩ := Nat.find_spec hexists
  refine ⟨Nat.find hexists, f, fun m hm => ?_, hf⟩
  rcases (hs.widen m).candidates hsolver with ⟨e, he, -⟩ | ⟨-, f?, -, hf?, -⟩
  · rw [candidate_widen, hg] at he
    cases he
  · cases f? with
    | none => exact hf?
    | some f' => exact absurd ⟨f', hf?⟩ (Nat.find_min hexists hm)

end Widening

section Leading

variable {σ : Type} {search : Search σ}

/-- A search goes from one state to another in the given number of steps, and tries the given
fillings on the way. -/
inductive Search.Leads (search : Search σ) : σ → List Filling → Nat → σ → Prop
  | here (a : σ) : Leads search a [] 0 a
  | step {a b c : σ} {fs gs : List Filling} {n : Nat} (h : search.next? a = some (fs, b))
      (hrest : Leads search b gs n c) : Leads search a (search.tried a ++ gs) (n + 1) c

theorem Search.Leads.kept {P : List Filling → σ → Prop}
    (hstep : ∀ {l a fs b}, P l a → search.next? a = some (fs, b) → P (l ++ search.tried a) b)
    {a b : σ} {fs : List Filling} {n : Nat} (h : search.Leads a fs n b) {l : List Filling}
    (hl : P l a) : P (l ++ fs) b := by
  induction h generalizing l with
  | here a =>
    rw [List.append_nil]
    exact hl
  | step hnext _ ih =>
    rw [← List.append_assoc]
    exact ih (hstep hl hnext)

variable {p : Problem} {retry : Bool} {s s' : State} {f g : Filling}

theorem runWithin_of_next? {a b : Bool × State} {fs : List Filling}
    (h : p.byRounds.next? a = some (fs, b)) (fuel : Nat) :
    p.runWithin (fuel + 1) a.1 a.2 = p.runWithin fuel b.1 b.2 := by
  obtain ⟨retry, s⟩ := a
  rw [runWithin_eq_outcome]
  simp only [Problem.byRounds] at h
  cases hturn : p.turn retry s with
  | error e =>
    rw [hturn] at h
    cases h
  | ok turn =>
    rw [hturn] at h
    cases turn <;> cases h <;> rfl

theorem Search.Leads.runWithin_eq {a b : Bool × State} {fs : List Filling} {n : Nat}
    (h : p.byRounds.Leads a fs n b) (fuel : Nat) :
    p.runWithin (n + fuel) a.1 a.2 = p.runWithin fuel b.1 b.2 := by
  induction h with
  | here a => rw [Nat.zero_add]
  | step hnext _ ih => rw [Nat.add_right_comm, runWithin_of_next? hnext, ih]

/-- If there is a filling at all, a round goes on with the search for one. -/
theorem Tried.turn_eq (h : Tried p retry s s') (hg : p.candidate? s' false = .ok (some g)) :
    p.turn retry s = p.seek s' := by
  cases h with
  | again => exact turn_of_some hg
  | learned hm => exact turn_of_refuted hm

theorem Tried.leads (h : Tried p retry s s') (hg : p.candidate? s' false = .ok (some g)) {n : Nat}
    (hnone : ∀ m < n, p.candidate? (State.widen^[m] s') true = .ok none)
    (hf : p.candidate? (State.widen^[n] s') true = .ok (some f)) :
    p.byRounds.Leads (retry, s) (p.byRounds.tried (retry, s)) (n + 1)
      (f.same s'.filling, { State.widen^[n] s' with filling := f }) := by
  rw [← List.append_nil (p.byRounds.tried (retry, s))]
  induction n generalizing retry s s' with
  | zero =>
    have hseek : p.seek s' = .ok (.refilled (f.same s'.filling) { s' with filling := f }) :=
      seek_of_some hf
    have hnext : p.byRounds.next? (retry, s) =
        some ([f], (f.same s'.filling, { s' with filling := f })) := by
      simp only [Problem.byRounds, h.turn_eq hg, hseek]
    exact .step hnext (.here _)
  | succ n ih =>
    have hseek : p.seek s' = .ok (.widened s'.widen) := seek_of_none (hnone 0 n.succ_pos)
    have hnext : p.byRounds.next? (retry, s) = some ([], (true, s'.widen)) := by
      simp only [Problem.byRounds, h.turn_eq hg, hseek]
    have hg' : p.candidate? s'.widen false = .ok (some g) := (candidate_widen p s' 1).trans hg
    have hnone' : ∀ m < n, p.candidate? (State.widen^[m] s'.widen) true = .ok none := by
      intro m hm
      rw [← Function.iterate_succ_apply]
      exact hnone (m + 1) (Nat.succ_lt_succ hm)
    rw [Function.iterate_succ_apply] at hf ⊢
    exact .step hnext (ih .again hg' hnone' hf)

/-- From each state of a search in which there is a new filling at all, the bounds are widened
finitely often, with nothing found and nothing tried, until one is found. It differs from all that
have been tried, and the search goes on with it. -/
theorem widening_ends (hsolver : p.solver.Exact) {session : Session} {limit : Int} {program : String}
    (hsketch : (Sketch.prepare session limit program).result = .ok p.sketch)
    {fs : List Filling} {k : Nat}
    (hreach : p.byRounds.Leads (false, .initial p.sketch.holes) fs k (retry, s))
    (htried : Tried p retry s s') (hg : p.candidate? s' false = .ok (some g)) :
    ∃ n f, (∀ m < n, p.candidate? (State.widen^[m] s') true = .ok none) ∧
      p.candidate? (State.widen^[n] s') true = .ok (some f) ∧
      Distinct p.sketch.holes (fs ++ p.byRounds.tried (retry, s) ++ [f]) ∧
      p.byRounds.Leads (retry, s) (p.byRounds.tried (retry, s)) (n + 1)
        (false, { State.widen^[n] s' with filling := f }) ∧
      ∀ fuel, p.runWithin (n + 1 + fuel) retry s =
        p.runWithin fuel false { State.widen^[n] s' with filling := f } := by
  obtain ⟨hnames, -, _, _, -, -, -, -, hshows⟩ := Sketch.shows_of_prepare hsketch
  have hnodup : p.sketch.holes.Nodup := by
    rw [hnames]
    exact nodup_holes program
  have hfaithful : p.solver.Faithful := hsolver.faithful
  have hkept : Past p ([] ++ fs) (retry, s) := hreach.kept (P := Past p)
    (fun hl hnext => (hl.next hshows.isHole hnodup hfaithful hnext).1)
    (past_initial hshows.isHole hnodup)
  have hpast : Past p (fs ++ p.byRounds.tried (retry, s)) (true, s') := hkept.of_tried htried
  have hbarred : Barred p s' := by
    obtain ⟨heq, hdistinct, hlast⟩ := hpast
    rw [heq] at hdistinct hlast
    exact ⟨List.ne_nil_of_mem hlast, fun f hf => (hdistinct.assigns f hf).toFills⟩
  obtain ⟨n, f, hnone, hf⟩ := hbarred.exists_first hsolver.decides hg
  have hwide : Past p (fs ++ p.byRounds.tried (retry, s)) (true, State.widen^[n] s') := by
    rw [State.widen_iterate]
    exact hpast
  obtain ⟨hsame, hnew⟩ := hwide.of_candidate hshows.isHole hnodup hfaithful hf
  have hleads := htried.leads hg hnone hf
  have hfilling : (State.widen^[n] s').filling = s'.filling := by rw [State.widen_iterate]
  rw [← hfilling, hsame] at hleads
  exact ⟨n, f, hnone, hf, hnew.distinct, hleads, fun fuel => hleads.runWithin_eq fuel⟩

end Leading

section Far

def setHole : Stmt :=
  .assign "x" (.var "hole_0")

def isThirty : Condition :=
  .operate .eq (.var "x") (.int 30)

noncomputable def thirtyProblem (sketch : Sketch) : Problem :=
  ⟨Solver.ideal, ⟨Condition.eval (.bool true), isThirty.eval, Condition.eval (.bool true)⟩, sketch⟩

theorem nameAll_setHole : nameAll "x := ??" = (setHole.text, ["hole_0"]) := by
  decide

theorem posed_setHole : ∃ sketch,
    (Sketch.prepare skipSession 10 "x := ??").result = .ok sketch ∧ sketch.holes = ["hole_0"] ∧
      Posed (thirtyProblem sketch) 10 setHole (.bool true) isThirty (.bool true) := by
  obtain ⟨sketch, hsketch⟩ : ∃ sketch,
      (Sketch.prepare skipSession 10 "x := ??").result = .ok sketch := by
    have hhole : (Stmt.assign "x" .hole).Legible :=
      Stmt.legible_assign.mpr ⟨by decide, OperandText.hole.legible_expr⟩
    have hnamed : setHole.Legible :=
      Stmt.legible_assign.mpr ⟨by decide, Expr.legible_var.mpr (by decide)⟩
    exact Sketch.exists_prepare (by simp [skipSession]) (.assign "x" .hole) (.assign "x" .hole)
      (.assign "x" (.var "hole_0")) rfl (by decide) ⟨hhole, hhole, hnamed⟩ rfl (by decide)
      nameAll_setHole (by decide) 10
  have hnames : ∀ x ∈ setHole.vars, isName x = true := by decide
  obtain ⟨hholes, hshows, -⟩ :=
    Sketch.prepare_text hsketch rfl hnames rfl (congrArg Prod.fst nameAll_setHole)
  refine ⟨sketch, hsketch, ?_, hshows, rfl, rfl, rfl, .bool true, ?_, .bool true⟩
  · rw [hholes, nameAll_setHole]
  · exact .compare rfl (.var (by decide)) (.int 30)

theorem weakest_setHole {names : List String} {inv : WhileSketch.State → Prop}
    {σ : WhileSketch.State} :
    (setHole.unrolled 10).Weakest names inv isThirty.Holds σ ↔ σ "hole_0" = 30 := by
  simp [setHole, isThirty, Stmt.unrolled, Stmt.Weakest, Condition.Holds, Condition.value,
    Operator.Compares, Expr.value]

variable {sketch : Sketch}
  (hposed : Posed (thirtyProblem sketch) 10 setHole (.bool true) isThirty (.bool true))
include hposed

theorem exists_candidate_setHole : ∃ g, (thirtyProblem sketch).candidate?
    (Problem.learn (.initial ["hole_0"]) []) false = .ok (some g) := by
  obtain ⟨v, hv⟩ : ∃ v, (thirtyProblem sketch).query (Problem.learn (.initial ["hole_0"]) []) false
      (Env.symbolic (presetOnce 10 setHole []).names) = .ok v := ⟨_, rfl⟩
  refine hposed.exists_candidate Solver.ideal_exact.sound (σ := fun _ => 30)
    (by simp [Problem.learn]) (by decide) ?_ hv ?_ (by simp [Problem.learn]) (weakest_setHole.mpr rfl)
  · exact Stmt.legible_assign.mpr ⟨by decide, Expr.legible_var.mpr (by decide)⟩
  · simp [Asked, Problem.learn, State.initial, zeros, Condition.Holds]

variable (hholes : sketch.holes = ["hole_0"])
include hholes

theorem counterexample_setHole :
    (thirtyProblem sketch).counterexample? (zeros ["hole_0"]) = .ok (some []) := by
  have hexact := Solver.ideal_exact
  have hfills : Fills (zeros ["hole_0"]) (thirtyProblem sketch).sketch.holes := by
    rw [thirtyProblem, hholes]
    exact fills_zeros (by decide)
  have hlegible : ((setHole.unrolled 10).fill (zeros ["hole_0"])).Legible :=
    Stmt.legible_assign.mpr ⟨by decide, Expr.legible_num.mpr (by decide)⟩
  obtain ⟨m, hm⟩ : ∃ m, (thirtyProblem sketch).counterexample? (zeros ["hole_0"]) = .ok (some m) := by
    refine hposed.exists_counterexample hexact.sound (σ := fun _ => 0) hfills.isHole ?_ (by decide)
      hlegible rfl ?_ ?_
    · decide
    · intro x k hx
      obtain ⟨rfl, rfl⟩ := List.mem_singleton.mp (mem_of_lookup hx)
      rfl
    · rw [weakest_setHole]
      decide
  obtain ⟨-, hkeys⟩ := hposed.learned_live hexact.faithful hfills hm
  have hlive : ∀ x ∈ (Condition.bool true).vars ++ liveOnce 10 setHole isThirty (.bool true),
      isHole x = true := by
    decide
  cases m with
  | nil => exact hm
  | cons e m =>
    obtain ⟨hx, hhole⟩ := (hkeys e.1).mp List.mem_cons_self
    rw [hlive _ (List.mem_append.mpr hx)] at hhole
    cases hhole

theorem thirty_le_of_candidate {s : State} (hs : s.counterexample = []) {f : Filling}
    (hf : (thirtyProblem sketch).candidate? s true = .ok (some f)) : 30 ≤ s.high := by
  obtain ⟨τ, hfound⟩ := hposed.found Solver.ideal_exact.faithful (by simp [hs]) (by simp [hs]) hf
  have hthirty := weakest_setHole.mp hfound.succeeds
  rw [hs] at hthirty
  have hbounds := hfound.asked.2.2 rfl "hole_0" (by simp [thirtyProblem, hholes])
  simp only [thirtyProblem, hholes] at hbounds
  exact hthirty ▸ hbounds.2

end Far

/-- The bounds are widened twice before thirty is found, and zero is all that has been tried. -/
theorem widening_ends_setHole : ∃ sketch g,
    (Sketch.prepare skipSession 10 "x := ??").result = .ok sketch ∧
      (thirtyProblem sketch).counterexample? (zeros ["hole_0"]) = .ok (some []) ∧
      (thirtyProblem sketch).candidate? (Problem.learn (.initial ["hole_0"]) []) false =
        .ok (some g) ∧
      ∃ n f, 2 ≤ n ∧
        (∀ m < n, (thirtyProblem sketch).candidate?
          (State.widen^[m] (Problem.learn (.initial ["hole_0"]) [])) true = .ok none) ∧
        (thirtyProblem sketch).byRounds.Leads (false, .initial ["hole_0"]) [zeros ["hole_0"]] (n + 1)
          (false, { State.widen^[n] (Problem.learn (.initial ["hole_0"]) []) with filling := f }) := by
  obtain ⟨sketch, hsketch, hholes, hposed⟩ := posed_setHole
  have hzero := counterexample_setHole hposed hholes
  obtain ⟨g, hg⟩ := exists_candidate_setHole hposed
  have hstart : (thirtyProblem sketch).byRounds.Leads
      (false, .initial (thirtyProblem sketch).sketch.holes) [] 0 (false, .initial ["hole_0"]) := by
    rw [thirtyProblem, hholes]
    exact .here _
  obtain ⟨n, f, hnone, hf, -, hleads, -⟩ :=
    widening_ends Solver.ideal_exact hsketch hstart (.learned hzero) hg
  refine ⟨sketch, g, hsketch, hzero, hg, n, f, ?_, hnone, hleads⟩
  rw [State.widen_iterate] at hf
  have hhigh := thirty_le_of_candidate hposed hholes rfl hf
  simp only [Problem.learn, State.initial] at hhigh
  omega

end WhileSketch.Refinement
