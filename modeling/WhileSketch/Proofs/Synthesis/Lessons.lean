import Mathlib
import WhileSketch.Proofs.Synthesis.ByExample
import WhileSketch.Proofs.Synthesis.History

/-! What a search learns from an input for which a filling fails. With the filling that comes next, the
program succeeds from this input. It may fail again from the inputs before it: they are forgotten. -/

namespace WhileSketch.Refinement

open While Holes

section Handled

variable {p : Problem} {limit : Int} {c : Stmt} {P Q I : Condition} {g f : Filling}

/-- With a filling, a program succeeds from an input: its weakest precondition is satisfied in each
state that agrees with both. -/
def Handles (task : Task) (m : Settings) (f : Filling) : Prop :=
  ∀ σ, (∀ e ∈ m, σ e.1 = e.2) → f.Agrees σ → task.WeakestHolds σ

theorem Posed.weakestHolds_iff (h : Posed p limit c P Q I) {u : Tree Label}
    (hu : StmtTree (c.unrolled limit) u) (hid : "id" ∉ c.vars) {pre : Assertion}
    {σ : WhileSketch.State} :
    Task.WeakestHolds ⟨u, pre, Q.eval, I.eval⟩ σ ↔
      (c.unrolled limit).Weakest c.names I.Holds Q.Holds σ := by
  have hloop : (c.unrolled limit).isLoopFree = true := Stmt.isLoopFree_unrolled h.isFlat
  have hsorted : (c.unrolled limit).isSorted = true := by rw [Stmt.isSorted_unrolled, h.isSorted]
  have hvars : ∀ x ∈ programVars c, x ∈ (c.unrolled limit).vars :=
    fun x hx => Stmt.mem_vars_unrolled.mpr (List.mem_filter.mp hx).1
  rw [hu.weakestHolds_iff hsorted (Stmt.eval_expresses (h.post.mono hvars))
    (Stmt.eval_expresses (h.invariant.mono hvars)), Stmt.mem_vars_unrolled,
    Stmt.weakest_iff_run (n := ⊤) hloop, Stmt.weakest_iff_run (n := ⊤) hloop]
  exact and_iff_right ⟨hid, .inl hloop⟩

theorem Posed.handles (h : Posed p limit c P Q I) (hsolver : p.solver.Faithful) {u : Tree Label}
    (hu : StmtTree (c.unrolled limit) u) {s : State} (hg : Fills g p.sketch.holes)
    (hm : p.counterexample? g = .ok (some s.counterexample)) {bounded : Bool}
    (hf : p.candidate? s bounded = .ok (some f)) :
    Handles ⟨u, P.eval, Q.eval, I.eval⟩ s.counterexample f := by
  obtain ⟨hnodup, hkeys⟩ := h.learned_live hsolver hg hm
  have hlearned := (h.refuted hsolver hg hm).2
  obtain ⟨τ, hfound⟩ := h.found hsolver hlearned.isName hlearned.notHole hf
  obtain ⟨_, _, hpreset, hsuccess, -⟩ := h.answered hlearned.isName hf
  have hid : "id" ∉ c.vars :=
    fun hid => (Task.of_success_ok hpreset hsuccess).1 (mem_vars_presetOnce hid)
  have hnames : ∀ {X : Condition}, X.IsTruth (programVars c) → X.IsTruth c.names := fun hX =>
    hX.mono fun y hy => Stmt.mem_names.mpr (List.mem_filter.mp hy).1
  intro σ hσ hagree
  rw [h.weakestHolds_iff hu hid]
  refine (Stmt.weakest_congr ?_ ?_ (.inl (Stmt.isLoopFree_unrolled h.isFlat)) (hnames h.post)
    (hnames h.invariant) ?_).mp hfound.succeeds
  · rw [Stmt.isSorted_unrolled, h.isSorted]
  · exact fun y hy => Stmt.mem_names.mpr (Stmt.mem_vars_unrolled.mp hy)
  · intro x hx
    cases hhole : isHole x with
    | false =>
      obtain ⟨e, he, rfl⟩ := List.mem_map.mp ((hkeys x).mpr ⟨.inr hx, hhole⟩)
      rw [assignAll_of_mem hnodup he, hσ e he]
    | true =>
      rw [assignAll_of_not_mem, hagree x _ (hfound.lookup x hx hhole)]
      rintro e he rfl
      rw [hlearned.notHole e he] at hhole
      cases hhole

end Handled

section Runs

variable {p : Problem} {limit : Int} {c : Stmt} {P Q I : Condition} {u : Tree Label}

/-- A filling fails for an input that the next one handles. -/
def Improves (p : Problem) (task : Task) (g f : Filling) : Prop :=
  ∃ m, p.counterexample? g = .ok (some m) ∧ Handles task m f

/-- What is known of the past in a round: each filling was followed by one that improves on it; in a
retry, the last filling has failed for the input that is remembered. -/
def Taught (p : Problem) (task : Task) (l : List Filling) : Bool × State → Prop
  | (false, s) => Past p l (false, s) ∧ (l ++ [s.filling]).IsChain (Improves p task)
  | (true, s) => Past p l (true, s) ∧ l.IsChain (Improves p task) ∧ l.getLast? = some s.filling ∧
      p.counterexample? s.filling = .ok (some s.counterexample)

variable {task : Task} {l : List Filling} {a : Bool × State} {retry : Bool} {s : State}

theorem Taught.past (h : Taught p task l a) : Past p l a := by
  obtain ⟨retry, s⟩ := a
  cases retry with
  | false => exact h.1
  | true => exact h.1

theorem Taught.isChain (h : Taught p task l a) :
    (l ++ p.byRounds.tried a).IsChain (Improves p task) := by
  obtain ⟨retry, s⟩ := a
  cases retry with
  | false => exact h.2
  | true => simpa [Problem.byRounds] using h.2.1

theorem Taught.of_tried (h : Taught p task l (retry, s)) {s' : State} (hs' : Tried p retry s s') :
    Taught p task (l ++ p.byRounds.tried (retry, s)) (true, s') := by
  have hpast := h.past.of_tried hs'
  cases hs' with
  | again =>
    simp only [Problem.byRounds, ↓reduceIte, List.append_nil]
    exact h
  | learned hm => exact ⟨hpast, h.2, List.getLast?_concat, hm⟩

/-- A step keeps what is known of the past: a new filling improves on the last. -/
theorem Posed.taught_next (h : Posed p limit c P Q I) (hsolver : p.solver.Faithful)
    (hnodup : p.sketch.holes.Nodup) (hu : StmtTree (c.unrolled limit) u) {fs : List Filling}
    {b : Bool × State} (hl : Taught p ⟨u, P.eval, Q.eval, I.eval⟩ l a)
    (hnext : p.byRounds.next? a = some (fs, b)) :
    Taught p ⟨u, P.eval, Q.eval, I.eval⟩ (l ++ p.byRounds.tried a) b := by
  obtain ⟨retry, s⟩ := a
  obtain ⟨s', hs', ⟨-, -, rfl⟩ | ⟨f, hf, -, rfl⟩⟩ := byRounds_next? hnext
  · have hwide := hl.of_tried hs'
    exact hwide
  · obtain ⟨hpast, hchain, hlast, hm⟩ := hl.of_tried hs'
    obtain ⟨hsame, hpast'⟩ := hpast.of_candidate h.shows.isHole hnodup hsolver hf
    have hfills := (hpast.2.1.assigns _ hpast.2.2).toFills
    rw [hsame]
    refine ⟨hpast', List.isChain_append.mpr ⟨hchain, List.isChain_singleton f, ?_⟩⟩
    intro g hg f' hf'
    rw [hlast] at hg
    cases hg
    cases hf'
    exact ⟨s'.counterexample, hm, h.handles hsolver hu hfills hm hf⟩

theorem Posed.isChain_tries (h : Posed p limit c P Q I) (hsolver : p.solver.Faithful)
    (hnodup : p.sketch.holes.Nodup) (hu : StmtTree (c.unrolled limit) u) (n : Nat) :
    (p.byRounds.tries (n + 1) (false, .initial p.sketch.holes)).IsChain
      (Improves p ⟨u, P.eval, Q.eval, I.eval⟩) := by
  have hinitial : Taught p ⟨u, P.eval, Q.eval, I.eval⟩ [] (false, .initial p.sketch.holes) := by
    refine ⟨⟨rfl, ?_, List.pairwise_singleton _ _⟩, List.isChain_singleton _⟩
    intro f hf
    rw [List.mem_singleton.mp hf]
    exact assigns_zeros h.shows.isHole hnodup
  exact Search.tries_of_step Taught.isChain (h.taught_next hsolver hnodup hu) hinitial n

/-- Each filling that is proposed in a search handles the input for which the one before it failed: the
weakest precondition of the program with its loops unrolled is satisfied in each state that agrees with
the input and the filling. -/
theorem proposed_handles_last {solver : Solver} (hsolver : solver.Faithful) {session : Session}
    {limit : Int} {program : String} {t : Tree Label}
    (ht : parse (nameAll program).1 = .ok (some t)) (hs : (Stmt.ofTree t).isSorted = true)
    (hflat : (Stmt.ofTree t).isFlat = true) {P Q I : Condition}
    (hP : P.IsTruth (programVars (Stmt.ofTree t))) (hQ : Q.IsTruth (programVars (Stmt.ofTree t)))
    (hI : I.IsTruth (programVars (Stmt.ofTree t))) {sketch : Sketch}
    (hsketch : (Sketch.prepare session limit program).result = .ok sketch) :
    ∃ u, unroll limit t = .ok u ∧ ∀ n,
      (zeros (nameAll program).2 :: (Problem.byRounds ⟨solver, ⟨P.eval, Q.eval, I.eval⟩, sketch⟩).proposals
        n (false, .initial sketch.holes)).IsChain fun g f =>
          ∃ m, Problem.counterexample? ⟨solver, ⟨P.eval, Q.eval, I.eval⟩, sketch⟩ g = .ok (some m) ∧
            Handles ⟨u, P.eval, Q.eval, I.eval⟩ m f := by
  obtain ⟨hholes, htext, t', u, ht', hu, -, hutree, hshows⟩ := Sketch.shows_of_prepare hsketch
  rw [htext, ht] at ht'
  cases ht'
  have hnodup : sketch.holes.Nodup := by
    rw [hholes]
    exact nodup_holes program
  have hposed : Posed ⟨solver, ⟨P.eval, Q.eval, I.eval⟩, sketch⟩ limit (Stmt.ofTree t) P Q I :=
    ⟨hshows, hs, hflat, rfl, hP, hQ, hI⟩
  refine ⟨u, hu, fun n => ?_⟩
  have hfresh := Problem.fresh_byRounds (p := ⟨solver, ⟨P.eval, Q.eval, I.eval⟩, sketch⟩)
    hshows.isHole hnodup hsolver
  rw [← hholes]
  have hchain := hposed.isChain_tries hsolver hnodup hutree n
  obtain ⟨rest, hrest⟩ := hfresh.tried n
  rw [← hrest] at hchain
  exact hchain.left_of_append

theorem proposed_handles_last_plusHole : ∃ sketch t u,
    (Sketch.prepare skipSession 10 "y := (x + ??)").result = .ok sketch ∧
      parse plusHole.text = .ok (some t) ∧ unroll 10 t = .ok u ∧
      (plusProblem sketch).byRounds.proposals 2 (false, .initial sketch.holes) =
        [[("hole_0", 1)], [("hole_0", 2)]] ∧
      Handles ⟨u, oneOrTwo.eval, twoOrDouble.eval, Condition.eval (.bool true)⟩
        [("x", 1)] [("hole_0", 1)] ∧
      Handles ⟨u, oneOrTwo.eval, twoOrDouble.eval, Condition.eval (.bool true)⟩
        [("x", 2)] [("hole_0", 2)] := by
  obtain ⟨sketch, t, hsketch, hholes, ht, htree, hposed⟩ := posed_plusHole
  have hproposals := proposals_plusHole hposed hholes
  obtain ⟨hzero, hone⟩ := counterexamples_plusHole hposed hholes
  rw [← htree.ofTree_eq] at hposed
  obtain ⟨u, hu, hchain⟩ := proposed_handles_last Solver.ideal_exact.faithful
    (by rw [nameAll_plusHole]; exact ht) hposed.isSorted hposed.isFlat hposed.pre hposed.post
    hposed.invariant hsketch
  have hchain := hchain 2
  change List.IsChain _ (_ :: (plusProblem sketch).byRounds.proposals 2 _) at hchain
  rw [hproposals, nameAll_plusHole, List.isChain_cons_cons, List.isChain_cons_cons] at hchain
  obtain ⟨⟨m, hm, hfirst⟩, ⟨m', hm', hsecond⟩, -⟩ := hchain
  cases hzero.symm.trans hm
  cases hone.symm.trans hm'
  exact ⟨sketch, t, u, hsketch, ht, hu, hproposals, hfirst, hsecond⟩

/-- The filling after the next may fail again for an input that the next one handles: for the sum, zero
fails for one, so one is tried; it fails for two, so two is tried; and this fails for one. -/
theorem proposed_fails_first : ∃ sketch t u,
    (Sketch.prepare skipSession 10 "y := (x + ??)").result = .ok sketch ∧
      parse plusHole.text = .ok (some t) ∧ unroll 10 t = .ok u ∧
      (plusProblem sketch).byRounds.proposals 2 (false, .initial sketch.holes) =
        [[("hole_0", 1)], [("hole_0", 2)]] ∧
      (plusProblem sketch).counterexample? (zeros ["hole_0"]) = .ok (some [("x", 1)]) ∧
      (plusProblem sketch).counterexample? [("hole_0", 1)] = .ok (some [("x", 2)]) ∧
      ∀ σ, σ "x" = 1 → Filling.Agrees [("hole_0", 2)] σ → ¬ Task.WeakestHolds
        ⟨u, oneOrTwo.eval, twoOrDouble.eval, Condition.eval (.bool true)⟩ σ := by
  obtain ⟨sketch, t, hsketch, hholes, ht, htree, hposed⟩ := posed_plusHole
  obtain ⟨hzero, hone⟩ := counterexamples_plusHole hposed hholes
  obtain ⟨-, htext, t', u, ht', hu, -, hutree, -⟩ := Sketch.shows_of_prepare hsketch
  rw [htext, nameAll_plusHole, ht] at ht'
  cases ht'
  rw [htree.ofTree_eq] at hutree
  refine ⟨sketch, t, u, hsketch, ht, hu, proposals_plusHole hposed hholes, hzero, hone, ?_⟩
  intro σ hx hagree
  rw [hposed.weakestHolds_iff hutree (by decide), weakest_plusHole, hx, hagree "hole_0" 2 rfl]
  unfold Suits
  omega

end Runs

end WhileSketch.Refinement
