import Mathlib
import WhileSketch.Synthesis.Stepping
import WhileSketch.Proofs.Synthesis.Answers

/-! The fillings that a search tries, by rounds and by steps. No two of them are the same, and each one
that is proposed is tried next. -/

namespace WhileSketch.Refinement

open While Holes

section Searches

/-- A search that goes from state to state: what is tried in each, and what comes after it, with the
fillings that are proposed then. -/
structure Search (σ : Type) where
  tried : σ → List Filling
  next? : σ → Option (List Filling × σ)

variable {σ : Type} {search : Search σ}

def Search.tries (search : Search σ) : Nat → σ → List Filling
  | 0, _ => []
  | n + 1, a => search.tried a ++ (search.next? a).elim [] fun (_, b) => search.tries n b

def Search.proposals (search : Search σ) : Nat → σ → List Filling
  | 0, _ => []
  | n + 1, a => (search.next? a).elim [] fun (fs, b) => fs ++ search.proposals n b

/-- Fillings that give one value to each hole, and are all different. -/
structure Distinct (holes : List String) (fs : List Filling) : Prop where
  assigns : ∀ f ∈ fs, Assigns f holes
  differ : fs.Pairwise Differ

theorem Distinct.concat {holes : List String} {fs : List Filling} (h : Distinct holes fs)
    {f : Filling} (hf : Assigns f holes) (hdiffer : ∀ g ∈ fs, Differ f g) :
    Distinct holes (fs ++ [f]) where
  assigns g hg := by
    rcases List.mem_append.mp hg with hg | hg
    · exact h.assigns g hg
    · rw [List.mem_singleton.mp hg]
      exact hf
  differ := by
    rw [List.pairwise_append]
    refine ⟨h.differ, List.pairwise_singleton _ _, fun g hg g' hg' => ?_⟩
    rw [List.mem_singleton.mp hg']
    exact (hdiffer g hg).symm

/-- What is tried in so many states is distinct. It is what has been proposed before, in the same
order, and what is proposed is tried in the state that comes next. -/
structure Fresh (holes : List String) (tries proposals : Nat → List Filling) : Prop where
  distinct : ∀ n, Distinct holes (tries n)
  proposed : ∀ n, tries n <+: proposals n
  tried : ∀ n, proposals n <+: tries (n + 1)

variable {holes : List String} {past : List Filling → σ → Prop}

/-- What is true of all that has been tried in each state, and is kept by each step, is true of a
run. -/
theorem Search.tries_of_step {good : List Filling → Prop}
    (hgood : ∀ {l a}, past l a → good (l ++ search.tried a))
    (hstep : ∀ {l a fs b}, past l a → search.next? a = some (fs, b) → past (l ++ search.tried a) b)
    {l : List Filling} {a : σ} (h : past l a) (n : Nat) : good (l ++ search.tries (n + 1) a) := by
  induction n generalizing l a with
  | zero =>
    cases hnext : search.next? a with
    | none => simpa [Search.tries, hnext] using hgood h
    | some next => simpa [Search.tries, hnext] using hgood h
  | succ n ih =>
    rw [Search.tries]
    cases hnext : search.next? a with
    | none => simpa using hgood h
    | some next =>
      rw [← List.append_assoc]
      exact ih (hstep h hnext)

theorem Search.proposals_tried
    (hstep : ∀ {l a fs b}, past l a → search.next? a = some (fs, b) →
      past (l ++ search.tried a) b ∧ fs = search.tried b)
    {l : List Filling} {a : σ} (h : past l a) (n : Nat) :
    search.tries n a <+: search.tried a ++ search.proposals n a ∧
      search.tried a ++ search.proposals n a <+: search.tries (n + 1) a := by
  induction n generalizing l a with
  | zero =>
    refine ⟨List.nil_prefix, ?_⟩
    rw [Search.proposals, List.append_nil, Search.tries]
    exact List.prefix_append _ _
  | succ n ih =>
    rw [Search.tries, Search.tries, Search.proposals]
    cases hnext : search.next? a with
    | none => exact ⟨List.prefix_rfl, List.prefix_rfl⟩
    | some next =>
      obtain ⟨hb, hfs⟩ := hstep h hnext
      obtain ⟨hbelow, habove⟩ := ih hb
      rw [← hfs] at hbelow habove
      exact ⟨(List.prefix_append_right_inj _).mpr hbelow, (List.prefix_append_right_inj _).mpr habove⟩

/-- A search is fresh if each step keeps what is known of the past, and proposes what is tried
next. -/
theorem Search.fresh (hgood : ∀ {l a}, past l a → Distinct holes (l ++ search.tried a))
    (hstep : ∀ {l a fs b}, past l a → search.next? a = some (fs, b) →
      past (l ++ search.tried a) b ∧ fs = search.tried b)
    {a : σ} (h : past [] a) :
    Fresh holes (fun n => search.tries n a) fun n => search.tried a ++ search.proposals n a where
  distinct n := by
    cases n with
    | zero => exact ⟨nofun, .nil⟩
    | succ n =>
      exact Search.tries_of_step hgood (fun hl hnext => (hstep hl hnext).1) h n
  proposed n := (Search.proposals_tried hstep h n).1
  tried n := (Search.proposals_tried hstep h n).2

end Searches

section Rounds

inductive Turn where
  | done (program : String)
  | widened (s : State)
  | refilled (retry : Bool) (s : State)

namespace Problem

def seek (p : Problem) (s : State) : Except Fault Turn := do
  match ← p.candidate? s true with
  | none => return .widened s.widen
  | some f => return .refilled (f.same s.filling) { s with filling := f }

def turn (p : Problem) : Bool → State → Except Fault Turn
  | false, s => do
    match ← p.counterexample? s.filling with
    | none => return .done (p.filled s.filling)
    | some m => p.seek (learn s m)
  | true, s => do
    match ← p.candidate? s false with
    | none => throw .notVerified
    | some _ => p.seek s

/-- A search is one round, and the search from what that comes to. -/
theorem runWithin_succ (p : Problem) (fuel : Nat) (retry : Bool) (s : State) :
    p.runWithin (fuel + 1) retry s = (do
      match ← p.turn retry s with
      | .done program => return program
      | .widened t => p.runWithin fuel true t
      | .refilled again t => p.runWithin fuel again t) := by
  have hseek : ∀ s' : State, (do
      match ← p.candidate? s' true with
      | none => p.runWithin fuel true s'.widen
      | some f => p.runWithin fuel (f.same s'.filling) { s' with filling := f }) = (do
      match ← p.seek s' with
      | .done program => return program
      | .widened t => p.runWithin fuel true t
      | .refilled again t => p.runWithin fuel again t) := by
    intro s'
    unfold seek
    cases p.candidate? s' true with
    | error e => rfl
    | ok f? => cases f? <;> rfl
  rw [runWithin]
  cases retry with
  | true =>
    rw [turn]
    simp only [↓reduceIte, pure_bind]
    cases p.candidate? s false with
    | error e => rfl
    | ok f? =>
      cases f? with
      | none => rfl
      | some f => exact hseek s
  | false =>
    rw [turn]
    simp only [Bool.false_eq_true, ↓reduceIte, pure_bind]
    cases p.counterexample? s.filling with
    | error e => rfl
    | ok m? =>
      cases m? with
      | none => rfl
      | some m => exact hseek (learn s m)

def byRounds (p : Problem) : Search (Bool × State) where
  tried := fun (retry, s) => if retry then [] else [s.filling]
  next? := fun (retry, s) =>
    match p.turn retry s with
    | .ok (.widened t) => some ([], (true, t))
    | .ok (.refilled again t) => some ([t.filling], (again, t))
    | _ => none

end Problem

variable {p : Problem} {s t : State} {retry again : Bool}

theorem seek_eq_ok {r : Turn} (h : p.seek s = .ok r) :
    (p.candidate? s true = .ok none ∧ r = .widened s.widen) ∨
      ∃ f, p.candidate? s true = .ok (some f) ∧
        r = .refilled (f.same s.filling) { s with filling := f } := by
  obtain ⟨f?, hf, h⟩ := bind_eq_ok.mp h
  cases f? with
  | none =>
    cases h
    exact .inl ⟨hf, rfl⟩
  | some f =>
    cases h
    exact .inr ⟨f, hf, rfl⟩

theorem turn_eq_ok {r : Turn} (h : p.turn retry s = .ok r) :
    (∃ program, r = .done program) ∨ ∃ s', Tried p retry s s' ∧ p.seek s' = .ok r := by
  cases retry with
  | true =>
    obtain ⟨f?, hf, h⟩ := bind_eq_ok.mp h
    cases f? with
    | none => cases h
    | some f => exact .inr ⟨s, .again, h⟩
  | false =>
    obtain ⟨m?, hm, h⟩ := bind_eq_ok.mp h
    cases m? with
    | none =>
      cases h
      exact .inl ⟨_, rfl⟩
    | some m => exact .inr ⟨_, .learned hm, h⟩

theorem byRounds_next? {fs : List Filling} {b : Bool × State}
    (h : p.byRounds.next? (retry, s) = some (fs, b)) :
    ∃ s', Tried p retry s s' ∧
      ((p.candidate? s' true = .ok none ∧ fs = [] ∧ b = (true, s'.widen)) ∨
        ∃ f, p.candidate? s' true = .ok (some f) ∧ fs = [f] ∧
          b = (f.same s'.filling, { s' with filling := f })) := by
  simp only [Problem.byRounds] at h
  cases hturn : p.turn retry s with
  | error e =>
    rw [hturn] at h
    cases h
  | ok r =>
    rw [hturn] at h
    obtain ⟨program, rfl⟩ | ⟨s', hs', hseek⟩ := turn_eq_ok hturn
    · cases h
    · refine ⟨s', hs', ?_⟩
      obtain ⟨hnone, rfl⟩ | ⟨f, hf, rfl⟩ := seek_eq_ok hseek
      · cases h
        exact .inl ⟨hnone, rfl, rfl⟩
      · cases h
        exact .inr ⟨f, hf, rfl, rfl⟩

/-- What is known of the past in a round: it has been excluded, and what is to be tried is new; in a
retry, the last filling is one of the past. -/
def Past (p : Problem) (l : List Filling) : Bool × State → Prop
  | (false, s) => l = s.excluded ∧ Distinct p.sketch.holes (l ++ [s.filling])
  | (true, s) => l = s.excluded ∧ Distinct p.sketch.holes l ∧ s.filling ∈ l

theorem Past.distinct {l : List Filling} {a : Bool × State} (h : Past p l a) :
    Distinct p.sketch.holes (l ++ p.byRounds.tried a) := by
  obtain ⟨retry, s⟩ := a
  cases retry with
  | true => simpa [Problem.byRounds] using h.2.1
  | false => exact h.2

theorem Past.of_tried {l : List Filling} (h : Past p l (retry, s)) {s' : State}
    (hs' : Tried p retry s s') : Past p (l ++ p.byRounds.tried (retry, s)) (true, s') := by
  cases hs' with
  | again =>
    simp only [Problem.byRounds, ↓reduceIte, List.append_nil]
    exact h
  | learned hm =>
    obtain ⟨rfl, h⟩ := h
    exact ⟨rfl, h, List.mem_append_right _ List.mem_cons_self⟩

theorem past_initial (hholes : ∀ x ∈ p.sketch.holes, isHole x = true)
    (hnodup : p.sketch.holes.Nodup) : Past p [] (false, .initial p.sketch.holes) := by
  refine ⟨rfl, ?_, List.pairwise_singleton _ _⟩
  intro f hf
  rw [List.mem_singleton.mp hf]
  exact assigns_zeros hholes hnodup

variable (hholes : ∀ x ∈ p.sketch.holes, isHole x = true) (hnodup : p.sketch.holes.Nodup)
  (hsolver : p.solver.Faithful)
include hholes hnodup hsolver

/-- A filling that is found after all the past has been tried is new. -/
theorem Past.of_candidate {l : List Filling} (h : Past p l (true, s)) {bounded : Bool} {f : Filling}
    (hf : p.candidate? s bounded = .ok (some f)) :
    f.same s.filling = false ∧ Past p l (false, { s with filling := f }) := by
  obtain ⟨rfl, hdistinct, hlast⟩ := h
  have hdiffer : ∀ g ∈ s.excluded, Differ f g :=
    fun g hg => candidate_differs hsolver hf hg (hdistinct.assigns g hg)
  refine ⟨(hdiffer _ hlast).same_eq_false, rfl, ?_⟩
  exact hdistinct.concat (candidate_assigns hholes hnodup hsolver.honest hf) hdiffer

theorem Past.next {l fs : List Filling} {a b : Bool × State} (h : Past p l a)
    (hnext : p.byRounds.next? a = some (fs, b)) :
    Past p (l ++ p.byRounds.tried a) b ∧ fs = p.byRounds.tried b := by
  obtain ⟨retry, s⟩ := a
  obtain ⟨s', hs', ⟨-, rfl, rfl⟩ | ⟨f, hf, rfl, rfl⟩⟩ := byRounds_next? hnext
  · have hpast := h.of_tried hs'
    exact ⟨hpast, rfl⟩
  · obtain ⟨hsame, hpast⟩ := (h.of_tried hs').of_candidate hholes hnodup hsolver hf
    rw [hsame]
    exact ⟨hpast, rfl⟩

theorem Problem.fresh_byRounds : Fresh p.sketch.holes
    (fun n => p.byRounds.tries n (false, .initial p.sketch.holes))
    fun n => zeros p.sketch.holes :: p.byRounds.proposals n (false, .initial p.sketch.holes) :=
  Search.fresh Past.distinct (Past.next hholes hnodup hsolver) (past_initial hholes hnodup)

end Rounds

section Widening

variable {p : Problem} {s t : State} {f : Filling}

/-- A filling that is found within bounds that are widened until there is one. -/
inductive Seeks (p : Problem) : State → State → Filling → Prop
  | here {s : State} {f : Filling} (h : p.candidate? s true = .ok (some f)) : Seeks p s s f
  | wider {s t : State} {f : Filling} (h : p.candidate? s true = .ok none)
      (hwider : Seeks p s.widen t f) : Seeks p s t f

theorem Seeks.found (h : Seeks p s t f) : p.candidate? t true = .ok (some f) := by
  induction h with
  | here h => exact h
  | wider _ _ ih => exact ih

theorem Seeks.kept (h : Seeks p s t f) : { t with low := s.low, high := s.high } = s := by
  induction h with
  | here => rfl
  | @wider s t f _ _ ih =>
    have hwide := congrArg (fun u : State => { u with low := s.low, high := s.high }) ih
    exact hwide

end Widening

section Sum

variable {sketch : Sketch}
  (hposed : Posed (plusProblem sketch) 10 plusHole oneOrTwo twoOrDouble (.bool true))
  (hholes : sketch.holes = ["hole_0"])
include hposed hholes

theorem counterexamples_plusHole :
    (plusProblem sketch).counterexample? (zeros ["hole_0"]) = .ok (some [("x", 1)]) ∧
      (plusProblem sketch).counterexample? [("hole_0", 1)] = .ok (some [("x", 2)]) := by
  constructor
  · apply counterexample_plusHole hposed hholes (by decide)
    unfold Suits
    omega
  · apply counterexample_plusHole hposed hholes (by decide)
    unfold Suits
    omega

theorem proposals_plusHole :
    (plusProblem sketch).byRounds.proposals 2 (false, .initial sketch.holes) =
      [[("hole_0", 1)], [("hole_0", 2)]] := by
  obtain ⟨hzero, hone⟩ := counterexamples_plusHole hposed hholes
  have hnext : (plusProblem sketch).candidate?
      ⟨zeros ["hole_0"], [zeros ["hole_0"]], [("x", 1)], -5, 5⟩ true = .ok (some [("hole_0", 1)]) := by
    obtain ⟨v, hv⟩ : ∃ v, (plusProblem sketch).query ⟨zeros ["hole_0"], [zeros ["hole_0"]],
        [("x", 1)], -5, 5⟩ true (Env.symbolic ["hole_0", "x", "y"]) = .ok v := by
      simp only [plusProblem, Problem.query, hholes]
      exact ⟨_, rfl⟩
    refine candidate_plusHole hposed hholes [0] rfl rfl (by decide) (by decide) hv ?_
    unfold Suits
    simp only [List.mem_singleton]
    omega
  have hlast : (plusProblem sketch).candidate?
      ⟨[("hole_0", 1)], [zeros ["hole_0"], [("hole_0", 1)]], [("x", 2)], -5, 5⟩ true =
        .ok (some [("hole_0", 2)]) := by
    obtain ⟨v, hv⟩ : ∃ v, (plusProblem sketch).query ⟨[("hole_0", 1)],
        [zeros ["hole_0"], [("hole_0", 1)]], [("x", 2)], -5, 5⟩ true
        (Env.symbolic ["hole_0", "x", "y"]) = .ok v := by
      simp only [plusProblem, Problem.query, hholes]
      exact ⟨_, rfl⟩
    refine candidate_plusHole hposed hholes [0, 1] rfl rfl (by decide) (by decide) hv ?_
    unfold Suits
    simp only [List.mem_cons, List.not_mem_nil, or_false, true_and]
    omega
  have hfirst : (plusProblem sketch).turn false (.initial ["hole_0"]) = .ok (.refilled false
      ⟨[("hole_0", 1)], [zeros ["hole_0"]], [("x", 1)], -5, 5⟩) := by
    rw [Problem.turn, State.initial, hzero]
    change (plusProblem sketch).seek ⟨_, [zeros ["hole_0"]], _, _, _⟩ = _
    rw [Problem.seek, hnext]
    rfl
  have hsecond : (plusProblem sketch).turn false
      ⟨[("hole_0", 1)], [zeros ["hole_0"]], [("x", 1)], -5, 5⟩ = .ok (.refilled false
        ⟨[("hole_0", 2)], [zeros ["hole_0"], [("hole_0", 1)]], [("x", 2)], -5, 5⟩) := by
    rw [Problem.turn, hone]
    change (plusProblem sketch).seek ⟨_, [zeros ["hole_0"], [("hole_0", 1)]], _, _, _⟩ = _
    rw [Problem.seek, hlast]
    rfl
  simp [Search.proposals, Problem.byRounds, hholes, hfirst, hsecond]

end Sum

end WhileSketch.Refinement

namespace WhileSketch.Stepping

open Holes Refinement

def Phase.tried : Phase → List Filling
  | .trying _ s => [s.filling]
  | _ => []

def Event.proposed : Event → List Filling
  | .zeroed _ f | .refilled _ f => [f]
  | _ => []

def bySteps (rounds : Nat) (o : Order) : Search Phase where
  tried := Phase.tried
  next? := fun phase =>
    match advanceWithin rounds o phase with
    | .ok (.event e next) => some (e.proposed, next)
    | _ => none

theorem bySteps_next? {rounds : Nat} {o : Order} {phase next : Phase} {fs : List Filling}
    (h : (bySteps rounds o).next? phase = some (fs, next)) :
    ∃ e, advanceWithin rounds o phase = .ok (.event e next) ∧ fs = e.proposed := by
  simp only [bySteps] at h
  split at h
  · next e next' hnext =>
    cases h
    exact ⟨e, hnext, rfl⟩
  · cases h

theorem seeks_of_nextFilling {p : Problem} {fuel : Nat} {s t : Refinement.State} {f : Filling}
    (h : nextFilling p fuel s = .ok (t, f)) : Seeks p s t f := by
  induction fuel generalizing s with
  | zero => cases h
  | succ fuel ih =>
    obtain ⟨f?, hf, h⟩ := bind_eq_ok.mp h
    cases f? with
    | none => exact .wider hf (ih h)
    | some f =>
      cases h
      exact .here hf

inductive Step (rounds : Nat) (o : Order) : Phase → Except Fault Progress → Prop
  | started : Step rounds o .start (.ok (.event (.started o.program) .begun))
  | prepared {sketch : Sketch}
      (h : (Sketch.prepare o.session o.limit o.program).result = .ok sketch) :
      Step rounds o .begun
        (.ok (.event (.named sketch.text) (.named ⟨o.solver, o.spec, sketch⟩)))
  | unprepared {e : Fault} (h : (Sketch.prepare o.session o.limit o.program).result = .error e) :
      Step rounds o .begun (.error e)
  | zeroed (p : Problem) : Step rounds o (.named p)
      (.ok (.event (.zeroed (p.filled (zeros p.sketch.holes)) (zeros p.sketch.holes))
        (.trying p (.initial p.sketch.holes))))
  | verified {p : Problem} {s : Refinement.State} (h : p.counterexample? s.filling = .ok none) :
      Step rounds o (.trying p s) (.ok (.event (.checked true) (.verified p s)))
  | refuted {p : Problem} {s : Refinement.State} {m : Settings}
      (h : p.counterexample? s.filling = .ok (some m)) :
      Step rounds o (.trying p s) (.ok (.event (.checked false) (.refuted p s m)))
  | stuck {p : Problem} {s : Refinement.State} {e : Fault} (h : p.counterexample? s.filling = .error e) :
      Step rounds o (.trying p s) (.error e)
  | succeeded (p : Problem) (s : Refinement.State) : Step rounds o (.verified p s)
      (.ok (.event (.succeeded (p.filled s.filling)) (.finished (p.filled s.filling))))
  | learned (p : Problem) (s : Refinement.State) (m : Settings) : Step rounds o (.refuted p s m)
      (.ok (.event (.failed m s.filling) (.refining p (Problem.learn s m))))
  | exhausted {p : Problem} {s : Refinement.State} (h : p.candidate? s false = .ok none) :
      Step rounds o (.refining p s) (.ok (.event .exhausted (.exhausted p s)))
  | solvable {p : Problem} {s : Refinement.State} {f : Filling}
      (h : p.candidate? s false = .ok (some f)) :
      Step rounds o (.refining p s) (.ok (.event .searching (.searching p s)))
  | stumped {p : Problem} {s : Refinement.State} {e : Fault} (h : p.candidate? s false = .error e) :
      Step rounds o (.refining p s) (.error e)
  | resumed (p : Problem) (s : Refinement.State) :
      Step rounds o (.exhausted p s) (.ok (.event .searching (.searching p s)))
  | refilled {p : Problem} {s t : Refinement.State} {f : Filling}
      (h : nextFilling p rounds s = .ok (t, f)) : Step rounds o (.searching p s)
        (.ok (.event (.refilled (p.filled f) f) (if f.same s.filling then
          .searching p { t with filling := f } else .trying p { t with filling := f })))
  | lost {p : Problem} {s : Refinement.State} {e : Fault} (h : nextFilling p rounds s = .error e) :
      Step rounds o (.searching p s) (.error e)
  | returned (program : String) : Step rounds o (.finished program) (.ok (.final program))

theorem step (rounds : Nat) (o : Order) (phase : Phase) :
    Step rounds o phase (advanceWithin rounds o phase) := by
  cases phase with
  | start => exact .started
  | begun =>
    rw [advanceWithin]
    cases h : (Sketch.prepare o.session o.limit o.program).result with
    | error e => exact .unprepared h
    | ok sketch => exact .prepared h
  | named p => exact .zeroed p
  | trying p s =>
    rw [advanceWithin]
    cases h : p.counterexample? s.filling with
    | error e => exact .stuck h
    | ok m? =>
      cases m? with
      | none => exact .verified h
      | some m => exact .refuted h
  | verified p s => exact .succeeded p s
  | refuted p s m => exact .learned p s m
  | refining p s =>
    rw [advanceWithin]
    cases h : p.candidate? s false with
    | error e => exact .stumped h
    | ok f? =>
      cases f? with
      | none => exact .exhausted h
      | some f => exact .solvable h
  | exhausted p s => exact .resumed p s
  | searching p s =>
    rw [advanceWithin]
    cases h : nextFilling p rounds s with
    | error e => exact .lost h
    | ok found => exact .refilled h
  | finished program => exact .returned program

theorem Step.of_eq {rounds : Nat} {o : Order} {phase : Phase} {r : Except Fault Progress}
    (h : advanceWithin rounds o phase = r) : Step rounds o phase r :=
  h ▸ step rounds o phase

variable {p : Problem} {l : List Filling}

/-- What is known of the past in a phase of the search for a problem. -/
def PastPhase (p : Problem) (l : List Filling) : Phase → Prop
  | .start | .begun => l = []
  | .named q => q = p ∧ l = []
  | .trying q s => q = p ∧ Past p l (false, s)
  | .refuted q s _ => q = p ∧ l = s.excluded ++ [s.filling] ∧ Distinct p.sketch.holes l
  | .refining q s | .exhausted q s | .searching q s => q = p ∧ Past p l (true, s)
  | .verified _ _ | .finished _ => Distinct p.sketch.holes l

theorem PastPhase.distinct {phase : Phase} (h : PastPhase p l phase) :
    Distinct p.sketch.holes (l ++ phase.tried) := by
  have hnil : Distinct p.sketch.holes [] := ⟨nofun, .nil⟩
  cases phase with
  | trying q s => exact h.2.2
  | start | begun =>
    cases h
    exact hnil
  | named q =>
    obtain ⟨-, rfl⟩ := h
    exact hnil
  | verified | finished =>
    simp only [Phase.tried, List.append_nil]
    exact h
  | refuted q s m =>
    simp only [Phase.tried, List.append_nil]
    exact h.2.2
  | refining q s | exhausted q s | searching q s =>
    simp only [Phase.tried, List.append_nil]
    exact h.2.2.1

variable {o : Order} {sketch : Sketch}

/-- A step keeps what is known of the past, and proposes what is tried next. -/
theorem PastPhase.next (hp : p = ⟨o.solver, o.spec, sketch⟩)
    (hsketch : (Sketch.prepare o.session o.limit o.program).result = .ok sketch)
    (hholes : ∀ x ∈ p.sketch.holes, isHole x = true) (hnodup : p.sketch.holes.Nodup)
    (hsolver : p.solver.Faithful) {rounds : Nat} {phase next : Phase} {e : Event}
    (h : PastPhase p l phase) (hnext : advanceWithin rounds o phase = .ok (.event e next)) :
    PastPhase p (l ++ phase.tried) next ∧ e.proposed = next.tried := by
  cases Step.of_eq hnext with
  | started => exact ⟨(List.append_nil l).trans h, rfl⟩
  | prepared hprepared =>
    rw [hsketch] at hprepared
    cases hprepared
    exact ⟨⟨hp.symm, (List.append_nil l).trans h⟩, rfl⟩
  | zeroed q =>
    obtain ⟨rfl, rfl⟩ := h
    exact ⟨⟨rfl, past_initial hholes hnodup⟩, rfl⟩
  | verified =>
    obtain ⟨rfl, rfl, hdistinct⟩ := h
    exact ⟨hdistinct, rfl⟩
  | refuted =>
    obtain ⟨rfl, rfl, hdistinct⟩ := h
    exact ⟨⟨rfl, rfl, hdistinct⟩, rfl⟩
  | succeeded q s =>
    simp only [Phase.tried, List.append_nil]
    exact ⟨h, rfl⟩
  | learned q s m =>
    obtain ⟨rfl, rfl, hdistinct⟩ := h
    simp only [Phase.tried, List.append_nil]
    exact ⟨⟨rfl, rfl, hdistinct, List.mem_append_right _ List.mem_cons_self⟩, rfl⟩
  | exhausted | solvable | resumed =>
    simp only [Phase.tried, List.append_nil]
    exact ⟨h, rfl⟩
  | @refilled q s t f hfound =>
    obtain ⟨rfl, hpast⟩ := h
    have hseeks := seeks_of_nextFilling hfound
    rw [← hseeks.kept] at hpast
    obtain ⟨hsame, hpast⟩ := Past.of_candidate hholes hnodup hsolver (s := t) hpast hseeks.found
    have hsame : f.same s.filling = false := by
      rw [← hseeks.kept]
      exact hsame
    simp only [Phase.tried, List.append_nil, hsame, Bool.false_eq_true, ↓reduceIte]
    exact ⟨⟨rfl, hpast⟩, rfl⟩

theorem fresh_bySteps (hp : p = ⟨o.solver, o.spec, sketch⟩)
    (hsketch : (Sketch.prepare o.session o.limit o.program).result = .ok sketch)
    (hholes : ∀ x ∈ p.sketch.holes, isHole x = true) (hnodup : p.sketch.holes.Nodup)
    (hsolver : p.solver.Faithful) (rounds : Nat) :
    Fresh p.sketch.holes (fun n => (bySteps rounds o).tries n .start)
      fun n => (bySteps rounds o).proposals n .start := by
  refine Search.fresh PastPhase.distinct ?_ rfl
  intro l phase fs next h hnext
  obtain ⟨e, he, rfl⟩ := bySteps_next? hnext
  exact h.next hp hsketch hholes hnodup hsolver he

/-- No filling is tried twice, by rounds or by steps, however often the bounds are widened: all that
are tried assign the holes and differ from each other, and each one that is proposed, beginning with
the zeros, is tried next. -/
theorem tried_once (hsolver : o.solver.Faithful)
    (hsketch : (Sketch.prepare o.session o.limit o.program).result = .ok sketch) :
    Fresh (nameAll o.program).2
        (fun n => (Problem.byRounds ⟨o.solver, o.spec, sketch⟩).tries n (false, .initial sketch.holes))
        (fun n => zeros (nameAll o.program).2 ::
          (Problem.byRounds ⟨o.solver, o.spec, sketch⟩).proposals n (false, .initial sketch.holes)) ∧
      ∀ rounds, Fresh (nameAll o.program).2 (fun n => (bySteps rounds o).tries n .start)
        fun n => (bySteps rounds o).proposals n .start := by
  obtain ⟨hnames, -, _, _, -, -, -, -, hshows⟩ := Sketch.shows_of_prepare hsketch
  have hnodup : sketch.holes.Nodup := by
    rw [hnames]
    exact nodup_holes o.program
  rw [← hnames]
  constructor
  · exact Problem.fresh_byRounds (p := ⟨o.solver, o.spec, sketch⟩) hshows.isHole hnodup hsolver
  · intro rounds
    exact fresh_bySteps rfl hsketch hshows.isHole hnodup hsolver rounds

noncomputable def plusOrder : Order :=
  ⟨Solver.ideal, skipSession, ⟨oneOrTwo.eval, twoOrDouble.eval, Condition.eval (.bool true)⟩, 10,
    "y := (x + ??)"⟩

theorem tried_once_plusHole : ∃ sketch,
    (Sketch.prepare skipSession 10 "y := (x + ??)").result = .ok sketch ∧
      (plusProblem sketch).byRounds.proposals 2 (false, .initial sketch.holes) =
        [[("hole_0", 1)], [("hole_0", 2)]] ∧
      Fresh ["hole_0"] (fun n => (plusProblem sketch).byRounds.tries n (false, .initial sketch.holes))
        (fun n => [("hole_0", 0)] ::
          (plusProblem sketch).byRounds.proposals n (false, .initial sketch.holes)) ∧
      Fresh ["hole_0"] (fun n => (bySteps 1 plusOrder).tries n .start)
        fun n => (bySteps 1 plusOrder).proposals n .start := by
  obtain ⟨sketch, -, hsketch, hholes, -, -, hposed⟩ := posed_plusHole
  obtain ⟨hrounds, hsteps⟩ := tried_once (o := plusOrder) Solver.ideal_exact.faithful hsketch
  have hnames : (nameAll plusOrder.program).2 = ["hole_0"] := congrArg Prod.snd nameAll_plusHole
  rw [hnames] at hrounds hsteps
  exact ⟨sketch, hsketch, proposals_plusHole hposed hholes, hrounds, hsteps 1⟩

end WhileSketch.Stepping
