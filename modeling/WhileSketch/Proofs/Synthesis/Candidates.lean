import Mathlib
import WhileSketch.Proofs.Logic.Occurrences
import WhileSketch.Proofs.Synthesis.Refutation

/-! What is asked of a solver for a new filling. Asked within bounds, the question fails for the same
cause as without them, and is narrower otherwise. What is found differs from all that is excluded. -/

namespace WhileSketch

open While Holes

theorem forall_of_foldlM {α β : Type} {step : β → α → Except Fault β} {P : α → β → Prop}
    (hnew : ∀ {a v w}, step v a = .ok w → P a w)
    (hkeep : ∀ {a b v w}, step v b = .ok w → P a v → P a w) {l : List α} {v w : β}
    (h : l.foldlM step v = .ok w) : ∀ a ∈ l, P a w := by
  have hlast : ∀ (l : List α) (v : β), l.foldlM step v = .ok w → ∀ a, P a v → P a w := by
    intro l
    induction l with
    | nil =>
      intro v h a ha
      cases h
      exact ha
    | cons b l ih =>
      intro v h a ha
      rw [List.foldlM_cons] at h
      obtain ⟨u, hu, h⟩ := bind_eq_ok.mp h
      exact ih u h a (hkeep hu ha)
  induction l generalizing v with
  | nil => nofun
  | cons b l ih =>
    rw [List.foldlM_cons] at h
    obtain ⟨u, hu, h⟩ := bind_eq_ok.mp h
    rw [List.forall_mem_cons]
    exact ⟨hlast l u h b (hnew hu), ih h⟩

section Settings

variable {names : List String} {v : Value}

theorem Env.get_symbolic {x : String} (h : (Env.symbolic names).get x = .ok v) :
    x ∈ names ∧ v = .term (.var x) := by
  unfold Env.get Env.symbolic at h
  by_cases hx : x ∈ names
  · simp only [List.contains_iff_mem, hx, ↓reduceIte] at h
    cases h
    exact ⟨hx, rfl⟩
  · simp [hx] at h

theorem Examples.mem_vars_of_holds {settings : Settings}
    (h : Examples.holds settings (Env.symbolic names) = .ok v) :
    ∀ e ∈ settings, e.1 ∈ names ∧ e.1 ∈ v.vars := by
  refine forall_of_foldlM (P := fun e u => e.1 ∈ names ∧ e.1 ∈ u.vars) ?_ ?_ h
  · intro e u w hw
    obtain ⟨a, ha, hw⟩ := bind_eq_ok.mp hw
    obtain ⟨b, hb, hw⟩ := bind_eq_ok.mp hw
    obtain ⟨hx, rfl⟩ := Env.get_symbolic ha
    cases hb
    refine ⟨hx, ((Value.conj_eq_ok hw).2.1 _).mpr ⟨_, List.mem_cons_of_mem _ List.mem_cons_self, ?_⟩⟩
    simp [Value.vars]
  · intro e d u w hw he
    obtain ⟨a, ha, hw⟩ := bind_eq_ok.mp hw
    obtain ⟨b, hb, hw⟩ := bind_eq_ok.mp hw
    exact ⟨he.1, ((Value.conj_eq_ok hw).2.1 _).mpr ⟨u, List.mem_cons_self, he.2⟩⟩

def Env.Binds (names vars : List String) (value : String → State → Int) (env : Env) : Prop :=
  ∀ x ∈ vars, ∃ v, env.get x = .ok v ∧ v.Denotes names (value x)

theorem Env.symbolic_binds {vars : List String} (hvars : ∀ x ∈ vars, x ∈ names) :
    (Env.symbolic names).Binds names vars fun x s => s x := by
  intro x hx
  obtain ⟨v, hv, hvd⟩ := Env.get_denotes (Env.symbolic_numeric names) (hvars x hx)
  simp only [Env.state_symbolic] at hvd
  exact ⟨v, hv, hvd⟩

end Settings

namespace Refinement

variable {p : Problem} {s : State}

section Exclusion

variable {names : List String} {excluded : List Filling} {v : Value}

theorem mem_vars_of_exclusion (h : exclusion excluded (Env.symbolic names) = .ok v) :
    ∀ f ∈ excluded, ∀ e ∈ f, e.1 ∈ names ∧ e.1 ∈ v.vars := by
  refine forall_of_foldlM (P := fun f u => ∀ e ∈ f, e.1 ∈ names ∧ e.1 ∈ Value.vars u) ?_ ?_ h
  · intro f u w hw e he
    obtain ⟨a, ha, hw⟩ := bind_eq_ok.mp hw
    obtain ⟨b, hb, hw⟩ := bind_eq_ok.mp hw
    obtain ⟨hx, hvars⟩ := Examples.mem_vars_of_holds ha e he
    rw [← Value.negate_eq_ok hb] at hvars
    exact ⟨hx, ((Value.conj_eq_ok hw).2.1 _).mpr
      ⟨b, List.mem_cons_of_mem _ List.mem_cons_self, hvars⟩⟩
  · intro f g u w hw hu e he
    obtain ⟨a, ha, hw⟩ := bind_eq_ok.mp hw
    obtain ⟨b, hb, hw⟩ := bind_eq_ok.mp hw
    exact ⟨(hu e he).1, ((Value.conj_eq_ok hw).2.1 _).mpr ⟨u, List.mem_cons_self, (hu e he).2⟩⟩

theorem exclusion_formula (h : exclusion excluded (Env.symbolic names) = .ok v)
    (hne : excluded ≠ []) : ∃ f, v = .formula f := by
  have hstep : ∀ {f : Filling} {u w : Value}, (do
      Value.conj [u, ← (← Examples.holds f (Env.symbolic names)).negate]) = .ok w →
      ∃ φ, w = .formula φ := by
    intro f u w hw
    obtain ⟨a, ha, hw⟩ := bind_eq_ok.mp hw
    obtain ⟨b, hb, hw⟩ := bind_eq_ok.mp hw
    exact (Value.conj_eq_ok hw).1
  obtain ⟨f, hf⟩ := List.exists_mem_of_ne_nil _ hne
  exact forall_of_foldlM (P := fun _ u => ∃ φ, u = Value.formula φ) hstep (fun hw _ => hstep hw) h f hf

end Exclusion

section Bounds

variable {names : List String}

/-- Where the holes are numbers, bounds can be stated, and say that the last hole is within them. -/
theorem exists_bounds {holes : List String} {env : Env} {value : String → WhileSketch.State → Int}
    (henv : env.Binds names holes value) (low high : Int) :
    ∃ v, bounds holes low high env = .ok v ∧
      v.Asserts names fun σ => ∀ x ∈ holes.getLast?, low ≤ value x σ ∧ value x σ ≤ high := by
  have hlast : ∀ x ∈ holes, holes.getLastD "" ∈ holes.getLast? := by
    intro x hx
    rw [List.getLastD_eq_getLast?, List.getLast?_eq_some_getLast (List.ne_nil_of_mem hx)]
    rfl
  have hstep : ∀ x ∈ holes, ∀ (v : Value) (p : WhileSketch.State → Prop), v.Asserts names p →
      ∃ w, (do
        let hole ← env.get (holes.getLastD "")
        let bounded ← Value.conj
          [← Value.operate .ge hole (.int low), ← Value.operate .le hole (.int high)]
        Value.conj [v, bounded]) = .ok w ∧ w.Asserts names fun σ => p σ ∧
          low ≤ value (holes.getLastD "") σ ∧ value (holes.getLastD "") σ ≤ high := by
    intro x hx v p hv
    obtain ⟨u, hu, hud⟩ := henv _ (List.mem_of_getLast? (hlast x hx))
    obtain ⟨a, ha, haa⟩ :=
      Value.operate_asserts (show Operator.ge.isComparison = true from rfl) hud (Value.denotes_int low)
    obtain ⟨b, hb, hba⟩ :=
      Value.operate_asserts (show Operator.le.isComparison = true from rfl) hud (Value.denotes_int high)
    obtain ⟨c, hc, hca⟩ := Value.conj_pair haa hba
    obtain ⟨d, hd, hda⟩ := Value.conj_pair hv hca
    refine ⟨d, ?_, hda⟩
    simp only [bind, Except.bind, hu, ha, hb, hc, hd]
  obtain ⟨v, hv, hva⟩ := exists_foldlM hstep
  refine ⟨v, hv, hva.congr fun σ => ⟨fun h x hx => ?_, fun h x hx => h _ (hlast x hx)⟩⟩
  have hmem := List.mem_of_getLast? hx
  rw [Option.mem_unique hx (hlast x hmem)]
  exact h x hmem

end Bounds

section Narrower

/-- Two questions fail for the same cause, or the answers to the second are those to the first of
which something more is true. -/
inductive Narrows (q : WhileSketch.State → Prop) : Except Fault Formula → Except Fault Formula → Prop
  | error (e : Fault) : Narrows q (.error e) (.error e)
  | ok {f g : Formula} (h : ∀ σ, g.Holds σ ↔ f.Holds σ ∧ q σ) : Narrows q (.ok f) (.ok g)

theorem narrows_conj {q : WhileSketch.State → Prop} {vs ws : List Value} {f g : Formula}
    (hvs : Value.conj vs = .ok (.formula f)) (hws : Value.conj ws = .ok (.formula g))
    (h : ∀ σ, (∀ w ∈ ws, w.Holds σ) ↔ (∀ v ∈ vs, v.Holds σ) ∧ q σ) : Narrows q (.ok f) (.ok g) := by
  refine .ok fun σ => ?_
  have hf : f.Holds σ ↔ ∀ v ∈ vs, v.Holds σ := (Value.conj_eq_ok hvs).2.2 σ
  have hg : g.Holds σ ↔ ∀ w ∈ ws, w.Holds σ := (Value.conj_eq_ok hws).2.2 σ
  rw [hf, hg, h]

def Within (p : Problem) (s : State) (σ : WhileSketch.State) : Prop :=
  ∀ x ∈ p.sketch.holes.getLast?, s.low ≤ σ x ∧ σ x ≤ s.high

/-- Some filling has failed, and all that have give a value to each hole. -/
structure Barred (p : Problem) (s : State) : Prop where
  ne_nil : s.excluded ≠ []
  fills : ∀ f ∈ s.excluded, Fills f p.sketch.holes

theorem Barred.mem_names (hs : Barred p s) {names : List String} {v : Value}
    (h : exclusion s.excluded (Env.symbolic names) = .ok v) : ∀ x ∈ p.sketch.holes, x ∈ names := by
  intro x hx
  obtain ⟨f, hf⟩ := List.exists_mem_of_ne_nil _ hs.ne_nil
  obtain ⟨n, hn⟩ := (hs.fills f hf).covers x hx
  exact (mem_vars_of_exclusion h f hf _ (mem_of_lookup hn)).1

/-- As something is excluded, what is asked beside the precondition is a formula, and bounds add
nothing that can fail. -/
theorem Barred.narrows_query (hs : Barred p s) (names : List String) :
    ∃ r r', Narrows (Within p s) r r' ∧ p.query s false (Env.symbolic names) = r.map Value.formula ∧
      p.query s true (Env.symbolic names) = r'.map Value.formula := by
  unfold Problem.query
  cases hv : p.spec.pre (Env.symbolic names) with
  | error e => exact ⟨_, _, .error e, rfl, rfl⟩
  | ok v =>
    cases he : exclusion s.excluded (Env.symbolic names) with
    | error e => exact ⟨_, _, .error e, rfl, rfl⟩
    | ok w =>
      obtain ⟨f, rfl⟩ := exclusion_formula he hs.ne_nil
      obtain ⟨b, hb, hba⟩ := exists_bounds (Env.symbolic_binds (hs.mem_names he)) s.low s.high
      simp only [bind, Except.bind, hb, Bool.false_eq_true, ↓reduceIte]
      have hnarrows : ∀ φ ψ, Value.conj [v, .formula f] = .ok (.formula φ) →
          Value.conj [v, .formula f, b] = .ok (.formula ψ) →
          Narrows (Within p s) (.ok φ) (.ok ψ) := by
        intro φ ψ hφ hψ
        refine narrows_conj hφ hψ fun σ => ?_
        have hwithin : b.Holds σ ↔ Within p s σ := hba.holds_iff σ
        simp [hwithin, and_assoc]
      have hbt := hba.isTruth
      clear hba hb
      cases b with
      | int _ | term _ => exact hbt.elim
      | bool _ | formula _ =>
        cases v with
        | int n => exact ⟨_, _, .error (.notBool n), rfl, rfl⟩
        | term t => exact ⟨_, _, .error (.sortMismatch "and"), rfl, rfl⟩
        | bool _ | formula _ => exact ⟨_, _, hnarrows _ _ rfl rfl, rfl, rfl⟩

theorem narrows_success {q : WhileSketch.State → Prop} {t : Tree Label}
    {pre pre' post invariant : Assertion}
    (h : ∀ names, ∃ r r', Narrows q r r' ∧ pre (Env.symbolic names) = r.map Value.formula ∧
      pre' (Env.symbolic names) = r'.map Value.formula) :
    Narrows q (Task.success ⟨t, pre, post, invariant⟩) (Task.success ⟨t, pre', post, invariant⟩) := by
  unfold Task.success
  have hweakest : Task.weakest ⟨t, pre', post, invariant⟩ = Task.weakest ⟨t, pre, post, invariant⟩ := rfl
  rw [hweakest]
  cases Task.weakest ⟨t, pre, post, invariant⟩ with
  | error e => exact .error e
  | ok weakest =>
    obtain ⟨names, a⟩ := weakest
    obtain ⟨r, r', hr, hpre, hpre'⟩ := h names
    simp only [bind, Except.bind, hpre, hpre']
    cases hr with
    | error e => exact .error e
    | @ok f g hfg =>
      simp only [Except.map]
      cases a (Env.symbolic names) with
      | error e => exact .error e
      | ok w =>
        have hnarrows : ∀ φ ψ, Value.conj [.formula f, w] = .ok (.formula φ) →
            Value.conj [.formula g, w] = .ok (.formula ψ) → Narrows q (.ok φ) (.ok ψ) := by
          intro φ ψ hφ hψ
          refine narrows_conj hφ hψ fun σ => ?_
          have hg : (Value.formula g).Holds σ ↔ (Value.formula f).Holds σ ∧ q σ := hfg σ
          simp only [List.forall_mem_cons, hg, and_right_comm]
        cases w with
        | int n => exact .error (.notBool n)
        | term u => exact .error (.sortMismatch "and")
        | bool _ | formula _ => exact hnarrows _ _ rfl rfl

end Narrower

section Asking

/-- The formula for which a model is asked when a new filling is wanted. -/
def Problem.asked (p : Problem) (s : State) (bounded : Bool) : Except Fault Formula := do
  let t? ← While.parse (Sketch.assignments s.counterexample ++ p.sketch.unrolled)
  let task ← Specification.task { p.spec with pre := p.query s bounded } t?
  task.success

theorem candidate_eq (p : Problem) (s : State) (bounded : Bool) :
    p.candidate? s bounded = (p.asked s bounded).map fun f =>
      (p.solver.model? f).map fun m =>
        Holes.complete (m.filter fun (x, _) => isHole x) p.sketch.holes := by
  unfold Problem.candidate? Problem.asked
  cases While.parse (Sketch.assignments s.counterexample ++ p.sketch.unrolled) with
  | error e => rfl
  | ok t? =>
    cases t? with
    | none => rfl
    | some t =>
      simp only [bind, Except.bind, Specification.task, Task.satisfying?]
      cases Task.success ⟨t, p.query s bounded, p.spec.post, p.spec.invariant⟩ with
      | error e => rfl
      | ok f => rfl

theorem Barred.narrows_asked (hs : Barred p s) :
    Narrows (Within p s) (p.asked s false) (p.asked s true) := by
  unfold Problem.asked
  cases While.parse (Sketch.assignments s.counterexample ++ p.sketch.unrolled) with
  | error e => exact .error e
  | ok t? =>
    cases t? with
    | none => exact .error .noTree
    | some t => exact narrows_success hs.narrows_query

/-- Within bounds and without, a new filling is asked for in vain for the same cause; or both
questions have an answer, and if there is no filling at all, there is none within bounds. -/
theorem Barred.candidates (hs : Barred p s) (hsolver : p.solver.Decides) :
    (∃ e, p.candidate? s false = .error e ∧ p.candidate? s true = .error e) ∨
      ∃ f? g?, p.candidate? s false = .ok f? ∧ p.candidate? s true = .ok g? ∧
        (f? = none → g? = none) := by
  have hnarrows := hs.narrows_asked
  rw [candidate_eq, candidate_eq]
  cases hf : p.asked s false with
  | error e =>
    rw [hf] at hnarrows
    generalize hg : p.asked s true = r at hnarrows
    cases hnarrows
    exact .inl ⟨e, rfl, rfl⟩
  | ok f =>
    rw [hf] at hnarrows
    generalize hg : p.asked s true = r at hnarrows
    cases hnarrows with
    | @ok _ g hfg =>
      refine .inr ⟨_, _, rfl, rfl, fun hnone => ?_⟩
      rw [Option.map_eq_none_iff] at hnone ⊢
      rw [Option.eq_none_iff_forall_ne_some]
      intro m hm
      obtain ⟨σ, hσ⟩ := (hsolver g).mp ⟨m, hm⟩
      obtain ⟨m', hm'⟩ := (hsolver f).mpr ⟨σ, ((hfg σ).mp hσ).1⟩
      rw [hnone] at hm'
      cases hm'

theorem candidate_eq_some {bounded : Bool} {f : Filling}
    (h : p.candidate? s bounded = .ok (some f)) :
    ∃ φ m, p.asked s bounded = .ok φ ∧ p.solver.model? φ = some m ∧
      f = Holes.complete (m.filter fun (x, _) => isHole x) p.sketch.holes := by
  rw [candidate_eq] at h
  cases hφ : p.asked s bounded with
  | error e =>
    rw [hφ] at h
    cases h
  | ok φ =>
    rw [hφ] at h
    obtain ⟨m, hm, rfl⟩ := Option.map_eq_some_iff.mp (Except.ok.inj h)
    exact ⟨φ, m, rfl, hm, rfl⟩

/-- What is asked includes that nothing excluded is found again. -/
theorem exclusion_of_asked {bounded : Bool} {φ : Formula} (h : p.asked s bounded = .ok φ) :
    ∃ names v, exclusion s.excluded (Env.symbolic names) = .ok v ∧ (∀ x ∈ v.vars, x ∈ φ.vars) ∧
      ∀ σ, φ.Holds σ → v.Holds σ := by
  have hpart : ∀ {vs : List Value} {u w : Value}, Value.conj vs = .ok w → u ∈ vs →
      (∀ x ∈ u.vars, x ∈ w.vars) ∧ ∀ σ, w.Holds σ → u.Holds σ := by
    intro vs u w hw hu
    exact ⟨fun x hx => ((Value.conj_eq_ok hw).2.1 x).mpr ⟨u, hu, hx⟩,
      fun σ hσ => ((Value.conj_eq_ok hw).2.2 σ).mp hσ u hu⟩
  obtain ⟨t?, -, h⟩ := bind_eq_ok.mp h
  obtain ⟨task, htask, h⟩ := bind_eq_ok.mp h
  cases t? with
  | none => cases htask
  | some t =>
    cases htask
    obtain ⟨⟨names, a⟩, -, h⟩ := bind_eq_ok.mp h
    obtain ⟨query, hquery, h⟩ := bind_eq_ok.mp h
    obtain ⟨weakest, -, h⟩ := bind_eq_ok.mp h
    obtain ⟨both, hboth, h⟩ := bind_eq_ok.mp h
    obtain ⟨hvars, hholds⟩ := Value.toFormula_eq_ok h
    obtain ⟨hqvars, hqholds⟩ := hpart hboth List.mem_cons_self
    obtain ⟨v, -, hquery⟩ := bind_eq_ok.mp hquery
    obtain ⟨e, he, hquery⟩ := bind_eq_ok.mp hquery
    have hinner : (∀ x ∈ e.vars, x ∈ query.vars) ∧ ∀ σ, query.Holds σ → e.Holds σ := by
      split_ifs at hquery
      · obtain ⟨b, -, hquery⟩ := bind_eq_ok.mp hquery
        exact hpart hquery (by simp)
      · exact hpart hquery (by simp)
    refine ⟨names, e, he, fun x hx => ?_, fun σ hσ => ?_⟩
    · rw [hvars]
      exact hqvars x (hinner.1 x hx)
    · exact hinner.2 σ (hqholds σ ((hholds σ).mp hσ))

/-- Without bounds, it makes no difference where they are, nor what has been tried last. -/
theorem candidate_unbounded (p : Problem) (s : State) (f : Filling) (low high : Int) :
    p.candidate? { s with filling := f, low := low, high := high } false = p.candidate? s false :=
  rfl

end Asking

section Differing

/-- Two fillings give different values to some hole. -/
def Differ (f g : Filling) : Prop :=
  ∃ x m n, f.lookup x = some m ∧ g.lookup x = some n ∧ m ≠ n

theorem Differ.symm {f g : Filling} (h : Differ f g) : Differ g f := by
  obtain ⟨x, m, n, hm, hn, hne⟩ := h
  exact ⟨x, n, m, hn, hm, hne.symm⟩

theorem Differ.same_eq_false {f g : Filling} (h : Differ f g) : f.same g = false := by
  obtain ⟨x, m, n, hm, hn, hne⟩ := h
  rw [Bool.eq_false_iff]
  intro hsame
  unfold Filling.same at hsame
  rw [Bool.and_eq_true, List.all_eq_true] at hsame
  have hx : (g.lookup x == some m) = true := hsame.2 _ (mem_of_lookup hm)
  rw [hn, beq_iff_eq] at hx
  exact hne (Option.some.inj hx).symm

/-- A filling of the holes that gives no two values to one. -/
structure Assigns (f : Filling) (holes : List String) : Prop extends Fills f holes where
  nodup : (f.map Prod.fst).Nodup

theorem assigns_zeros {holes : List String} (hholes : ∀ x ∈ holes, isHole x = true)
    (hnodup : holes.Nodup) : Assigns (zeros holes) holes where
  toFills := fills_zeros hholes
  nodup := by simpa [zeros, Function.comp_def] using hnodup

/-- The holes that a model does not mention come after those it does. -/
theorem assigns_complete {holes : List String} (hholes : ∀ x ∈ holes, isHole x = true)
    (hnodup : holes.Nodup) {m : Model} (hm : (m.map Prod.fst).Nodup) :
    Assigns (Holes.complete (m.filter fun (x, _) => isHole x) holes) holes where
  toFills := fills_complete hholes m
  nodup := by
    have hzeros : ∀ l : List String, (zeros l).map Prod.fst = l := by simp [zeros, Function.comp_def]
    rw [Holes.complete, List.map_append, hzeros, List.nodup_append]
    refine ⟨hm.sublist (List.filter_sublist.map _), hnodup.filter _, ?_⟩
    intro x hx y hy heq
    subst heq
    obtain ⟨e, he, rfl⟩ := List.mem_map.mp hx
    have hlookup := lookup_of_mem (hm.sublist (List.filter_sublist.map _)) he
    rw [List.mem_filter, hlookup] at hy
    cases hy.2

theorem name_injective : Function.Injective Holes.name := by
  intro i j h
  have hdigits : toString i = toString j := by
    have hlists := congrArg String.toList h
    rw [Holes.name, Holes.name, String.toList_append, String.toList_append] at hlists
    exact String.toList_injective (List.append_cancel_left hlists)
  rw [Nat.toString_eq_repr, Nat.toString_eq_repr] at hdigits
  exact Nat.repr_injective hdigits

theorem nodup_holes (program : String) : (nameAll program).2.Nodup :=
  List.nodup_range.map name_injective

variable {bounded : Bool} {f : Filling}

theorem candidate_assigns (hholes : ∀ x ∈ p.sketch.holes, isHole x = true)
    (hnodup : p.sketch.holes.Nodup) (hsolver : p.solver.Honest)
    (h : p.candidate? s bounded = .ok (some f)) : Assigns f p.sketch.holes := by
  obtain ⟨φ, m, -, hm, rfl⟩ := candidate_eq_some h
  exact assigns_complete hholes hnodup (hsolver.once hm)

theorem lookup_of_same {f g : Filling} (hf : (f.map Prod.fst).Nodup) (hsame : f.same g = true)
    {e : String × Int} (he : e ∈ g) : f.lookup e.1 = some e.2 := by
  unfold Filling.same at hsame
  simp only [Bool.and_eq_true, beq_iff_eq, List.all_eq_true] at hsame
  obtain ⟨hlength, hall⟩ := hsame
  have hsub : f ⊆ g := fun d hd => mem_of_lookup (hall d hd)
  have hperm : f.Perm g := by
    apply (List.subperm_of_subset (List.Nodup.of_map _ hf) hsub).perm_of_length_le
    omega
  exact lookup_of_mem hf (hperm.mem_iff.mpr he)

/-- A filling that is found is not taken for the same as one that is excluded, whether or not the
model mentions all holes. -/
theorem candidate_not_same (hholes : ∀ x ∈ p.sketch.holes, isHole x = true)
    (hnodup : p.sketch.holes.Nodup) (hsolver : p.solver.Honest)
    (h : p.candidate? s bounded = .ok (some f)) {g : Filling} (hg : g ∈ s.excluded) :
    f.same g = false := by
  have hassigns := candidate_assigns hholes hnodup hsolver h
  obtain ⟨φ, m, hφ, hm, rfl⟩ := candidate_eq_some h
  obtain ⟨names, v, hv, -, hholds⟩ := exclusion_of_asked hφ
  have hfalse : ¬ ∀ e ∈ g, m.value e.1 = e.2 :=
    (((tells_exclusion s.excluded).asserts hv).holds_iff _).mp (hholds _ (hsolver.satisfies hm)) g hg
  rw [Bool.eq_false_iff]
  intro hsame
  apply hfalse
  intro e he
  have hlookup := lookup_of_same hassigns.nodup hsame he
  have hhole := hassigns.isHole _ _ hlookup
  rw [Holes.complete, List.lookup_append, lookup_filter_isHole hhole] at hlookup
  unfold Model.value
  rcases Option.or_eq_some_iff.mp hlookup with hmodel | ⟨hnone, hzero⟩
  · rw [hmodel, Option.getD_some]
  · obtain ⟨x, -, hx⟩ := List.mem_map.mp (mem_of_lookup hzero)
    rw [hnone, Option.getD_none]
    exact congrArg Prod.snd hx

/-- A filling that is found differs from each one that is excluded. -/
theorem candidate_differs (hsolver : p.solver.Faithful) (h : p.candidate? s bounded = .ok (some f))
    {g : Filling} (hg : g ∈ s.excluded) (hassigns : Assigns g p.sketch.holes) : Differ f g := by
  obtain ⟨φ, m, hφ, hm, rfl⟩ := candidate_eq_some h
  obtain ⟨names, v, hv, hvars, hholds⟩ := exclusion_of_asked hφ
  have hfalse : ¬ ∀ e ∈ g, m.value e.1 = e.2 :=
    (((tells_exclusion s.excluded).asserts hv).holds_iff _).mp (hholds _ (hsolver.satisfies hm)) g hg
  push Not at hfalse
  obtain ⟨e, he, hne⟩ := hfalse
  have hlookup : g.lookup e.1 = some e.2 := lookup_of_mem hassigns.nodup he
  have hkey : e.1 ∈ m.map Prod.fst :=
    (hsolver.assigns hm _).mpr (hvars _ (mem_vars_of_exclusion hv g hg e he).2)
  obtain ⟨d, hd, hkey⟩ := List.mem_map.mp hkey
  refine ⟨e.1, d.2, e.2, ?_, hlookup, ?_⟩
  · rw [Holes.complete, List.lookup_append, lookup_filter_isHole (hassigns.isHole _ _ hlookup),
      ← hkey, lookup_of_mem (hsolver.once hm) hd]
    rfl
  · rw [← hkey, value_of_mem (hsolver.once hm) hd] at hne
    exact hne

end Differing

end Refinement

end WhileSketch
