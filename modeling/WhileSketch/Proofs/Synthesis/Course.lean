import Mathlib
import WhileSketch.Proofs.Synthesis.History

/-! The course of a search, apart from how its steps are grouped: which fillings are tried, and what
comes of it. A search by rounds takes this course, and no other. -/

namespace WhileSketch.Refinement

open While Holes

inductive Upshot where
  | found (program : String)
  | fault (e : Fault)
  | exhausted
  | open

def Upshot.result : Upshot → Except Fault String
  | found program => .ok program
  | fault e => .error e
  | exhausted => .error .notVerified
  | .open => .error .endless

/-- The fillings that are tried in the course of a search, and its upshot. It may be left at any
time. A filling that has failed is followed by one that is sought within wider and wider bounds, if
there is one at all. -/
inductive Course (p : Problem) : Bool → State → List Filling → Upshot → Prop
  | cut {retry : Bool} {s : State} : Course p retry s [] .open
  | stuck {s : State} {e : Fault} (h : p.counterexample? s.filling = .error e) :
      Course p false s [s.filling] (.fault e)
  | found {s : State} (h : p.counterexample? s.filling = .ok none) :
      Course p false s [s.filling] (.found (p.filled s.filling))
  | refuted {s : State} {m : Settings} {fs : List Filling} {v : Upshot}
      (h : p.counterexample? s.filling = .ok (some m))
      (hrest : Course p true (Problem.learn s m) fs v) : Course p false s (s.filling :: fs) v
  | stumped {s : State} {e : Fault} (h : p.candidate? s false = .error e) :
      Course p true s [] (.fault e)
  | exhausted {s : State} (h : p.candidate? s false = .ok none) : Course p true s [] .exhausted
  | refilled {s t : State} {f g : Filling} {fs : List Filling} {v : Upshot}
      (h : p.candidate? s false = .ok (some g)) (hseeks : Seeks p s t f)
      (hrest : Course p (f.same s.filling) { t with filling := f } fs v) : Course p true s fs v

section Ready

/-- All fillings so far give a value to each hole, and in a retry some have failed. -/
structure Ready (p : Problem) (retry : Bool) (s : State) : Prop where
  filling : Fills s.filling p.sketch.holes
  excluded : ∀ f ∈ s.excluded, Fills f p.sketch.holes
  ne_nil : retry = true → s.excluded ≠ []

variable {p : Problem} {retry : Bool} {s t : State} {f : Filling}

theorem Ready.barred (h : Ready p true s) : Barred p s :=
  ⟨h.ne_nil rfl, h.excluded⟩

theorem Ready.learn (h : Ready p retry s) (m : Settings) : Ready p true (Problem.learn s m) where
  filling := h.filling
  excluded g hg := by
    rcases List.mem_append.mp hg with hg | hg
    · exact h.excluded g hg
    · rw [List.mem_singleton.mp hg]
      exact h.filling
  ne_nil _ := List.append_ne_nil_of_right_ne_nil _ (List.cons_ne_nil _ _)

theorem Ready.widen (h : Ready p true s) : Ready p true s.widen :=
  ⟨h.filling, h.excluded, h.ne_nil⟩

theorem Ready.refill (hholes : ∀ x ∈ p.sketch.holes, isHole x = true) (h : Ready p true s)
    (hseeks : Seeks p s t f) (again : Bool) : Ready p again { t with filling := f } := by
  rw [← hseeks.kept] at h
  exact ⟨candidate_fills hholes hseeks.found, h.excluded, fun _ => h.ne_nil rfl⟩

theorem ready_initial (hholes : ∀ x ∈ p.sketch.holes, isHole x = true) :
    Ready p false (.initial p.sketch.holes) :=
  ⟨fills_zeros hholes, nofun, nofun⟩

theorem Seeks.unbounded (h : Seeks p s t f) : p.candidate? t false = p.candidate? s false := by
  conv_rhs => rw [← h.kept]
  exact (candidate_unbounded p t t.filling s.low s.high).symm

theorem Seeks.exists_unbounded (hsolver : p.solver.Decides) (hs : Ready p true s)
    (h : Seeks p s t f) : ∃ g, p.candidate? s false = .ok (some g) := by
  have hbarred : Barred p t := by
    rw [← h.kept] at hs
    exact ⟨hs.ne_nil rfl, hs.excluded⟩
  have hfound := h.found
  rcases hbarred.candidates hsolver with ⟨e, -, hbounded⟩ | ⟨g?, f?, hg, hf, hnone⟩
  · rw [hfound] at hbounded
    cases hbounded
  · cases g? with
    | none =>
      rw [hnone rfl, hfound] at hf
      cases hf
    | some g => exact ⟨g, h.unbounded.symm.trans hg⟩

end Ready

section Rounds

variable {p : Problem} {retry : Bool} {s t : State} {f : Filling} {fs : List Filling} {v : Upshot}

/-- What comes of a search after a round, and the fillings that are still tried. -/
def Problem.outcome (p : Problem) (n : Nat) : Except Fault Turn → Except Fault String × List Filling
  | .error e => (.error e, [])
  | .ok (.done program) => (.ok program, [])
  | .ok (.widened t) => (p.runWithin n true t, p.byRounds.tries n (true, t))
  | .ok (.refilled again t) => (p.runWithin n again t, p.byRounds.tries n (again, t))

theorem runWithin_eq_outcome (p : Problem) (n : Nat) (retry : Bool) (s : State) :
    p.runWithin (n + 1) retry s = (p.outcome n (p.turn retry s)).1 := by
  rw [Problem.runWithin_succ]
  cases p.turn retry s with
  | error e => rfl
  | ok turn => cases turn <;> rfl

theorem tries_eq_outcome (p : Problem) (n : Nat) (retry : Bool) (s : State) :
    p.byRounds.tries (n + 1) (retry, s) =
      p.byRounds.tried (retry, s) ++ (p.outcome n (p.turn retry s)).2 := by
  rw [Search.tries]
  congr 1
  simp only [Problem.byRounds]
  cases p.turn retry s with
  | error e => rfl
  | ok turn => cases turn <;> rfl

theorem turn_of_stuck {e : Fault} (h : p.counterexample? s.filling = .error e) :
    p.turn false s = .error e := by
  rw [Problem.turn, h]
  rfl

theorem turn_of_verified (h : p.counterexample? s.filling = .ok none) :
    p.turn false s = .ok (.done (p.filled s.filling)) := by
  rw [Problem.turn, h]
  rfl

theorem turn_of_refuted {m : Settings} (h : p.counterexample? s.filling = .ok (some m)) :
    p.turn false s = p.seek (Problem.learn s m) := by
  rw [Problem.turn, h]
  rfl

theorem turn_of_some {g : Filling} (h : p.candidate? s false = .ok (some g)) :
    p.turn true s = p.seek s := by
  rw [Problem.turn, h]
  rfl

theorem turn_of_none (h : p.candidate? s false = .ok none) :
    p.turn true s = .error .notVerified := by
  rw [Problem.turn, h]
  rfl

theorem turn_of_error {e : Fault} (h : p.candidate? s false = .error e) :
    p.turn true s = .error e := by
  rw [Problem.turn, h]
  rfl

theorem seek_of_some (h : p.candidate? s true = .ok (some f)) :
    p.seek s = .ok (.refilled (f.same s.filling) { s with filling := f }) := by
  rw [Problem.seek, h]
  rfl

theorem seek_of_none (h : p.candidate? s true = .ok none) : p.seek s = .ok (.widened s.widen) := by
  rw [Problem.seek, h]
  rfl

theorem seek_of_error {e : Fault} (h : p.candidate? s true = .error e) : p.seek s = .error e := by
  rw [Problem.seek, h]
  rfl

/-- If there is nothing within the bounds, the course is that with wider bounds. -/
theorem Course.of_widen (h : p.candidate? s true = .ok none) (hcourse : Course p true s.widen fs v) :
    Course p true s fs v := by
  cases hcourse with
  | cut => exact .cut
  | stumped herror => exact .stumped herror
  | exhausted hnone => exact .exhausted hnone
  | refilled hsome hseeks hrest => exact .refilled hsome (.wider h hseeks) hrest

/-- The rest of a round takes the course of the search, if the rounds that follow do. -/
theorem course_of_seek (hsolver : p.solver.Decides)
    (hholes : ∀ x ∈ p.sketch.holes, isHole x = true) {n : Nat}
    (ih : ∀ retry t, Ready p retry t → ∃ v, Course p retry t (p.byRounds.tries n (retry, t)) v ∧
      p.runWithin n retry t = v.result) (hs : Ready p true s) :
    ∃ v, Course p true s (p.outcome n (p.seek s)).2 v ∧ (p.outcome n (p.seek s)).1 = v.result := by
  rcases hs.barred.candidates hsolver with ⟨e, hunbounded, hbounded⟩ | ⟨f?, g?, hf, hg, hnone⟩
  · rw [seek_of_error hbounded]
    exact ⟨.fault e, .stumped hunbounded, rfl⟩
  · cases g? with
    | none =>
      rw [seek_of_none hg]
      obtain ⟨v, hcourse, hrun⟩ := ih true s.widen hs.widen
      exact ⟨v, hcourse.of_widen hg, hrun⟩
    | some g =>
      rw [seek_of_some hg]
      obtain ⟨v, hcourse, hrun⟩ := ih _ _ (hs.refill hholes (.here hg) (g.same s.filling))
      cases f? with
      | none => cases hnone rfl
      | some f => exact ⟨v, .refilled hf (.here hg) hcourse, hrun⟩

/-- What a search by rounds does is its course as far as that is followed. -/
theorem course_of_rounds (hsolver : p.solver.Decides)
    (hholes : ∀ x ∈ p.sketch.holes, isHole x = true) (n : Nat) (hs : Ready p retry s) :
    ∃ v, Course p retry s (p.byRounds.tries n (retry, s)) v ∧ p.runWithin n retry s = v.result := by
  induction n generalizing retry s with
  | zero => exact ⟨.open, .cut, rfl⟩
  | succ n ih =>
    have ih : ∀ retry t, Ready p retry t → ∃ v,
        Course p retry t (p.byRounds.tries n (retry, t)) v ∧ p.runWithin n retry t = v.result :=
      fun retry t ht => ih ht
    rw [tries_eq_outcome, runWithin_eq_outcome]
    cases retry with
    | true =>
      have htried : p.byRounds.tried (true, s) = [] := rfl
      rw [htried, List.nil_append]
      cases hf : p.candidate? s false with
      | error e =>
        rw [turn_of_error hf]
        exact ⟨.fault e, .stumped hf, rfl⟩
      | ok f? =>
        cases f? with
        | none =>
          rw [turn_of_none hf]
          exact ⟨.exhausted, .exhausted hf, rfl⟩
        | some f =>
          rw [turn_of_some hf]
          exact course_of_seek hsolver hholes ih hs
    | false =>
      cases hm : p.counterexample? s.filling with
      | error e =>
        rw [turn_of_stuck hm]
        exact ⟨.fault e, .stuck hm, rfl⟩
      | ok m? =>
        cases m? with
        | none =>
          rw [turn_of_verified hm]
          exact ⟨.found _, .found hm, rfl⟩
        | some m =>
          rw [turn_of_refuted hm]
          obtain ⟨v, hcourse, hrun⟩ := course_of_seek hsolver hholes ih (hs.learn m)
          exact ⟨v, .refuted hm hcourse, hrun⟩

/-- With another round to go, it makes no difference whether it is found out first that there is no
filling at all. -/
theorem outcome_seek (hsolver : p.solver.Decides) (hs : Ready p true s) (n : Nat) :
    p.outcome (n + 1) (p.seek s) = p.outcome (n + 1) (p.turn true s) := by
  rcases hs.barred.candidates hsolver with ⟨e, hunbounded, hbounded⟩ | ⟨f?, g?, hf, hg, hnone⟩
  · rw [seek_of_error hbounded, turn_of_error hunbounded]
  · cases f? with
    | some f => rw [turn_of_some hf]
    | none =>
      have hwide : p.candidate? s.widen false = .ok none := hf
      rw [hnone rfl] at hg
      rw [seek_of_none hg, turn_of_none hf]
      simp only [Problem.outcome, runWithin_eq_outcome, tries_eq_outcome, turn_of_none hwide]
      rfl

/-- After enough rounds, a search has tried certain fillings and come to an upshot. -/
def ComesTo (p : Problem) (retry : Bool) (s : State) (fs : List Filling) (v : Upshot) : Prop :=
  ∃ N, ∀ n, N ≤ n → fs <+: p.byRounds.tries n (retry, s) ∧
    (v ≠ .open → p.runWithin n retry s = v.result)

theorem comesTo_of_turn {turn : Except Fault Turn} (hturn : p.turn retry s = turn) {N : Nat}
    (h : ∀ n, N ≤ n → fs <+: (p.outcome n turn).2 ∧ (v ≠ .open → (p.outcome n turn).1 = v.result)) :
    ComesTo p retry s (p.byRounds.tried (retry, s) ++ fs) v := by
  refine ⟨N + 1, fun n hn => ?_⟩
  obtain ⟨k, rfl⟩ : ∃ k, n = k + 1 := ⟨n - 1, by omega⟩
  obtain ⟨hfs, hv⟩ := h k (by omega)
  rw [tries_eq_outcome, runWithin_eq_outcome, hturn]
  exact ⟨(List.prefix_append_right_inj _).mpr hfs, hv⟩

theorem comesTo_of_seeks {g : Filling} (hsome : p.candidate? s false = .ok (some g))
    (hseeks : Seeks p s t f) (h : ComesTo p (f.same s.filling) { t with filling := f } fs v) :
    ComesTo p true s fs v := by
  induction hseeks with
  | here hf =>
    obtain ⟨N, h⟩ := h
    refine comesTo_of_turn (turn_of_some hsome) (N := N) ?_
    rw [seek_of_some hf]
    exact h
  | wider hnone _ ih =>
    obtain ⟨N, h⟩ := ih hsome h
    refine comesTo_of_turn (turn_of_some hsome) (N := N) ?_
    rw [seek_of_none hnone]
    exact h

/-- A search by rounds takes each course. -/
theorem Course.comesTo (hsolver : p.solver.Decides)
    (hholes : ∀ x ∈ p.sketch.holes, isHole x = true) (h : Course p retry s fs v)
    (hs : Ready p retry s) : ComesTo p retry s fs v := by
  induction h with
  | cut => exact ⟨0, fun n _ => ⟨List.nil_prefix, fun hv => absurd rfl hv⟩⟩
  | @stuck s e h =>
    change ComesTo p false s (p.byRounds.tried (false, s) ++ []) _
    exact comesTo_of_turn (turn_of_stuck h) (N := 0) fun n _ => ⟨List.nil_prefix, fun _ => rfl⟩
  | @found s h =>
    change ComesTo p false s (p.byRounds.tried (false, s) ++ []) _
    exact comesTo_of_turn (turn_of_verified h) (N := 0) fun n _ => ⟨List.nil_prefix, fun _ => rfl⟩
  | @refuted s m fs v h _ ih =>
    obtain ⟨N, hN⟩ := ih (hs.learn m)
    refine comesTo_of_turn (turn_of_refuted h) (N := N + 1) fun n hn => ?_
    obtain ⟨k, rfl⟩ : ∃ k, n = k + 1 := ⟨n - 1, by omega⟩
    obtain ⟨hfs, hv⟩ := hN (k + 1 + 1) (by omega)
    rw [tries_eq_outcome] at hfs
    rw [runWithin_eq_outcome] at hv
    rw [outcome_seek hsolver (hs.learn m)]
    exact ⟨hfs, hv⟩
  | stumped h =>
    exact comesTo_of_turn (turn_of_error h) (N := 0) fun n _ => ⟨List.nil_prefix, fun _ => rfl⟩
  | exhausted h =>
    exact comesTo_of_turn (turn_of_none h) (N := 0) fun n _ => ⟨List.nil_prefix, fun _ => rfl⟩
  | refilled hsome hseeks _ ih =>
    exact comesTo_of_seeks hsome hseeks (ih (hs.refill hholes hseeks _))

end Rounds

end WhileSketch.Refinement
