import Mathlib
import WhileSketch.Proofs.Synthesis.Protocol
import WhileSketch.Window.Application

/-! The window of a search, in which each press of a button lists what the step before has brought and
then makes the next one. However often the button is pressed, the window lists the fillings that have
failed, and its buttons can be pressed as long as the search goes on; but a window for which no search
could be started takes over the search of the window before, which may have ended. -/

namespace WhileSketch

open Holes Stepping While

section Events

variable {rounds : Nat} {o : Order} {phase next : Phase} {e : Event}

def Stepping.Event.refuted? : Event → Option Filling
  | .failed _ f => some f
  | _ => none

def Stepping.Event.isLast : Event → Bool
  | .succeeded _ | .exhausted => true
  | _ => false

def Stepping.Phase.isFinal : Phase → Bool
  | .finished _ => true
  | _ => false

theorem Stepping.isLast_of_advanceWithin (h : advanceWithin rounds o phase = .ok (.event e next))
    (he : e ≠ .exhausted) : e.isLast = next.isFinal := by
  cases Step.of_eq h with
  | refilled => split_ifs <;> rfl
  | exhausted => exact absurd rfl he
  | _ => rfl

theorem Stepping.isFinal_of_event (h : advanceWithin rounds o phase = .ok (.event e next)) :
    phase.isFinal = false := by
  cases Step.of_eq h <;> rfl

end Events

namespace StepView

variable {v w : StepView} {rounds n : Nat} {o : Order} {phase next : Phase} {e : Event}
  {last : Option Event} {fs : List Filling}

/-- Fillings as the window lists them: numbered from one on, in the order in which they failed. -/
def numbered (fs : List Filling) : List String :=
  fs.mapIdx fun i f => toString (i + 1) ++ ". " ++ Settings.render f

theorem numbered_concat (fs : List Filling) (f : Filling) :
    numbered (fs ++ [f]) =
      numbered fs ++ [toString ((numbered fs).length + 1) ++ ". " ++ Settings.render f] := by
  unfold numbered
  rw [List.mapIdx_concat, List.length_mapIdx]

def presses (rounds n : Nat) (v : StepView) : StepView :=
  (fun w => (w.pressNextWithin rounds).1)^[n] v

theorem presses_succ (rounds n : Nat) (v : StepView) :
    presses rounds (n + 1) v = presses rounds n (v.pressNextWithin rounds).1 :=
  Function.iterate_succ_apply _ n v

theorem presses_eq_self (h : (v.pressNextWithin rounds).1 = v) (n : Nat) : presses rounds n v = v :=
  Function.iterate_fixed h n

def refuted (events : List Event) : List Filling :=
  events.filterMap Event.refuted?

@[simp]
theorem refuted_nil : refuted [] = [] :=
  List.filterMap_nil

theorem refuted_append (before after : List Event) :
    refuted (before ++ after) = refuted before ++ refuted after :=
  List.filterMap_append

/-- The window of a search that goes on. The fillings are listed that failed before its last step. -/
structure Open (o : Order) (phase : Phase) (last : Option Event) (fs : List Filling) (v : StepView) :
    Prop where
  search : v.search = .running o phase
  last : v.last = last
  excluded : v.excluded = numbered fs
  enabled : v.enabled = true

structure Ended (fs : List Filling) (v : StepView) : Prop where
  search : v.search = .closed
  excluded : v.excluded = numbered fs
  enabled : v.enabled = false

section Shown

/-- What the buttons and the list of fillings depend on. -/
def core (v : StepView) : Search × Option Event × List String × Bool :=
  (v.search, v.last, v.excluded, v.enabled)

theorem core_select (v : StepView) (index : Nat) : (v.select index).core = v.core := by
  unfold select
  split <;> rfl

theorem core_elim_displayed (v : StepView) (last : Option Event) :
    (last.elim v v.displayed).core = v.core := by
  cases last with
  | none => rfl
  | some e =>
    cases e with
    | checked verified => cases verified <;> rfl
    | _ => rfl

theorem Open.of_core (hcore : v.core = w.core) (h : Open o phase last fs w) :
    Open o phase last fs v := by
  simp only [core, Prod.mk.injEq] at hcore
  obtain ⟨hsearch, hlast, hexcluded, henabled⟩ := hcore
  exact ⟨hsearch.trans h.search, hlast.trans h.last, hexcluded.trans h.excluded,
    henabled.trans h.enabled⟩

theorem Ended.of_core (hcore : v.core = w.core) (h : Ended fs w) : Ended fs v := by
  simp only [core, Prod.mk.injEq] at hcore
  obtain ⟨hsearch, -, hexcluded, henabled⟩ := hcore
  exact ⟨hsearch.trans h.search, hexcluded.trans h.excluded, henabled.trans h.enabled⟩

end Shown

section Presses

/-- A step that is not the last one only adds the filling that has failed in it. -/
theorem Open.listed (h : Open o phase last fs v) (hlast : last.any Event.isLast = false) :
    Open o phase last (fs ++ refuted last.toList) (v.last.elim v v.listed) := by
  rw [h.last]
  cases last with
  | none =>
    rw [Option.toList_none, refuted_nil, List.append_nil]
    exact h
  | some e =>
    cases e with
    | succeeded | exhausted => cases hlast
    | failed m f =>
      refine ⟨h.search, h.last, ?_, h.enabled⟩
      show v.excluded ++ _ = _
      rw [h.excluded]
      exact (numbered_concat fs f).symm
    | _ =>
      have hsame : v.excluded = numbered (fs ++ []) := by rw [List.append_nil, h.excluded]
      exact ⟨h.search, h.last, hsame, h.enabled⟩

theorem Open.press_event (h : Open o phase last fs v) (hlast : last.any Event.isLast = false)
    (hnext : advanceWithin rounds o phase = .ok (.event e next)) :
    Open o next (some e) (fs ++ refuted last.toList) (v.pressNextWithin rounds).1 := by
  have hlisted := h.listed hlast
  rw [pressNextWithin, if_pos h.enabled, nextWithin]
  simp only [hlisted.search, hnext]
  apply Open.of_core (core_elim_displayed _ _)
  apply Open.of_core (core_select _ _)
  exact ⟨rfl, rfl, hlisted.excluded, hlisted.enabled⟩

theorem Open.press_error {cause : Fault} (h : Open o phase last fs v)
    (hlast : last.any Event.isLast = false) (hnext : advanceWithin rounds o phase = .error cause) :
    Ended (fs ++ refuted last.toList) (v.pressNextWithin rounds).1 := by
  have hlisted := h.listed hlast
  rw [pressNextWithin, if_pos h.enabled, nextWithin]
  simp only [hlisted.search, hnext]
  exact ⟨rfl, hlisted.excluded, rfl⟩

theorem Open.press_last (h : Open o phase last fs v) (rounds : Nat) (hlast : last.any Event.isLast = true) :
    Ended (fs ++ refuted last.toList) (v.pressNextWithin rounds).1 := by
  have hended : Ended (fs ++ refuted last.toList) (v.last.elim v v.listed) := by
    rw [h.last]
    cases last with
    | none => cases hlast
    | some e =>
      cases e with
      | succeeded | exhausted =>
        have hsame : v.excluded = numbered (fs ++ []) := by rw [List.append_nil, h.excluded]
        exact ⟨rfl, hsame, rfl⟩
      | _ => cases hlast
  rw [pressNextWithin, if_pos h.enabled, nextWithin]
  simp only [hended.search]
  exact hended.of_core (core_elim_displayed _ _)

theorem Ended.presses (h : Ended fs v) (rounds n : Nat) : Ended fs (presses rounds n v) := by
  have hfixed : (v.pressNextWithin rounds).1 = v := by
    rw [pressNextWithin, h.enabled, if_neg Bool.false_ne_true]
  rw [presses_eq_self hfixed]
  exact h

end Presses

section Runs

/-- The window lists some fillings that have failed, and its buttons can be pressed just as long as the
search behind it has not ended, which is so in a given case. -/
def Mirrors (fs : List Filling) (gone : Prop) (v : StepView) : Prop :=
  v.excluded = numbered fs ∧ (v.enabled = false ↔ v.search = .closed) ∧ (v.search = .closed ↔ gone)

theorem Open.mirrors {gone : Prop} (h : Open o phase last fs v) (hgone : ¬gone) :
    v.Mirrors fs gone := by
  unfold Mirrors
  rw [h.search, h.enabled]
  exact ⟨h.excluded, by simp, by simpa using hgone⟩

theorem Ended.mirrors {gone : Prop} (h : Ended fs v) (hgone : gone) : v.Mirrors fs gone := by
  unfold Mirrors
  rw [h.search, h.enabled]
  exact ⟨h.excluded, by simp, by simpa using hgone⟩

/-- A search is over after some presses when it has come to an end within as many steps, or when one of
the steps before the last press was that no filling can succeed. -/
def Over (rounds : Nat) (o : Order) (phase : Phase) (n : Nat) : Prop :=
  (traceWithin rounds o n phase).2 ≠ .open ∨ .exhausted ∈ (traceWithin rounds o (n - 1) phase).1

theorem not_over_zero (rounds : Nat) (o : Order) (phase : Phase) : ¬Over rounds o phase 0 := by
  rintro (hending | hevents)
  · exact hending rfl
  · exact List.not_mem_nil hevents

theorem over_of_ends (h : ∀ e next, advanceWithin rounds o phase ≠ .ok (.event e next)) (n : Nat) :
    (traceWithin rounds o n phase).1 = [] ∧ Over rounds o phase (n + 1) := by
  have htrace : ∀ m, (traceWithin rounds o (m + 1) phase).1 = [] ∧
      (traceWithin rounds o (m + 1) phase).2 ≠ .open := by
    intro m
    rw [traceWithin]
    cases hnext : advanceWithin rounds o phase with
    | error cause => simp
    | ok progress =>
      cases progress with
      | final program => simp
      | event e next => exact absurd hnext (h e next)
  refine ⟨?_, .inl (htrace n).2⟩
  cases n with
  | zero => rfl
  | succ n => exact (htrace n).1

theorem trace_of_exhausted (h : advanceWithin rounds o phase = .ok (.event .exhausted next)) (n : Nat) :
    traceWithin rounds o (n + 1) phase = ([.exhausted], .open) := by
  rw [traceWithin, h]

theorem not_over_one (h : advanceWithin rounds o phase = .ok (.event e next)) :
    ¬Over rounds o phase 1 := by
  have hopen : (traceWithin rounds o 1 phase).2 = .open := by
    by_cases he : e = .exhausted
    · subst he
      rw [trace_of_exhausted h]
    · rw [traceWithin_event h he, traceWithin]
  rintro (hending | hevents)
  · exact hending hopen
  · exact List.not_mem_nil hevents

theorem over_succ (h : advanceWithin rounds o phase = .ok (.event e next)) (he : e ≠ .exhausted)
    (n : Nat) : Over rounds o phase (n + 2) ↔ Over rounds o next (n + 1) := by
  have hmore : (traceWithin rounds o (n + 2) phase).2 = (traceWithin rounds o (n + 1) next).2 := by
    rw [traceWithin_event h he]
  have hbefore : (traceWithin rounds o (n + 1) phase).1 = e :: (traceWithin rounds o n next).1 := by
    rw [traceWithin_event h he]
  show _ ∨ .exhausted ∈ (traceWithin rounds o (n + 1) phase).1 ↔
    _ ∨ .exhausted ∈ (traceWithin rounds o n next).1
  rw [hmore, hbefore, List.mem_cons, or_iff_right he.symm]

theorem ends_or_event (rounds : Nat) (o : Order) (phase : Phase) :
    (∀ e next, advanceWithin rounds o phase ≠ .ok (.event e next)) ∨
      ∃ e next, advanceWithin rounds o phase = .ok (.event e next) := by
  by_cases h : ∃ e next, advanceWithin rounds o phase = .ok (.event e next)
  · exact .inr h
  · exact .inl fun e next hnext => h ⟨e, next, hnext⟩

/-- Where the search makes no more steps, a press lists what is left and ends it. -/
theorem Open.presses_ends (h : Open o phase last fs v)
    (hlast : last.any Event.isLast = phase.isFinal)
    (hends : ∀ e next, advanceWithin rounds o phase ≠ .ok (.event e next)) (n : Nat) :
    (presses rounds (n + 1) v).Mirrors
      (fs ++ refuted (last.toList ++ (traceWithin rounds o n phase).1))
      (Over rounds o phase (n + 1)) := by
  obtain ⟨hevents, hover⟩ := over_of_ends hends n
  have hended : Ended (fs ++ refuted last.toList) (v.pressNextWithin rounds).1 := by
    cases hnext : advanceWithin rounds o phase with
    | error cause =>
      have hphase : phase.isFinal = false := by cases Step.of_eq hnext <;> rfl
      exact h.press_error (hlast.trans hphase) hnext
    | ok progress =>
      cases progress with
      | event e next => exact absurd hnext (hends e next)
      | final program =>
        have hphase : phase.isFinal = true := by cases Step.of_eq hnext; rfl
        exact h.press_last rounds (hlast.trans hphase)
  rw [presses_succ, hevents, List.append_nil]
  exact (hended.presses rounds n).mirrors hover

/-- Each press lists the step before and makes another one. -/
theorem Open.mirrors_presses (h : Open o phase last fs v)
    (hlast : last.any Event.isLast = phase.isFinal) (n : Nat) :
    (presses rounds (n + 1) v).Mirrors
      (fs ++ refuted (last.toList ++ (traceWithin rounds o n phase).1))
      (Over rounds o phase (n + 1)) := by
  induction n generalizing v phase last fs with
  | zero =>
    rcases ends_or_event rounds o phase with hends | ⟨e, next, hnext⟩
    · exact h.presses_ends hlast hends 0
    · have hopen := h.press_event (hlast.trans (isFinal_of_event hnext)) hnext
      rw [← List.append_nil last.toList] at hopen
      exact hopen.mirrors (not_over_one hnext)
  | succ n ih =>
    rcases ends_or_event rounds o phase with hends | ⟨e, next, hnext⟩
    · exact h.presses_ends hlast hends (n + 1)
    · have hopen := h.press_event (hlast.trans (isFinal_of_event hnext)) hnext
      rw [presses_succ, refuted_append, ← List.append_assoc]
      by_cases he : e = .exhausted
      · subst he
        have htrace := trace_of_exhausted hnext
        have hended := (hopen.press_last rounds rfl).presses rounds n
        have hover : Over rounds o phase (n + 2) := by
          right
          show .exhausted ∈ (traceWithin rounds o (n + 1) phase).1
          rw [htrace]
          exact List.mem_cons_self
        rw [presses_succ, htrace]
        exact hended.mirrors hover
      · have hrest := ih hopen (isLast_of_advanceWithin hnext he)
        rw [traceWithin_event hnext he]
        unfold Mirrors at hrest ⊢
        rw [over_succ hnext he]
        exact hrest

theorem mirrors_start (hphase : phase.isFinal = false) (rounds : Nat) (o : Order) (n : Nat) :
    (presses rounds n (start (.running o phase))).Mirrors
      (refuted (traceWithin rounds o (n - 1) phase).1) (Over rounds o phase n) := by
  have hopen : Open o phase none [] (start (.running o phase)) := ⟨rfl, rfl, rfl, rfl⟩
  cases n with
  | zero => exact hopen.mirrors (not_over_zero rounds o phase)
  | succ n => exact hopen.mirrors_presses hphase.symm n

/-- What a window shows after some presses that was opened over a given search, which need not be at
its start. One that only has its program left to return does so at the first press, without an end to
the presses. -/
def TakesOver (rounds n : Nat) (v : StepView) : Search → Prop
  | .absent => v.excluded = [] ∧ v.enabled = true ∧ v.search = .absent
  | .closed => v.excluded = [] ∧ v.enabled = true ∧ v.search = .closed
  | .running o phase =>
    if phase.isFinal then v.excluded = [] ∧ v.enabled = true ∧ (v.search = .closed ↔ 0 < n)
    else v.Mirrors (refuted (traceWithin rounds o (n - 1) phase).1) (Over rounds o phase n)

theorem takesOver_start (rounds n : Nat) (search : Search) :
    (presses rounds n (start search)).TakesOver rounds n search := by
  have hclosed : ∀ m, presses rounds m (start .closed) = start .closed := presses_eq_self rfl
  cases search with
  | absent =>
    rw [presses_eq_self rfl]
    exact ⟨rfl, rfl, rfl⟩
  | closed =>
    rw [hclosed]
    exact ⟨rfl, rfl, rfl⟩
  | running o phase =>
    rw [TakesOver]
    split_ifs with hphase
    · cases n with
      | zero => exact ⟨rfl, rfl, by simp [presses, start]⟩
      | succ n =>
        have hpressed : ((start (.running o phase)).pressNextWithin rounds).1 = start .closed := by
          cases phase with
          | finished program => rfl
          | _ => cases hphase
        rw [presses_succ, hpressed, hclosed]
        exact ⟨rfl, rfl, iff_of_true rfl n.succ_pos⟩
    · exact mirrors_start (Bool.eq_false_of_not_eq_true hphase) rounds o n

end Runs

end StepView

namespace Application

variable {solver : Solver} {a : Application} {program : String}

def pressesNext (rounds n : Nat) (a : Application) : Application :=
  (fun b => (b.nextStepWithin rounds).1)^[n] a

theorem steps_pressesNext {v : StepView} (h : a.steps = .shown v) (rounds n : Nat) :
    (pressesNext rounds n a).steps = .shown (v.presses rounds n) := by
  induction n generalizing a v with
  | zero => exact h
  | succ n ih =>
    have hnext : (a.nextStepWithin rounds).1.steps = .shown (v.pressNextWithin rounds).1 := by
      rw [nextStepWithin, h]
    rw [StepView.presses_succ]
    exact ih hnext

def stepOrder (solver : Solver) (a : Application) (program : String) (s : Session) : Order :=
  ⟨solver, s, a.forms.conditions.specification, stepLimit, program⟩

theorem openSteps_eq (h : a.steps.content? = none) {s : Session}
    (hs : (Session.ofProgram program).result = .ok s) :
    (a.openSteps solver program).1 =
      { a with steps := .shown (.start (.running (a.stepOrder solver program s) .start)) } := by
  rw [openSteps, h, hs]
  rfl

/-- The search behind the window that is or was open, if there was one. -/
def search (a : Application) : Search :=
  (a.steps.last?.map StepView.search).getD .absent

/-- A window for which no search could be started takes over the search of the window before. -/
theorem steps_openSteps_error (solver : Solver) (h : a.steps.content? = none) {cause : Fault}
    (hs : (Session.ofProgram program).result = .error cause) :
    (a.openSteps solver program).1.steps = .shown (.start a.search) := by
  rw [openSteps, h, hs]
  rfl

/-- However often the button for the next step is pressed after the window of a search was opened, it
lists the fillings that have failed in the steps before the last one, in their order and numbered from
one on, and its buttons can be pressed just as long as the search has not ended. But if no search could
be started for the program, the window goes on with the search of the window before, if there was one:
over a search that has ended, the buttons can always be pressed, and over one that has only its program
left to return they still can be pressed when it has ended. -/
theorem steps_mirror_search (solver : Solver) (a : Application) (program : String) (rounds n : Nat)
    (h : a.steps.content? = none) :
    ∃ v, (pressesNext rounds n (a.openSteps solver program).1).steps = .shown v ∧
      (∀ s, (Session.ofProgram program).result = .ok s →
        v.Mirrors
          (StepView.refuted (traceWithin rounds (a.stepOrder solver program s) (n - 1) .start).1)
          (StepView.Over rounds (a.stepOrder solver program s) .start n)) ∧
      (∀ cause, (Session.ofProgram program).result = .error cause →
        v.TakesOver rounds n a.search) := by
  cases hs : (Session.ofProgram program).result with
  | ok s =>
    refine ⟨_, steps_pressesNext (congrArg steps (openSteps_eq h hs)) rounds n, ?_, by simp⟩
    intro s' hs'
    cases hs'
    exact StepView.mirrors_start rfl rounds _ n
  | error cause =>
    refine ⟨_, steps_pressesNext (steps_openSteps_error solver h hs) rounds n, by simp, ?_⟩
    intro _ _
    exact StepView.takesOver_start rounds n a.search

def plusForm : ConditionForm :=
  ⟨⟨⟨"", Refinement.oneOrTwo⟩, ⟨"", Refinement.twoOrDouble⟩, .trivial⟩, .unopened⟩

theorem session_text {c : Stmt} {t : Tree Label} (ht : StmtTree c t) (hlegible : c.Legible)
    (hvars : ∀ x ∈ c.vars, isName x = true) :
    (Session.ofProgram c.text).result =
      if "id" ∈ c.vars then .error .noSuchItem else .ok ⟨some c.chained.tree, c.names, .empty⟩ := by
  have htree : StmtTree c.chained c.chained.tree := (ht.stmtText hlegible).1.stmtTree
  rw [Session.ofProgram, ht.parse_text hvars hlegible]
  show Transcript.result (liftM (variableNames c.chained.tree) >>= fun vars =>
    pure (Session.mk (some c.chained.tree) vars .empty)) = _
  rw [htree.variableNames_eq, Stmt.names, Stmt.names, Stmt.vars_chained]
  split_ifs <;> rfl

theorem session_plusHole : ∃ s, (Session.ofProgram "y := (x + ??)").result = .ok s ∧
    s.tree?.isNone = false := by
  have hlegible : (Stmt.assign "y" (.operate .add (.var "x") .hole)).Legible :=
    Stmt.legible_assign.mpr ⟨by decide, Expr.legible_operate.mpr
      ⟨Expr.legible_var.mpr (by decide), OperandText.hole.legible_expr⟩⟩
  have hsession := session_text (.assign "y" (.operate .add (.var "x") .hole)) hlegible (by decide)
  exact ⟨_, hsession.trans (if_neg (by decide)), rfl⟩

theorem steps_mirror_search_plusHole :
    ({ start with forms := ⟨.blank, plusForm⟩ } : Application).steps.content? = none ∧
    ∃ v, (pressesNext 1 6 (openSteps Solver.ideal { start with forms := ⟨.blank, plusForm⟩ }
        "y := (x + ??)").1).steps = .shown v ∧
      v.excluded = ["1. \x7b'hole_0': 0\x7d"] ∧ (v.enabled = false ↔ v.search = .closed) := by
  obtain ⟨s, hs, htree⟩ := session_plusHole
  obtain ⟨v, hv, hmirrors, -⟩ := steps_mirror_search Solver.ideal
    { start with forms := ⟨.blank, plusForm⟩ } "y := (x + ??)" 1 6 rfl
  obtain ⟨hexcluded, henabled, -⟩ := hmirrors s hs
  refine ⟨rfl, v, hv, ?_, henabled⟩
  have htrace : (traceWithin 1 (stepOrder Solver.ideal { start with forms := ⟨.blank, plusForm⟩ }
      "y := (x + ??)" s) 5 .start).1 = _ := trace_plusOrder htree 1
  rw [hexcluded, htrace]
  decide

theorem session_assign_hole {x : String} (hx : isName x = true) (hfree : x ∉ reserved) :
    (Session.ofProgram (Stmt.assign x .hole).text).result = if "id" ∈ [x] then .error .noSuchItem
      else .ok ⟨some (Stmt.assign x .hole).chained.tree, (Stmt.assign x .hole).names, .empty⟩ := by
  have hlegible : (Stmt.assign x .hole).Legible :=
    Stmt.legible_assign.mpr ⟨hfree, OperandText.hole.legible_expr⟩
  refine session_text (.assign x .hole) hlegible ?_
  intro y hy
  cases List.mem_singleton.mp hy
  exact hx

theorem act_synthesize_stepwise (hstepwise : a.stepwise = true) (hlimit : a.limit = "10") :
    (a.act solver (.synthesize .conditions)).1 =
      (openSteps solver { a with notice := a.notice.clear } (Text.trim a.program)).1 := by
  have hten : Text.readInt "10" = .ok 10 := by decide
  rw [act, synthesizeByRefinement, refinementJob, hlimit, hten]
  simp only [hstepwise]
  rfl

/-- A window for a program whose variable is called like the nodes above variables, after a search was
given up: its buttons can be pressed, though the search behind it has ended. -/
theorem steps_stale_search :
    ∃ v, ([Action.typeProgram "x := ??", .setStepwise true, .synthesize .conditions, .abort,
        .typeProgram "id := ??", .synthesize .conditions].foldl
          (fun a x => (act Solver.ideal a x).1) start).steps = .shown v ∧
      v.enabled = true ∧ v.search = .closed := by
  obtain ⟨s, hs⟩ : ∃ s, (Session.ofProgram (Text.trim "x := ??")).result = .ok s :=
    ⟨_, (session_assign_hole (x := "x") (by decide) (by decide)).trans (if_neg (by decide))⟩
  have hfault : (Session.ofProgram (Text.trim "id := ??")).result = .error .noSuchItem :=
    (session_assign_hole (x := "id") (by decide) (by decide)).trans (if_pos (by decide))
  let typed : Application := { start with program := "x := ??", stepwise := true }
  let search : Search := .running (typed.stepOrder Solver.ideal (Text.trim "x := ??") s) .start
  have hopened : (act Solver.ideal typed (.synthesize .conditions)).1 =
      { typed with steps := .shown (.start search) } := by
    rw [act_synthesize_stepwise rfl rfl]
    exact openSteps_eq rfl hs
  let retyped : Application :=
    { typed with program := "id := ??", steps := .closed (.start .closed) }
  have hclosed : (act Solver.ideal (act Solver.ideal (act Solver.ideal typed
      (.synthesize .conditions)).1 .abort).1 (.typeProgram "id := ??")).1 = retyped := by
    rw [hopened]
    rfl
  have hsteps := steps_openSteps_error Solver.ideal (a := retyped) rfl hfault
  refine ⟨.start .closed, ?_, rfl, rfl⟩
  have htyped : (act Solver.ideal (act Solver.ideal start (.typeProgram "x := ??")).1
      (.setStepwise true)).1 = typed := rfl
  rw [List.foldl_cons, List.foldl_cons, htyped, List.foldl_cons, List.foldl_cons, List.foldl_cons,
    hclosed, List.foldl_cons, List.foldl_nil, act_synthesize_stepwise rfl rfl]
  exact hsteps

end Application

end WhileSketch
