import Mathlib
import WhileSketch.Proofs.Synthesis.FilledProgram
import WhileSketch.Proofs.Synthesis.FullExamples
import WhileSketch.Proofs.Synthesis.Refinement
import WhileSketch.Proofs.Window.Actions

/-! The output, which both ways to complete a program share, while for each of them it is said apart
whether the output can be verified. In a run of the application the output is the program that each
way has put there for which it can be verified, just as long as no synthesis of one way changes it
while it can be verified for the other. -/

namespace WhileSketch

section Texts

variable {program text result : String}

theorem While.parse_empty : parse "" = .ok none := by
  have hnone : (language.derive? "").isNone = true := by decide +kernel
  rw [parse, Option.isNone_iff_eq_none.mp hnone]
  rfl

theorem ne_empty_of_parse {t : Tree Label} (h : While.parse text = .ok (some t)) : text ≠ "" := by
  rintro rfl
  rw [While.parse_empty] at h
  cases h

theorem Holes.fill_ne_empty (f : Filling) (h : text ≠ "") : fill f text ≠ "" := by
  have hchars : text.toList ≠ [] := mt String.toList_eq_nil_iff.mp h
  obtain ⟨c, cs, hcs⟩ := List.exists_cons_of_ne_nil hchars
  rw [fill, fillWith, ne_eq, String.ofList_eq_empty_iff, hcs, fillChars]
  split
  · exact List.cons_ne_nil _ _
  case h_2 n _ =>
    apply List.append_ne_nil_of_left_ne_nil
    cases f.lookup (String.ofList (c :: cs.take (n - 1))) with
    | none => simp
    | some n => exact toString_ne_nil n

theorem ByExample.exists_parse_of_synthesize {solver : Solver} {s : Session} {spec : Specification}
    {limit : Int} (h : synthesize solver s spec limit program = .ok result) :
    ∃ t₀ t, While.parse program = .ok (some t₀) ∧
      While.parse (Holes.nameAll program).1 = .ok (some t) := by
  obtain ⟨t₀?, ht₀, h⟩ := bind_eq_ok.mp h
  obtain ⟨-, h⟩ := guard_eq_ok.mp h
  cases t₀? with
  | none => cases h
  | some t₀ =>
    obtain ⟨_, -, h⟩ := bind_eq_ok.mp h
    obtain ⟨vars, -, h⟩ := bind_eq_ok.mp h
    cases hfind : Holes.find? vars with
    | some name =>
      rw [hfind] at h
      cases h
    | none =>
      rw [hfind] at h
      obtain ⟨_, -, h⟩ := bind_eq_ok.mp h
      obtain ⟨-, h⟩ := guard_eq_ok.mp h
      obtain ⟨t?, ht, h⟩ := bind_eq_ok.mp h
      cases t? with
      | none => cases h
      | some t => exact ⟨t₀, t, ht₀, ht⟩

theorem ByExample.complete_ne_empty {solver : Solver} {spec : Specification} {limit : Int}
    {inputs outputs : List Settings}
    (h : complete solver spec limit inputs outputs program = .ok result) : result ≠ "" := by
  obtain ⟨_, -, h⟩ := bind_eq_ok.mp h
  obtain ⟨s, -, h⟩ := bind_eq_ok.mp h
  obtain ⟨t₀, t, ht₀, ht⟩ := exists_parse_of_synthesize h
  have hreads := reads_of_parse ht₀ ht
  obtain ⟨u, hu, hunrolled⟩ := hreads.unroll limit
  obtain ⟨-, _, m, -, -, rfl⟩ := hreads.of_synthesize hu hunrolled h
  exact Holes.fill_ne_empty _ (ne_empty_of_parse ht)

theorem Refinement.complete_ne_empty {solver : Solver} {spec : Specification} {limit : Int}
    (h : complete solver spec limit program = .ok result) : result ≠ "" := by
  obtain ⟨s, -, h⟩ := bind_eq_ok.mp h
  obtain ⟨sketch, hsketch, h⟩ := bind_eq_ok.mp h
  obtain ⟨-, -, t, _, ht, -, -, -, hshows⟩ := Sketch.shows_of_prepare hsketch
  obtain ⟨f, -, -, rfl⟩ := runWithin_eq_ok hshows.isHole (fills_zeros hshows.isHole) h
  exact Holes.fill_ne_empty f (ne_empty_of_parse ht)

end Texts

theorem append_ne_empty {s : String} (h : s ≠ "") (t : String) : s ++ t ≠ "" :=
  fun happend => h (String.append_eq_empty_iff.mp happend).1

namespace Report

/-- There is a program to show, or something to say about what went wrong. -/
def Says (r : Report) : Prop :=
  r.output ≠ "" ∨ r.error ≠ ""

theorem says_ofFault (program : String) (f : Fault) : (ofFault program f).Says := by
  right
  rw [ofFault.eq_def]
  split
  · simp
  · simp
  · simp [-String.reduceAppend]
  · exact append_ne_empty (by decide) f.message

theorem says_ofRefinement {x : Except Fault String} (hx : ∀ s, x = .ok s → s ≠ "")
    (program : String) : (ofRefinement program x).Says := by
  cases x with
  | ok s => exact .inl (hx s rfl)
  | error f =>
    rw [ofRefinement]
    split_ifs
    · exact .inr (by simp [-String.reduceAppend])
    · exact says_ofFault program f

theorem says_ofExamples {x : Except Fault String} (hx : ∀ s, x = .ok s → s ≠ "")
    (program : String) : (ofExamples program x).Says := by
  rw [ofExamples.eq_def]
  split
  case h_1 s => exact .inl (hx s rfl)
  case h_2 => exact .inr (by simp [-String.reduceAppend])
  case h_3 f _ =>
    split_ifs
    · exact .inr (by simp [-String.reduceAppend])
    · exact says_ofFault program f

end Report

namespace PerTab

variable {α : Type}

theorem get_set (p : PerTab α) (t u : Tab) (a : α) :
    (p.set t a).get u = if u = t then a else p.get u := by
  cases t <;> cases u <;> rfl

theorem set_set (p : PerTab α) (t : Tab) (a b : α) : (p.set t a).set t b = p.set t b := by
  cases t <;> rfl

end PerTab

def Job.report? (solver : Solver) : Job → Option (Tab × Report)
  | byExample spec limit inputs outputs program =>
    some (.examples, .ofExamples program
      (ByExample.complete solver spec limit inputs outputs program))
  | refinement spec limit program =>
    some (.conditions, .ofRefinement program (Refinement.complete solver spec limit program))
  | verification .. => none

namespace Application

variable {solver : Solver} {a b : Application}

/-- The end of a synthesis that is shown when something is done. A refusal to complete the program
from examples is shown like such an end, while a refusal to do so from conditions leaves the output
alone. -/
def reported? (solver : Solver) (a : Application) : Action → Option (Tab × Report)
  | .synthesize .examples =>
    match a.exampleJob with
    | .error reason => some (.examples, ⟨"", reason⟩)
    | .ok j => if a.hanging then none else j.report? solver
  | .synthesize .conditions =>
    match a.refinementJob with
    | .error _ => none
    | .ok j => if a.stepwise then none else if a.hanging then none else j.report? solver
  | .finish => a.waiting.getLast?.bind (Job.report? solver)
  | _ => none

def afterReport (p : String × PerTab Bool) : Option (Tab × Report) → String × PerTab Bool
  | some (t, r) => (r.output, p.2.set t (!r.output.isEmpty))
  | none => p

theorem showReport_outputPart (a : Application) (t : Tab) {r : Report} (h : r.Says) :
    (a.showReport t r).outputPart = afterReport a.outputPart (some (t, r)) := by
  rw [showReport, afterReport]
  cases ho : r.output.isEmpty with
  | true =>
    have hempty : r.output = "" := String.isEmpty_iff.mp ho
    have he : ¬r.error.isEmpty = true := fun he => by simp_all [Report.Says]
    rw [if_pos rfl, if_neg he, hempty]
    rfl
  | false =>
    rw [if_neg Bool.false_ne_true]
    split_ifs
    · rfl
    · simp only [outputPart, fail, clearOutput, PerTab.set_set, Bool.not_false]

theorem perform_outputPart (solver : Solver) (a : Application) (j : Job) :
    (a.perform solver j).outputPart = afterReport a.outputPart (j.report? solver) := by
  cases j with
  | byExample spec limit inputs outputs program =>
    apply showReport_outputPart
    exact Report.says_ofExamples (fun _ => ByExample.complete_ne_empty) program
  | refinement spec limit program =>
    apply showReport_outputPart
    exact Report.says_ofRefinement (fun _ => Refinement.complete_ne_empty) program
  | verification => rfl

theorem launch_outputPart (solver : Solver) (a : Application) (j : Job) :
    (a.launch solver j).outputPart =
      afterReport a.outputPart (if a.hanging then none else j.report? solver) := by
  rw [launch]
  split_ifs
  · rfl
  · exact perform_outputPart solver a j

theorem synthesizeByExample_outputPart (solver : Solver) (a : Application) :
    (a.synthesizeByExample solver).outputPart =
      afterReport a.outputPart (a.reported? solver (.synthesize .examples)) := by
  have hjob : exampleJob { a with notice := a.notice.clear } = a.exampleJob := rfl
  rw [synthesizeByExample, hjob, reported?]
  cases a.exampleJob with
  | error reason => rfl
  | ok j => exact launch_outputPart ..

theorem synthesizeByRefinement_outputPart (solver : Solver) (a : Application) :
    (a.synthesizeByRefinement solver).1.outputPart =
      afterReport a.outputPart (a.reported? solver (.synthesize .conditions)) := by
  have hjob : refinementJob { a with notice := a.notice.clear } = a.refinementJob := rfl
  rw [synthesizeByRefinement, hjob, reported?]
  cases a.refinementJob with
  | error reason => rfl
  | ok j =>
    dsimp only
    split_ifs with hstepwise hhanging
    · exact (openSteps_parts ..).2
    · rw [launch_outputPart, if_pos hhanging]
      rfl
    · rw [launch_outputPart, if_neg hhanging]
      rfl

theorem finish_outputPart (solver : Solver) (a : Application) :
    (a.finish solver).outputPart = afterReport a.outputPart (a.reported? solver .finish) := by
  rw [finish, reported?]
  cases hb : a.settle with
  | none =>
    have hnone : a.waiting.getLast? = none := Option.map_eq_none_iff.mp hb
    rw [hnone]
    rfl
  | some p =>
    obtain ⟨j, b⟩ := p
    obtain ⟨w, hw, hj⟩ := Option.map_eq_some_iff.mp hb
    cases hj
    rw [hw]
    exact perform_outputPart ..

theorem act_outputPart_examples {x : Action} (hx : x.isAboutExamples = true) :
    (a.act solver x).1.outputPart = a.outputPart := by
  cases x with
  | openTable =>
    rw [act, openTable]
    split <;> rfl
  | saveTable =>
    rw [act, saveTable]
    split
    · rfl
    · split <;> rfl
  | deleteRow row =>
    rw [act, deleteRow]
    dsimp only
    split <;> rfl
  | closeTable | typeEntry | addRow => rfl
  | _ => cases hx

/-- What is done changes the output only by showing the end of a synthesis. -/
theorem act_outputPart (solver : Solver) (a : Application) (x : Action) :
    (a.act solver x).1.outputPart = afterReport a.outputPart (a.reported? solver x) := by
  cases hs : x.isAboutSynthesis with
  | true =>
    cases x with
    | synthesize t =>
      cases t with
      | examples => exact synthesizeByExample_outputPart solver a
      | conditions => exact synthesizeByRefinement_outputPart solver a
    | finish => exact finish_outputPart solver a
    | _ => cases hs
  | false =>
    have hnone : a.reported? solver x = none := by
      cases x with
      | synthesize | finish => cases hs
      | _ => rfl
    rw [hnone, afterReport]
    cases hx : x.isAboutExamples with
    | true => exact act_outputPart_examples hx
    | false => exact (act_parts hx hs).2

/-- An action changes the output while it can be verified for another way to complete a program. -/
def Overwrites (solver : Solver) (a : Application) (x : Action) : Prop :=
  ∃ t r, a.reported? solver x = some (t, r) ∧
    ∃ u ≠ t, a.canVerify.get u = true ∧ r.output ≠ a.output

end Application

/-- The application, together with the program that the latest synthesis of each way has put into the
output, which is empty if it has put none there. -/
structure Watched where
  app : Application
  put : PerTab String

namespace Watched

variable {solver : Solver} {w : Watched}

def start : Watched :=
  ⟨.start, ⟨"", ""⟩⟩

def act (solver : Solver) (w : Watched) (x : Action) : Watched where
  app := (w.app.act solver x).1
  put := match w.app.reported? solver x with
    | some (t, r) => w.put.set t r.output
    | none => w.put

def states (solver : Solver) (xs : List Action) : List Watched :=
  xs.scanl (act solver) start

/-- If the output can be verified for a way to complete a program, it is the one that the latest
synthesis of this way has put there. -/
def Owns (w : Watched) : Prop :=
  ∀ t, w.app.canVerify.get t = true → w.app.output ≠ "" ∧ w.app.output = w.put.get t

theorem owns_start : start.Owns := by
  intro t ht
  cases t <;> cases ht

theorem Owns.act_of_none {x : Action} (h : w.Owns) (hr : w.app.reported? solver x = none) :
    (w.act solver x).Owns := by
  have hput : (w.act solver x).put = w.put := by rw [act, hr]
  have happ : (w.act solver x).app.outputPart = w.app.outputPart := by
    rw [act, Application.act_outputPart, hr, Application.afterReport]
  obtain ⟨houtput, hverify⟩ := Prod.mk.inj happ
  rw [Owns, houtput, hverify, hput]
  exact h

/-- The end of a synthesis leaves the output with the other owners only if it stays the same. -/
theorem Owns.act_of_some {x : Action} {t : Tab} {r : Report} (h : w.Owns)
    (hr : w.app.reported? solver x = some (t, r)) :
    (w.act solver x).Owns ↔ ∀ u ≠ t, w.app.canVerify.get u = true → r.output = w.app.output := by
  have hput : (w.act solver x).put = w.put.set t r.output := by rw [act, hr]
  have happ : (w.act solver x).app.outputPart =
      (r.output, w.app.canVerify.set t (!r.output.isEmpty)) := by
    rw [act, Application.act_outputPart, hr]
    rfl
  obtain ⟨houtput, hverify⟩ := Prod.mk.inj happ
  rw [Owns, houtput, hverify, hput]
  constructor
  · intro hall u hu hcan
    have hkept := (hall u (by rwa [PerTab.get_set, if_neg hu])).2
    rwa [PerTab.get_set, if_neg hu, ← (h u hcan).2] at hkept
  · intro hsame u hcan
    rw [PerTab.get_set] at hcan ⊢
    split_ifs at hcan ⊢ with hu
    · simpa using hcan
    · rw [hsame u hu hcan]
      exact h u hcan

/-- A step keeps the output with its owners unless it overwrites the output of another one. -/
theorem Owns.act_iff (h : w.Owns) (x : Action) :
    (w.act solver x).Owns ↔ ¬w.app.Overwrites solver x := by
  cases hr : w.app.reported? solver x with
  | none => exact iff_of_true (h.act_of_none hr) (by simp [Application.Overwrites, hr])
  | some p =>
    obtain ⟨t, r⟩ := p
    rw [h.act_of_some hr]
    constructor
    · rintro hsame ⟨_, _, hr', u, hu, hcan, hne⟩
      cases hr.symm.trans hr'
      exact hne (hsame u hu hcan)
    · intro hnot u hu hcan
      by_contra hne
      exact hnot ⟨t, r, hr, u, hu, hcan, hne⟩

theorem map_app_states (solver : Solver) (xs : List Action) :
    (states solver xs).map app = Application.states solver xs := by
  have hrun (w : Watched) : (xs.scanl (act solver) w).map app =
      xs.scanl (fun a x => (a.act solver x).1) w.app := by
    induction xs generalizing w with
    | nil => rfl
    | cons x xs ih =>
      rw [List.scanl_cons, List.scanl_cons, List.map_cons, ih]
      rfl
  exact hrun start

/-- In all states of a run the output can be verified only for ways to complete a program whose latest
synthesis has put it there, just when no step overwrites it while it can be verified for another. -/
theorem owns_states_iff (solver : Solver) (xs : List Action) :
    (states solver xs).map app = Application.states solver xs ∧
      ((∀ w ∈ states solver xs, w.Owns) ↔
        ∀ p ∈ (Application.states solver xs).zip xs, ¬p.1.Overwrites solver p.2) := by
  refine ⟨map_app_states solver xs, ?_⟩
  rw [← map_app_states, List.zip_map_left, List.forall_mem_map]
  have hstep (w : Watched) (x : Action) (_ : True) (h : w.Owns) :
      (w.act solver x).Owns ↔ ¬w.app.Overwrites solver x := h.act_iff x
  exact @forall_mem_scanl_iff _ _ _ (fun _ => True) _ _ (fun _ _ h => h) hstep _ trivial
    owns_start xs

end Watched

section SetOne

open While

theorem While.legible_setOne : (Stmt.assign "x" (.num 1)).Legible := by
  have hone : Text.readInt (toString (1 : Int)) = .ok 1 := by decide
  exact Stmt.legible_assign.mpr ⟨by decide, Expr.legible_num.mpr hone⟩

theorem While.parse_setOne : parse "x := 1" = .ok (some (Stmt.assign "x" (.num 1)).tree) := by
  have htree := StmtTree.assign "x" (.num 1)
  exact htree.parse_text (by decide) legible_setOne

theorem While.variableNames_setOne : variableNames (Stmt.assign "x" (.num 1)).tree = .ok ["x"] := by
  have htree := (StmtTree.assign "x" (.num 1)).tree
  exact htree.variableNames_eq.trans (if_neg (by decide))

theorem ByExample.complete_setOne (solver : Solver) (spec : Specification) (limit : Int) :
    complete solver spec limit [] [] "x := 1" = .error .programHasNoHoles := by
  have hsession : (Session.ofProgram "x := 1").result =
      .ok ⟨some (Stmt.assign "x" (.num 1)).tree, ["x"], .empty⟩ := by
    rw [Session.ofProgram, parse_setOne]
    show Transcript.result (liftM (variableNames (Stmt.assign "x" (.num 1)).tree) >>= fun vars =>
      pure (Session.mk (some (Stmt.assign "x" (.num 1)).tree) vars .empty)) = _
    rw [variableNames_setOne]
    rfl
  refine bind_eq_error.mpr (.inr ⟨_, hsession, bind_eq_error.mpr (.inr ⟨_, rfl, ?_⟩)⟩)
  refine bind_eq_error.mpr (.inr ⟨_, parse_setOne, ?_⟩)
  refine bind_eq_error.mpr (.inr ⟨_, rfl, bind_eq_error.mpr (.inr ⟨_, variableNames_setOne, ?_⟩)⟩)
  rfl

theorem Refinement.complete_empty (solver : Solver) (spec : Specification) (limit : Int) :
    complete solver spec limit "" = .error .programNotValid := by
  have hsession : (Session.ofProgram "").result = .ok ⟨none, [], .empty⟩ := by
    rw [Session.ofProgram, parse_empty]
    rfl
  have hprepare : (Sketch.prepare ⟨none, [], .empty⟩ limit "").result =
      .error .programNotValid := by
    rw [Sketch.prepare, Sketch.check, parse_empty]
    rfl
  exact bind_eq_error.mpr (.inr ⟨_, hsession, bind_eq_error.mpr (.inl hprepare)⟩)

namespace Application

variable {solver : Solver} {a : Application}

theorem exampleJob_setOne : exampleJob { start with program := "x := 1" } =
    .ok (.byExample start.forms.examples.specification 10 [] [] "x := 1") := by
  have hlimit : Text.readInt "10" = .ok 10 := by decide
  have hvars : vars? (Text.trim "x := 1") = .ok (some ["x"]) :=
    vars?_text (c := .assign "x" (.num 1)) (.assign "x" (.num 1)) legible_setOne (by decide)
      (by decide)
  rw [exampleJob]
  dsimp only [start]
  rw [hlimit, hvars]
  rfl

theorem synthesize_setOne :
    (act solver { start with program := "x := 1" } (.synthesize .examples)).1 = { start with
      program := "x := 1",
      notice := .failure "Message: Program has no holes. You can try to verify your program.",
      output := "x := 1", canVerify := ⟨true, false⟩ } := by
  have hclear : { start with program := "x := 1", notice := start.notice.clear } =
      ({ start with program := "x := 1" } : Application) := rfl
  rw [act, synthesizeByExample]
  dsimp only
  rw [hclear, exampleJob_setOne]
  dsimp only
  rw [launch, perform, ByExample.complete_setOne]
  rfl

theorem synthesize_empty (hprogram : a.program = "") (hlimit : a.limit = "10")
    (hstepwise : a.stepwise = false) (hhanging : a.hanging = false) :
    (act solver a (.synthesize .conditions)).1.outputPart =
      ("", a.canVerify.set .conditions false) := by
  have hten : Text.readInt "10" = .ok 10 := by decide
  have hjob : a.refinementJob = .ok (.refinement a.forms.conditions.specification 10 "") := by
    rw [refinementJob, hlimit, hten, hprogram]
    rfl
  rw [act_outputPart, reported?, hjob, hstepwise, hhanging]
  dsimp only
  rw [if_neg Bool.false_ne_true, if_neg Bool.false_ne_true, Job.report?,
    Refinement.complete_empty]
  rfl

/-- The output is taken away by one way to complete a program, while it can still be verified for
the other. -/
theorem emptied_output :
    ∃ a ∈ states Solver.ideal [.typeProgram "x := 1", .synthesize .examples, .typeProgram "",
        .synthesize .conditions], a.canVerify.get .examples = true ∧ a.output = "" := by
  have htyped (a : Application) (text : String) :
      (act Solver.ideal a (.typeProgram text)).1 = { a with program := text } := rfl
  have hlast (a : Application) (h : a.outputPart = ("", ⟨true, false⟩)) :
      a.canVerify.get .examples = true ∧ a.output = "" := by
    obtain ⟨houtput, hverify⟩ := Prod.mk.inj h
    rw [hverify]
    exact ⟨rfl, houtput⟩
  refine ⟨_, List.mem_of_getLast? List.getLast?_scanl, ?_⟩
  dsimp only [List.foldl_cons, List.foldl_nil]
  rw [htyped start, synthesize_setOne, htyped]
  exact hlast _ (synthesize_empty rfl rfl rfl rfl)

end Application

end SetOne

end WhileSketch
