import Mathlib
import WhileSketch.Proofs.While.Legibility
import WhileSketch.Window.Application

/-! What the actions of the application do to its examples and to its output, and what is so in all
states of a run. -/

namespace WhileSketch

/-- All states of a run are good just when none of its steps is bad, if that is so of each step from
a good state. -/
theorem forall_mem_scanl_iff {σ α : Type} {step : σ → α → σ} {Inv Good : σ → Prop}
    {Bad : σ → α → Prop} (hinv : ∀ s x, Inv s → Inv (step s x))
    (hgood : ∀ s x, Inv s → Good s → (Good (step s x) ↔ ¬Bad s x)) {s : σ} (hs : Inv s)
    (hstart : Good s) (xs : List α) :
    (∀ t ∈ xs.scanl step s, Good t) ↔ ∀ p ∈ (xs.scanl step s).zip xs, ¬Bad p.1 p.2 := by
  induction xs generalizing s with
  | nil => simpa using hstart
  | cons x xs ih =>
    rw [List.scanl_cons, List.zip_cons_cons, List.forall_mem_cons, List.forall_mem_cons]
    by_cases hbad : Bad s x
    · have hnext : step s x ∈ xs.scanl step (step s x) := by cases xs <;> simp
      have hworse : ¬Good (step s x) := fun h => (hgood s x hs hstart).mp h hbad
      exact ⟨fun h => absurd (h.2 _ hnext) hworse, fun h => absurd hbad h.1⟩
    · have hnext : Good (step s x) := (hgood s x hs hstart).mpr hbad
      rw [ih (hinv s x hs) hnext]
      exact and_congr ⟨fun _ => hbad, fun _ => hstart⟩ Iff.rfl

def Action.isAboutExamples : Action → Bool
  | .openTable | .closeTable | .typeEntry .. | .addRow | .deleteRow _ | .saveTable => true
  | _ => false

def Action.isAboutSynthesis : Action → Bool
  | .synthesize _ | .finish => true
  | _ => false

namespace Application

variable {solver : Solver} {a b : Application}

def states (solver : Solver) (xs : List Action) : List Application :=
  xs.scanl (fun a x => (a.act solver x).1) start

def examplePart (a : Application) : ExampleStore × Pane ExampleTable :=
  (a.store, a.table)

/-- The output, and for which ways to complete a program it can be verified. -/
def outputPart (a : Application) : String × PerTab Bool :=
  (a.output, a.canVerify)

theorem showReport_examplePart (a : Application) (t : Tab) (r : Report) :
    (a.showReport t r).examplePart = a.examplePart := by
  rw [showReport]
  split_ifs <;> rfl

theorem perform_examplePart (solver : Solver) (a : Application) (j : Job) :
    (a.perform solver j).examplePart = a.examplePart := by
  cases j with
  | byExample | refinement => exact showReport_examplePart ..
  | verification => rfl

theorem launch_examplePart (solver : Solver) (a : Application) (j : Job) :
    (a.launch solver j).examplePart = a.examplePart := by
  rw [launch]
  split_ifs
  · rfl
  · exact perform_examplePart ..

theorem settle_parts {j : Job} (h : a.settle = some (j, b)) :
    b.examplePart = a.examplePart ∧ b.outputPart = a.outputPart := by
  obtain ⟨w, -, hw⟩ := Option.map_eq_some_iff.mp h
  cases hw
  exact ⟨rfl, rfl⟩

theorem openSteps_parts (solver : Solver) (a : Application) (program : String) :
    (a.openSteps solver program).1.examplePart = a.examplePart ∧
      (a.openSteps solver program).1.outputPart = a.outputPart := by
  rw [openSteps]
  split_ifs
  · exact ⟨rfl, rfl⟩
  · split
    exact ⟨rfl, rfl⟩

theorem changeForm_parts (a : Application) (t : Tab)
    (change : ConditionForm → Option (ConditionForm × Notice)) :
    (a.changeForm t change).examplePart = a.examplePart ∧
      (a.changeForm t change).outputPart = a.outputPart := by
  rw [changeForm]
  split <;> exact ⟨rfl, rfl⟩

theorem verify_parts (solver : Solver) (a : Application) (t : Tab) :
    (a.verify solver t).1.examplePart = a.examplePart ∧
      (a.verify solver t).1.outputPart = a.outputPart := by
  rw [verify]
  split_ifs
  · dsimp only
    split
    · exact ⟨rfl, rfl⟩
    · rw [launch]
      split_ifs <;> exact ⟨rfl, rfl⟩
  · exact ⟨rfl, rfl⟩

/-- Actions about other things than the examples or a synthesis leave the examples and the output as
they are. -/
theorem act_parts {x : Action} (hexamples : x.isAboutExamples = false)
    (hsynthesis : x.isAboutSynthesis = false) :
    (a.act solver x).1.examplePart = a.examplePart ∧
      (a.act solver x).1.outputPart = a.outputPart := by
  cases x with
  | synthesize | finish => cases hsynthesis
  | openTable | closeTable | typeEntry | addRow | deleteRow | saveTable => cases hexamples
  | verify t => exact verify_parts solver a t
  | stateCondition t r | resetCondition t r => exact changeForm_parts ..
  | nextStep =>
    rw [act, nextStepWithin]
    split <;> exact ⟨rfl, rfl⟩
  | abort =>
    rw [act, abort]
    split
    · split_ifs
      · split <;> exact ⟨rfl, rfl⟩
      · exact ⟨rfl, rfl⟩
    · exact ⟨rfl, rfl⟩
  | cancel =>
    rw [act, cancel]
    split
    case h_1 hb => exact ⟨(settle_parts hb).1, (settle_parts hb).2⟩
    case h_2 hb => exact settle_parts hb
    case h_3 => exact ⟨rfl, rfl⟩
  | enter label =>
    rw [act]
    split <;> exact ⟨rfl, rfl⟩
  | leave label =>
    rw [act]
    split
    · split <;> exact ⟨rfl, rfl⟩
    · exact ⟨rfl, rfl⟩
  | _ => exact ⟨rfl, rfl⟩

theorem act_examplePart {x : Action} (hx : x.isAboutExamples = false) :
    (a.act solver x).1.examplePart = a.examplePart := by
  cases hs : x.isAboutSynthesis with
  | false => exact (act_parts hx hs).1
  | true =>
    cases x with
    | synthesize t =>
      cases t with
      | examples =>
        rw [act, synthesizeByExample]
        dsimp only
        split
        · rfl
        · exact launch_examplePart ..
      | conditions =>
        rw [act, synthesizeByRefinement]
        dsimp only
        split
        · rfl
        · split_ifs
          · exact (openSteps_parts ..).1
          · exact launch_examplePart ..
    | finish =>
      rw [act, finish]
      split
      case h_1 j b hb => rw [perform_examplePart, (settle_parts hb).1]
      case h_2 => rfl
    | _ => cases hs

theorem vars?_text {c : While.Stmt} {t : Tree Label} (ht : While.StmtTree c t)
    (hlegible : c.Legible) (hvars : ∀ x ∈ c.vars, While.isName x = true) (hid : "id" ∉ c.vars) :
    vars? c.text = .ok (some c.names) := by
  have htree : While.StmtTree c.chained c.chained.tree := (ht.stmtText hlegible).1.stmtTree
  have hnames : While.variableNames c.chained.tree = .ok c.names := by
    rw [htree.variableNames_eq, While.Stmt.names, While.Stmt.vars_chained, if_neg hid,
      ← While.Stmt.names]
  exact bind_eq_ok.mpr ⟨_, ht.parse_text hvars hlegible, bind_eq_ok.mpr ⟨_, hnames, rfl⟩⟩

end Application

end WhileSketch
