import Mathlib
import WhileSketch.Synthesis.ByExample
import WhileSketch.Proofs.Synthesis.Naming
import WhileSketch.Proofs.Synthesis.Refutation
import WhileSketch.Proofs.While.Legibility

/-! What is asked about the holes of a program when they are filled from examples. All examples go
into one question, in which the inputs of each are assigned in front of the program, but behind the
precondition. -/

namespace WhileSketch

open While Holes Refinement

namespace Transcript

variable {α β : Type} {x : Transcript α} {f : α → Transcript β}

theorem always_forM {g : α → Transcript PUnit} (hg : ∀ a, (g a).Always ⟨⟩) (l : List α) :
    Always (l.forM g) ⟨⟩ := by
  induction l with
  | nil => exact always_pure _
  | cons a l ih => exact (hg a).bind ih

theorem always_mapM {g : α → Transcript β} {r : α → β} (hg : ∀ a, (g a).Always (r a)) (l : List α) :
    Always (l.mapM g) (l.map r) := by
  induction l with
  | nil => exact always_pure _
  | cons a l ih =>
    rw [List.mapM_cons]
    exact (hg a).bind (ih.bind (always_pure _))

end Transcript

namespace Examples

open Transcript

def required (e : Examples) (vars : List String) : List Requirement :=
  (e.inputs.zip e.outputs).map fun p => ⟨settings vars p.1, settings vars p.2⟩

theorem requirements_result (e : Examples) (vars : List String) :
    (e.requirements vars).result = .ok (e.required vars) := by
  have hreport : ∀ heading l, (reportSettings heading l).Always ⟨⟩ := fun heading l =>
    (always_say _).bind (always_forM (fun _ => always_say _) l)
  refine Always.result (always_mapM (fun p => ?_) _)
  exact (hreport _ _).bind ((hreport _ _).bind ((always_say _).bind (always_pure _)))

theorem mem_of_mem_settings {vars : List String} {entries : Entries} {e : String × Int}
    (he : e ∈ settings vars entries) : e.1 ∈ vars := by
  obtain ⟨⟨x, n?⟩, hmem, hsome⟩ := List.mem_filterMap.mp he
  obtain ⟨n, -, rfl⟩ := Option.map_eq_some_iff.mp hsome
  exact (List.of_mem_zip hmem).1

theorem holds_expresses {names : List String} {settings : Settings}
    (h : ∀ e ∈ settings, e.1 ∈ names) :
    (holds settings).Expresses names fun s => ∀ e ∈ settings, s e.1 = e.2 := by
  intro env henv
  refine exists_foldlM fun e he v p hv => ?_
  obtain ⟨x, hx, hxd⟩ := Env.get_denotes henv (h e he)
  obtain ⟨y, hy, hya⟩ : ∃ y, Value.operate .eq x (.int e.2) = .ok y ∧
      y.Asserts names fun s => env.state s e.1 = e.2 :=
    Value.operate_asserts rfl hxd (Value.denotes_int e.2)
  obtain ⟨z, hz, hza⟩ := Value.conj_pair hv hya
  refine ⟨z, ?_, hza⟩
  simp only [bind, Except.bind, hx, hy, hz]

end Examples

namespace ByExample

section Reading

variable {program : String} {t₀ t : Tree Label} {a c : Stmt}

/-- A program with holes and the one with names in their place, as they are read from their texts. -/
structure Reads (program : String) (t₀ t : Tree Label) (a c : Stmt) : Prop where
  given : parse program = .ok (some t₀)
  named : parse (nameAll program).1 = .ok (some t)
  givenTree : StmtTree a t₀
  namedTree : StmtTree c t
  isName : ∀ x ∈ c.vars, While.isName x = true
  notReserved : ∀ x ∈ c.vars, x ∉ reserved
  legible : c.Legible
  vars : ∀ x ∈ c.vars, x ∈ a.vars ∨ x ∈ (nameAll program).2
  kept : ∀ x ∈ a.vars, x ∈ c.vars
  assigned : ∀ x ∈ c.assigned, x ∈ a.vars

theorem reads_of_parse (h₀ : parse program = .ok (some t₀))
    (h : parse (nameAll program).1 = .ok (some t)) :
    Reads program t₀ t (Stmt.ofTree t₀) (Stmt.ofTree t) := by
  obtain ⟨a, c, ts, ha, rfl, hc, hts, hvars, hassigned⟩ := parse_named h₀ h
  have hmem : ∀ x ∈ c.vars, .name x ∈ nameTokens 0 ts := fun x hx => (hc.name_mem_iff x).mpr hx
  rw [ha.ofTree_eq, hc.stmtTree.ofTree_eq]
  exact ⟨h₀, h, ha, hc.stmtTree, fun x hx => hts.isName_of_mem (hmem x hx),
    fun x hx => hc.legible _ (hmem x hx), hc.legible_stmt, fun x hx => (hvars x).mp hx,
    fun x hx => (hvars x).mpr (.inl hx), hassigned⟩

theorem Reads.unroll (h : Reads program t₀ t a c) (limit : Int) :
    ∃ u, While.unroll limit t = .ok u ∧ StmtTree (c.unrolled limit) u := by
  refine h.namedTree.unroll ?_
  rintro x hx rfl
  have hname := h.isName _ hx
  revert hname
  decide

theorem isHole_of_mem_holes {x : String} (hx : x ∈ (nameAll program).2) : isHole x = true := by
  obtain ⟨i, -, rfl⟩ := List.mem_map.mp hx
  exact Sketch.isHole_name i

end Reading

section Questions

variable {b : Stmt} {P Q I : Condition} {r : Examples.Requirement} {rs : List Examples.Requirement}

/-- What an example asks of a state: if the precondition is true in it, the program that starts from
it with the inputs leads to the outputs and the postcondition. -/
def Asks (b : Stmt) (P Q I : Condition) (r : Examples.Requirement) (s : State) : Prop :=
  P.Holds s → b.Weakest b.names I.Holds (fun s' => Q.Holds s' ∧ ∀ e ∈ r.outputs, s' e.1 = e.2)
    (assignAll r.inputs s)

/-- A statement without loops that is read from its text, with conditions about its variables. -/
structure Framed (b : Stmt) (P Q I : Condition) : Prop where
  isName : ∀ x ∈ b.vars, While.isName x = true
  tree : ∃ u, StmtTree b u
  isSorted : b.isSorted = true
  isLoopFree : b.isLoopFree = true
  pre : P.IsTruth b.vars
  post : Q.IsTruth b.vars
  invariant : I.IsTruth b.vars

structure About (r : Examples.Requirement) (vars : List String) : Prop where
  inputs : ∀ e ∈ r.inputs, e.1 ∈ vars
  outputs : ∀ e ∈ r.outputs, e.1 ∈ vars

theorem goal_of_parse (hb : Framed b P Q I) (hr : About r b.vars) {w : Tree Label}
    (hw : parse (Sketch.assignments r.inputs ++ b.text) = .ok (some w)) :
    ∃ v, goal ⟨P.eval, Q.eval, I.eval⟩ b.names b.text r = .ok v ∧
      v.Asserts b.names (Asks b P Q I r) := by
  obtain ⟨u, hu⟩ := hb.tree
  obtain ⟨u', hu'⟩ := hu.preset r.inputs
  have hvars : ∀ x ∈ (b.preset r.inputs).vars, x ∈ b.vars := fun x hx => by
    obtain ⟨e, he, rfl⟩ | hx := Stmt.mem_vars_preset.mp hx
    · exact hr.inputs e he
    · exact hx
  have htext := hw
  rw [← Stmt.text_preset] at htext
  have htree := hu'.of_parse_text (fun x hx => hb.isName x (hvars x hx)) htext
  have hnames : ∀ x ∈ (b.preset r.inputs).chained.vars, x ∈ b.names := fun x hx => by
    rw [Stmt.vars_chained] at hx
    exact Stmt.mem_names.mpr (hvars x hx)
  have hsorted : (b.preset r.inputs).chained.isSorted = true := by
    rw [Stmt.isSorted_chained, Stmt.isSorted_preset, hb.isSorted]
  have hloop : (b.preset r.inputs).chained.isLoopFree = true := by
    rw [Stmt.isLoopFree_chained, Stmt.isLoopFree_preset, hb.isLoopFree]
  have hpost : (post ⟨P.eval, Q.eval, I.eval⟩ r).Expresses b.names
      fun s => Q.Holds s ∧ ∀ e ∈ r.outputs, s e.1 = e.2 :=
    conj_expresses (Stmt.eval_expresses hb.post)
      (Examples.holds_expresses fun e he => Stmt.mem_names.mpr (hr.outputs e he))
  obtain ⟨a, ha, hae⟩ := wp_expresses hsorted hnames (.inl hloop) (Stmt.eval_expresses hb.invariant)
    hpost
  have hall := Env.symbolic_numeric b.names
  obtain ⟨v, hv, hva⟩ := Stmt.eval_expresses hb.pre _ hall
  obtain ⟨x, hx, hxa⟩ := hae _ hall
  obtain ⟨y, hy, hya⟩ := Value.implies_asserts hva hxa
  refine ⟨y, ?_, hya.congr fun s => ?_⟩
  · rw [goal, hw]
    simp only [bind, Except.bind, htree.ofTree_eq, ha, hv, hx]
    exact hy
  · rw [Env.state_symbolic, Stmt.weakest_chained, Stmt.weakest_preset]
    rfl

theorem parse_of_goal {spec : Specification} {vars : List String} {text : String} {v : Value}
    (h : goal spec vars text r = .ok v) :
    ∃ w, parse (Sketch.assignments r.inputs ++ text) = .ok (some w) := by
  obtain ⟨w?, hw, h⟩ := bind_eq_ok.mp h
  cases w? with
  | none => cases h
  | some w => exact ⟨w, hw⟩

def question (spec : Specification) (b : Stmt) (rs : List Examples.Requirement) :
    Except Fault Formula := do
  (← Value.conj (← rs.mapM (goal spec b.names b.text))).toFormula

theorem mapM_asserts {α : Type} {names : List String} {g : α → Except Fault Value}
    {p : α → State → Prop} {l : List α} (h : ∀ x ∈ l, ∃ v, g x = .ok v ∧ v.Asserts names (p x)) :
    ∃ vs, l.mapM g = .ok vs ∧ (∀ v ∈ vs, v.IsTruth names) ∧
      ∀ s, (∀ v ∈ vs, v.Holds s) ↔ ∀ x ∈ l, p x s := by
  induction l with
  | nil => exact ⟨[], rfl, by simp, by simp⟩
  | cons x l ih =>
    obtain ⟨⟨v, hv, hva⟩, hl⟩ := List.forall_mem_cons.mp h
    obtain ⟨vs, hvs, htruth, hall⟩ := ih hl
    refine ⟨v :: vs, ?_, List.forall_mem_cons.mpr ⟨hva.isTruth, htruth⟩, fun s => ?_⟩
    · rw [List.mapM_cons, hv, hvs]
      rfl
    · rw [List.forall_mem_cons, List.forall_mem_cons, hva.holds_iff, hall]

theorem exists_of_mapM {α β : Type} {g : α → Except Fault β} {l : List α} {ys : List β}
    (h : l.mapM g = .ok ys) : ∀ x ∈ l, ∃ y, g x = .ok y := by
  induction l generalizing ys with
  | nil => simp
  | cons x l ih =>
    rw [List.mapM_cons] at h
    obtain ⟨y, hy, h⟩ := bind_eq_ok.mp h
    obtain ⟨zs, hzs, -⟩ := bind_eq_ok.mp h
    exact List.forall_mem_cons.mpr ⟨⟨y, hy⟩, ih hzs⟩

/-- The question says of each state what the examples ask of it. -/
theorem question_of_parse (hb : Framed b P Q I) (hrs : ∀ r ∈ rs, About r b.vars)
    (hparse : ∀ r ∈ rs, ∃ w, parse (Sketch.assignments r.inputs ++ b.text) = .ok (some w)) :
    ∃ φ, question ⟨P.eval, Q.eval, I.eval⟩ b rs = .ok φ ∧
      ∀ s, φ.Holds s ↔ ∀ r ∈ rs, Asks b P Q I r s := by
  have hgoal : ∀ r ∈ rs, ∃ v, goal ⟨P.eval, Q.eval, I.eval⟩ b.names b.text r = .ok v ∧
      v.Asserts b.names (Asks b P Q I r) := fun r hr => by
    obtain ⟨w, hw⟩ := hparse r hr
    exact goal_of_parse hb (hrs r hr) hw
  obtain ⟨vs, hvs, htruth, hall⟩ := mapM_asserts hgoal
  obtain ⟨v, hv, hva⟩ := Value.conj_asserts htruth
  obtain ⟨φ, hφ, -, hiff⟩ := Value.toFormula_of_isTruth hva.isTruth
  refine ⟨φ, ?_, fun s => ?_⟩
  · rw [question, hvs]
    simp only [bind, Except.bind, hv]
    exact hφ
  · rw [hiff, hva.holds_iff, hall]

theorem question_holds (hb : Framed b P Q I) (hrs : ∀ r ∈ rs, About r b.vars) {φ : Formula}
    (h : question ⟨P.eval, Q.eval, I.eval⟩ b rs = .ok φ) (s : State) :
    φ.Holds s ↔ ∀ r ∈ rs, Asks b P Q I r s := by
  obtain ⟨vs, hvs, -⟩ := bind_eq_ok.mp h
  have hparse : ∀ r ∈ rs, ∃ w, parse (Sketch.assignments r.inputs ++ b.text) = .ok (some w) :=
    fun r hr => by
      obtain ⟨v, hv⟩ := exists_of_mapM hvs r hr
      exact parse_of_goal hv
  obtain ⟨ψ, hψ, hiff⟩ := question_of_parse hb hrs hparse
  rw [h] at hψ
  cases hψ
  exact hiff s

end Questions

section Answers

variable {solver : Solver} {session : Session} {spec : Specification} {limit : Int}
  {program result : String} {t₀ t u : Tree Label} {a c : Stmt}

/-- The checks that are made before anything is asked about the holes. -/
structure Checked (session : Session) (program : String) (a : Stmt) : Prop where
  tree : session.tree? ≠ none
  noId : "id" ∉ a.vars
  notHole : ∀ x ∈ a.vars, isHole x = false
  holes : (nameAll program).2 ≠ []
  examples : session.examples.inputs ≠ [] ∨ session.examples.outputs ≠ []

def fillingOf (program : String) (m : Model) : Filling :=
  Holes.complete (m.filter fun (x, _) => isHole x) (nameAll program).2

theorem guard_eq_ok {α : Type} {p : Prop} [Decidable p] {e : Fault} {k : Except Fault α} {x : α} :
    (if p then (throw e : Except Fault PUnit) >>= fun _ => k else k) = .ok x ↔ ¬ p ∧ k = .ok x := by
  by_cases hp : p
  · rw [if_pos hp]
    exact ⟨nofun, fun h => absurd hp h.1⟩
  · simp [hp]

theorem Reads.id_mem_vars_iff (h : Reads program t₀ t a c) :
    "id" ∈ (c.unrolled limit).vars ↔ "id" ∈ a.vars := by
  rw [Stmt.mem_vars_unrolled]
  refine ⟨fun hx => (h.vars _ hx).resolve_right fun hx => ?_, h.kept _⟩
  exact absurd (isHole_of_mem_holes hx) (by decide)

/-- If a program is returned, the checks are passed, and the question has an answer, which is filled
in. -/
theorem Reads.of_synthesize (h : Reads program t₀ t a c) (hu : While.unroll limit t = .ok u)
    (htree : StmtTree (c.unrolled limit) u)
    (hr : synthesize solver session spec limit program = .ok result) :
    Checked session program a ∧
      ∃ φ m, question spec (c.unrolled limit) (session.examples.required a.names) = .ok φ ∧
        solver.model? φ = some m ∧
        result = Holes.fill (fillingOf program m) (nameAll program).1 := by
  obtain ⟨t?, ht, hr⟩ := bind_eq_ok.mp hr
  cases h.given.symm.trans ht
  obtain ⟨hsome, hr⟩ := guard_eq_ok.mp hr
  obtain ⟨_, ht, hr⟩ := bind_eq_ok.mp hr
  cases ht
  obtain ⟨vars, hvars, hr⟩ := bind_eq_ok.mp hr
  rw [h.givenTree.variableNames_eq] at hvars
  split_ifs at hvars with hid
  cases hvars
  cases hfind : find? a.names with
  | some name =>
    rw [hfind] at hr
    cases hr
  | none =>
    rw [hfind] at hr
    obtain ⟨rs, hrs, hr⟩ := bind_eq_ok.mp hr
    cases (session.examples.requirements_result a.names).symm.trans hrs
    obtain ⟨hholes, hr⟩ := guard_eq_ok.mp hr
    obtain ⟨t?, ht, hr⟩ := bind_eq_ok.mp hr
    cases h.named.symm.trans ht
    obtain ⟨u', hu', hr⟩ := bind_eq_ok.mp hr
    cases hu.symm.trans hu'
    obtain ⟨l, hl, hr⟩ := bind_eq_ok.mp hr
    cases htree.print_eq.symm.trans hl
    obtain ⟨task, -, hr⟩ := bind_eq_ok.mp hr
    obtain ⟨m?, -, hr⟩ := bind_eq_ok.mp hr
    obtain ⟨-, hr⟩ := guard_eq_ok.mp hr
    obtain ⟨hexamples, hr⟩ := guard_eq_ok.mp hr
    obtain ⟨vars, hvars, hr⟩ := bind_eq_ok.mp hr
    rw [htree.variableNames_eq, if_neg (mt h.id_mem_vars_iff.mp hid)] at hvars
    cases hvars
    obtain ⟨goals, hgoals, hr⟩ := bind_eq_ok.mp hr
    obtain ⟨v, hv, hr⟩ := bind_eq_ok.mp hr
    obtain ⟨φ, hφ, hr⟩ := bind_eq_ok.mp hr
    refine ⟨⟨by simpa using hsome, hid, fun x hx => ?_, ?_, ?_⟩, φ, ?_⟩
    · simpa using List.find?_eq_none.mp hfind x (Stmt.mem_names.mpr hx)
    · exact fun hnil => hholes (List.isEmpty_iff.mpr hnil)
    · simpa [imp_iff_not_or] using hexamples
    · cases hm : solver.model? φ with
      | none =>
        rw [hm] at hr
        cases hr
      | some m =>
        rw [hm] at hr
        cases hr
        exact ⟨m, bind_eq_ok.mpr ⟨goals, hgoals, bind_eq_ok.mpr ⟨v, hv, hφ⟩⟩, rfl, rfl⟩

/-- If the checks are passed, some input satisfies the conditions, and the question has an answer,
then this answer is filled in. -/
theorem Reads.synthesize_eq_ok (h : Reads program t₀ t a c) (hu : While.unroll limit t = .ok u)
    (htree : StmtTree (c.unrolled limit) u) (hchecked : Checked session program a) {m₀ m : Model}
    (hinput : Task.satisfying? solver ⟨u, spec.pre, spec.post, spec.invariant⟩ = .ok (some m₀))
    {φ : Formula}
    (hφ : question spec (c.unrolled limit) (session.examples.required a.names) = .ok φ)
    (hm : solver.model? φ = some m) :
    synthesize solver session spec limit program =
      .ok (Holes.fill (fillingOf program m) (nameAll program).1) := by
  have hfind : find? a.names = none := List.find?_eq_none.mpr fun x hx => by
    simp [hchecked.notHole x (Stmt.mem_names.mp hx)]
  have hvars := h.givenTree.variableNames_eq.trans (if_neg hchecked.noId)
  have hnames := htree.variableNames_eq.trans (if_neg (mt h.id_mem_vars_iff.mp hchecked.noId))
  obtain ⟨goals, hgoals, hφ⟩ := bind_eq_ok.mp hφ
  obtain ⟨v, hv, hφ⟩ := bind_eq_ok.mp hφ
  refine bind_eq_ok.mpr ⟨_, h.given, guard_eq_ok.mpr ⟨?_, ?_⟩⟩
  · simpa using hchecked.tree
  refine bind_eq_ok.mpr ⟨_, rfl, bind_eq_ok.mpr ⟨_, hvars, ?_⟩⟩
  rw [hfind]
  refine bind_eq_ok.mpr ⟨_, session.examples.requirements_result _, guard_eq_ok.mpr ⟨?_, ?_⟩⟩
  · exact fun hnil => hchecked.holes (List.isEmpty_iff.mp hnil)
  refine bind_eq_ok.mpr ⟨_, h.named, bind_eq_ok.mpr ⟨_, hu, bind_eq_ok.mpr ⟨_, htree.print_eq, ?_⟩⟩⟩
  refine bind_eq_ok.mpr ⟨_, rfl, bind_eq_ok.mpr ⟨_, hinput, guard_eq_ok.mpr ⟨nofun, ?_⟩⟩⟩
  refine guard_eq_ok.mpr ⟨by simpa [imp_iff_not_or] using hchecked.examples, ?_⟩
  refine bind_eq_ok.mpr ⟨_, hnames, bind_eq_ok.mpr ⟨_, hgoals, ?_⟩⟩
  refine bind_eq_ok.mpr ⟨_, hv, bind_eq_ok.mpr ⟨_, hφ, ?_⟩⟩
  rw [hm]
  rfl

end Answers

end ByExample

end WhileSketch
