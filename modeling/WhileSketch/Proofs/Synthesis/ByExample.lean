import Mathlib
import WhileSketch.Proofs.Synthesis.Questions

/-! Programs that are filled from examples. If a program is returned, its runs do what the examples
say from the state that the solver has chosen around their inputs. That is all that can be relied on
unless the inputs leave nothing to choose and nothing is asked of the state before them; then a
program is returned just when there is one. -/

namespace WhileSketch

open While Holes Refinement

section Settings

variable {settings : Settings} {s : State} {x : String}

theorem assignAll_of_not_mem (hx : ∀ e ∈ settings, e.1 ≠ x) : assignAll settings s x = s x := by
  induction settings generalizing s with
  | nil => rfl
  | cons e settings ih =>
    obtain ⟨he, hrest⟩ := List.forall_mem_cons.mp hx
    have hstep : assignAll (e :: settings) s = assignAll settings (Function.update s e.1 e.2) := rfl
    rw [hstep, ih hrest, Function.update_of_ne he.symm]

theorem assignAll_of_mem (hkeys : (settings.map Prod.fst).Nodup) {e : String × Int}
    (he : e ∈ settings) : assignAll settings s e.1 = e.2 := by
  induction settings generalizing s with
  | nil => cases he
  | cons d settings ih =>
    have hstep : assignAll (d :: settings) s = assignAll settings (Function.update s d.1 d.2) := rfl
    rw [List.map_cons, List.nodup_cons] at hkeys
    rw [hstep]
    obtain rfl | he := List.mem_cons.mp he
    · rw [assignAll_of_not_mem, Function.update_self]
      rintro d hd heq
      exact hkeys.1 (heq ▸ List.mem_map_of_mem hd)
    · exact ih hkeys.2 he

theorem Holes.Filling.Agrees.assignAll {f : Filling} (hs : f.Agrees s)
    (hkeys : ∀ e ∈ settings, f.lookup e.1 = none) : f.Agrees (assignAll settings s) := by
  intro x n hx
  rw [assignAll_of_not_mem, hs x n hx]
  rintro e he rfl
  rw [hkeys e he] at hx
  cases hx

theorem nodup_settings {vars : List String} (hvars : vars.Nodup) (entries : Entries) :
    ((Examples.settings vars entries).map Prod.fst).Nodup := by
  have hsub : ((Examples.settings vars entries).map Prod.fst).Sublist vars := by
    induction vars generalizing entries with
    | nil => simp [Examples.settings]
    | cons x vars ih =>
      cases entries with
      | nil => simp [Examples.settings]
      | cons n? entries =>
        have hrest := ih (List.nodup_cons.mp hvars).2 entries
        cases n? with
        | none => exact hrest.cons x
        | some n => exact hrest.cons_cons x
  exact hvars.sublist hsub

theorem While.Stmt.Legible.preset {b : Stmt} (hb : b.Legible)
    (hsettings : ∀ e ∈ settings, e.1 ∉ reserved ∧ Text.readInt (toString e.2) = .ok e.2) :
    (b.preset settings).Legible := by
  induction settings with
  | nil => exact hb
  | cons e settings ih =>
    obtain ⟨⟨hname, hvalue⟩, hrest⟩ := List.forall_mem_cons.mp hsettings
    exact Stmt.legible_seq.mpr
      ⟨Stmt.legible_assign.mpr ⟨hname, Expr.legible_num.mpr hvalue⟩, ih hrest⟩

end Settings

namespace ByExample

section Runs

variable {limit : Int} {c d : Stmt} {f : Filling} {Q : Condition} {r : Examples.Requirement}
  {s s' : State} {names : List String} {inv post : State → Prop}

/-- The run of a program from a state does what an example says: no loop makes more rounds than it
was unrolled for, all claims are met, and at the end the postcondition is true and the outputs are
there. -/
def Meets (limit : Int) (d : Stmt) (Q : Condition) (r : Examples.Requirement) (s : State) : Prop :=
  ∃ s', Run (fun _ => True) (max limit 1).toNat d s (.done s') ∧ Q.Holds s' ∧
    ∀ e ∈ r.outputs, s' e.1 = e.2

theorem Meets.congr {vars : List String} (hvars : ∀ x ∈ d.vars, x ∈ vars) (hQ : Q.IsTruth vars)
    (hr : ∀ e ∈ r.outputs, e.1 ∈ vars) (hs : ∀ x ∈ vars, s x = s' x) (h : Meets limit d Q r s) :
    Meets limit d Q r s' := by
  obtain ⟨u, hrun, hq, hout⟩ := h
  obtain ⟨u', hrun', hu⟩ := hrun.transfer hvars (fun _ h => h) hs
  refine ⟨u', hrun', (hQ.holds_congr hu).mp hq, fun e he => ?_⟩
  rw [← hu _ (hr e he), hout e he]

/-- What is asked of an unrolled program, in a state that agrees with a filling, is a run of the
filled program after unrolling. -/
theorem weakest_unrolled_iff (hs : c.isSorted = true) (hflat : c.isFlat = true)
    (hf : ∀ x ∈ c.assigned, f.lookup x = none) (hagree : f.Agrees s) :
    (c.unrolled limit).Weakest names inv post s ↔
      ∃ s', Run inv ⊤ ((c.fill f).unrolled limit) s (.done s') ∧ post s' := by
  have hsorted : (c.unrolled limit).isSorted = true := by rw [Stmt.isSorted_unrolled, hs]
  have hloop : (c.unrolled limit).isLoopFree = true := Stmt.isLoopFree_unrolled hflat
  have hf' : ∀ x ∈ (c.unrolled limit).assigned, f.lookup x = none :=
    fun x hx => hf x (Stmt.mem_assigned_unrolled.mp hx)
  have hfill : ((c.unrolled limit).fill f).Weakest names inv post s ↔
      (c.unrolled limit).Weakest names inv post s :=
    Stmt.weakest_fill hsorted hloop hf' (fun _ _ => Iff.rfl) hagree
  rw [← hfill, Stmt.weakest_iff_run (n := ⊤) (by rw [Stmt.isLoopFree_fill, hloop]),
    Stmt.fill_unrolled]

theorem meets_of_weakest (hs : c.isSorted = true) (hflat : c.isFlat = true)
    (hf : ∀ x ∈ c.assigned, f.lookup x = none) (hagree : f.Agrees s)
    (hw : (c.unrolled limit).Weakest names inv
      (fun s' => Q.Holds s' ∧ ∀ e ∈ r.outputs, s' e.1 = e.2) s) :
    Meets limit (c.fill f) Q r s := by
  obtain ⟨s', hrun, hq⟩ := (weakest_unrolled_iff hs hflat hf hagree).mp hw
  exact ⟨s', run_unrolled_iff.mp (hrun.weaken fun _ _ => trivial), hq⟩

theorem weakest_of_meets (hs : c.isSorted = true) (hflat : c.isFlat = true)
    (hf : ∀ x ∈ c.assigned, f.lookup x = none) (hagree : f.Agrees s) (hinv : ∀ s, inv s)
    (h : Meets limit (c.fill f) Q r s) :
    (c.unrolled limit).Weakest names inv
      (fun s' => Q.Holds s' ∧ ∀ e ∈ r.outputs, s' e.1 = e.2) s := by
  obtain ⟨s', hrun, hq⟩ := h
  exact (weakest_unrolled_iff hs hflat hf hagree).mpr
    ⟨s', (run_unrolled_iff.mpr hrun).weaken fun s _ => hinv s, hq⟩

end Runs

section Fillings

variable {program : String} {m : Model}

theorem fills_fillingOf (program : String) (m : Model) :
    Fills (fillingOf program m) (nameAll program).2 :=
  fills_complete (fun _ => isHole_of_mem_holes) m

theorem agrees_fillingOf (program : String) (m : Model) : (fillingOf program m).Agrees m.value :=
  agrees_complete (fun _ => isHole_of_mem_holes) m

end Fillings

section Returned

variable {solver : Solver} {session : Session} {limit : Int} {program : String} {t₀ t : Tree Label}
  {a c : Stmt} {P Q I : Condition} {r : Examples.Requirement}

theorem about_of_mem {examples : Examples} (he : r ∈ examples.required a.names) :
    About r a.vars := by
  obtain ⟨p, -, rfl⟩ := List.mem_map.mp he
  exact ⟨fun e he => Stmt.mem_names.mp (Examples.mem_of_mem_settings he),
    fun e he => Stmt.mem_names.mp (Examples.mem_of_mem_settings he)⟩

theorem nodup_inputs {examples : Examples} (hr : r ∈ examples.required a.names) :
    (r.inputs.map Prod.fst).Nodup := by
  obtain ⟨p, -, rfl⟩ := List.mem_map.mp hr
  exact nodup_settings (Stmt.nodup_names a) p.1

theorem Reads.framed (h : Reads program t₀ t a c) (hs : c.isSorted = true) (hflat : c.isFlat = true)
    (hP : P.IsTruth a.vars) (hQ : Q.IsTruth a.vars) (hI : I.IsTruth a.vars) :
    Framed (c.unrolled limit) P Q I := by
  have hvars : ∀ x ∈ a.vars, x ∈ (c.unrolled limit).vars :=
    fun x hx => Stmt.mem_vars_unrolled.mpr (h.kept x hx)
  obtain ⟨u, -, htree⟩ := h.unroll limit
  refine ⟨fun x hx => h.isName x (Stmt.mem_vars_unrolled.mp hx), ⟨u, htree⟩, ?_, ?_,
    hP.mono hvars, hQ.mono hvars, hI.mono hvars⟩
  · rw [Stmt.isSorted_unrolled, hs]
  · exact Stmt.isLoopFree_unrolled hflat

theorem Reads.about_unrolled (h : Reads program t₀ t a c) (hr : About r a.vars) :
    About r (c.unrolled limit).vars :=
  ⟨fun e he => Stmt.mem_vars_unrolled.mpr (h.kept _ (hr.inputs e he)),
    fun e he => Stmt.mem_vars_unrolled.mpr (h.kept _ (hr.outputs e he))⟩

theorem Reads.mem_vars_fill (h : Reads program t₀ t a c) {f : Filling}
    (hf : Fills f (nameAll program).2) (hassigned : ∀ x ∈ c.assigned, f.lookup x = none) {x : String}
    (hx : x ∈ (c.fill f).vars) : x ∈ a.vars := by
  rw [Stmt.vars_fill hassigned] at hx
  obtain ⟨hx, hnone⟩ := List.mem_filter.mp hx
  refine (h.vars x hx).resolve_right fun hhole => ?_
  obtain ⟨n, hn⟩ := hf.covers x hhole
  rw [hn] at hnone
  cases hnone

/-- What a returned program does: filled with the values of some state for its holes, it does what
the examples say from the inputs in that state, if the precondition is true there. -/
theorem Reads.meets_of_synthesize (h : Reads program t₀ t a c) (hsolver : solver.Truthful)
    (hs : c.isSorted = true) (hflat : c.isFlat = true) (hP : P.IsTruth a.vars)
    (hQ : Q.IsTruth a.vars) (hI : I.IsTruth a.vars) {result : String}
    (hr : synthesize solver session ⟨P.eval, Q.eval, I.eval⟩ limit program = .ok result) :
    ∃ m : Model, result = Holes.fill (fillingOf program m) (nameAll program).1 ∧
      (∀ x ∈ c.assigned, (fillingOf program m).lookup x = none) ∧
      (P.Holds m.value → ∀ r ∈ session.examples.required a.names,
        Meets limit (c.fill (fillingOf program m)) Q r (assignAll r.inputs m.value)) := by
  obtain ⟨u, hu, htree⟩ := h.unroll limit
  obtain ⟨hchecked, φ, m, hφ, hm, hresult⟩ := h.of_synthesize hu htree hr
  have hkept : ∀ x ∈ a.vars, (fillingOf program m).lookup x = none := fun x hx =>
    (fills_fillingOf program m).lookup_eq_none (hchecked.notHole x hx)
  have hassigned : ∀ x ∈ c.assigned, (fillingOf program m).lookup x = none :=
    fun x hx => hkept x (h.assigned x hx)
  have hasks := (question_holds (h.framed hs hflat hP hQ hI)
    (fun r hr => h.about_unrolled (about_of_mem hr)) hφ m.value).mp (hsolver hm)
  refine ⟨m, hresult, hassigned, fun hpre r hr => ?_⟩
  have hagree := (agrees_fillingOf program m).assignAll
    fun e he => hkept _ ((about_of_mem hr).inputs e he)
  exact meets_of_weakest hs hflat hassigned hagree (hasks r hr hpre)

/-- Where an example gives a value to each variable, it makes no difference what the state is
around its inputs. -/
theorem Reads.meets_of_full (h : Reads program t₀ t a c) (hQ : Q.IsTruth a.vars) {f : Filling}
    (hf : Fills f (nameAll program).2) (hassigned : ∀ x ∈ c.assigned, f.lookup x = none)
    {examples : Examples} (hr : r ∈ examples.required a.names)
    (hfull : ∀ x ∈ a.vars, ∃ n, (x, n) ∈ r.inputs) {s s' : State} (hs' : ∀ e ∈ r.inputs, s' e.1 = e.2)
    (hmeets : Meets limit (c.fill f) Q r (assignAll r.inputs s)) : Meets limit (c.fill f) Q r s' := by
  refine hmeets.congr (fun x => h.mem_vars_fill hf hassigned) hQ (about_of_mem hr).outputs ?_
  intro x hx
  obtain ⟨n, hn⟩ := hfull x hx
  exact (assignAll_of_mem (nodup_inputs hr) hn).trans (hs' _ hn).symm

theorem Reads.parse_preset (h : Reads program t₀ t a c) (limit : Int) (hr : About r a.vars)
    (hvalues : ∀ e ∈ r.inputs, Text.readInt (toString e.2) = .ok e.2) :
    ∃ w, parse (Sketch.assignments r.inputs ++ (c.unrolled limit).text) = .ok (some w) := by
  obtain ⟨u, -, htree⟩ := h.unroll limit
  obtain ⟨u', hu'⟩ := htree.preset r.inputs
  rw [← Stmt.text_preset]
  refine ⟨_, hu'.parse_text (fun x hx => ?_) ((h.legible.unrolled limit).preset fun e he => ?_)⟩
  · obtain ⟨e, he, rfl⟩ | hx := Stmt.mem_vars_preset.mp hx
    · exact h.isName _ (h.kept _ (hr.inputs e he))
    · exact h.isName x (Stmt.mem_vars_unrolled.mp hx)
  · exact ⟨h.notReserved _ (h.kept _ (hr.inputs e he)), hvalues e he⟩

/-- A program is returned if some input satisfies the conditions and some values satisfy what all
examples ask. -/
theorem Reads.exists_synthesize (h : Reads program t₀ t a c) (hsolver : solver.Sound)
    (hchecked : Checked session program a) (hs : c.isSorted = true) (hflat : c.isFlat = true)
    (hP : P.IsTruth a.vars) (hQ : Q.IsTruth a.vars) (hI : I.IsTruth a.vars)
    (hvalues : ∀ r ∈ session.examples.required a.names, ∀ e ∈ r.inputs,
      Text.readInt (toString e.2) = .ok e.2)
    {σ₀ σ : State} (hpre : P.Holds σ₀)
    (hinput : (c.unrolled limit).Weakest (c.unrolled limit).names I.Holds Q.Holds σ₀)
    (hasks : ∀ r ∈ session.examples.required a.names, Asks (c.unrolled limit) P Q I r σ) :
    ∃ result, synthesize solver session ⟨P.eval, Q.eval, I.eval⟩ limit program = .ok result := by
  have hfound : ∀ {φ : Formula} {s : State}, φ.Holds s → ∃ m, solver.model? φ = some m :=
    fun {φ s} hholds => by
      cases hm : solver.model? φ with
      | none => exact absurd hholds (hsolver φ hm s)
      | some m => exact ⟨m, rfl⟩
  obtain ⟨u, hu, htree⟩ := h.unroll limit
  have hframed : Framed (c.unrolled limit) P Q I := h.framed hs hflat hP hQ hI
  obtain ⟨v, hv, hva⟩ := Stmt.eval_expresses hframed.pre _ (Env.symbolic_numeric _)
  obtain ⟨ψ, hψ, hiff⟩ := Task.success_iff htree hframed.isSorted
    (mt h.id_mem_vars_iff.mp hchecked.noId) (.inl hframed.isLoopFree) hv hva
    (Stmt.eval_expresses hframed.post) (Stmt.eval_expresses hframed.invariant)
  obtain ⟨m₀, hm₀⟩ : ∃ m, solver.model? ψ = some m := by
    refine hfound ((hiff σ₀).mpr ⟨?_, hinput⟩)
    rwa [Env.state_symbolic]
  obtain ⟨φ, hφ, hall⟩ := question_of_parse hframed
    (fun r hr => h.about_unrolled (about_of_mem hr))
    fun r hr => h.parse_preset limit (about_of_mem hr) (hvalues r hr)
  obtain ⟨m, hm⟩ := hfound ((hall σ).mpr hasks)
  have hgate : Task.satisfying? solver ⟨u, P.eval, Q.eval, I.eval⟩ = .ok (some m₀) := by
    rw [Task.satisfying?, hψ]
    exact congrArg Except.ok hm₀
  exact ⟨_, h.synthesize_eq_ok hu htree hchecked hgate hφ hm⟩

theorem trivial_eq_eval : Assertion.trivial = Condition.eval (.bool true) :=
  rfl

/-- Where nothing is asked of the state before the inputs, a program is returned if some filling does
what all examples say. -/
theorem Reads.exists_synthesize_of_meets (h : Reads program t₀ t a c) (hsolver : solver.Sound)
    (hchecked : Checked session program a) (hs : c.isSorted = true) (hflat : c.isFlat = true)
    (hQ : Q.IsTruth a.vars) (hne : session.examples.required a.names ≠ [])
    (hvalues : ∀ r ∈ session.examples.required a.names, ∀ e ∈ r.inputs,
      Text.readInt (toString e.2) = .ok e.2)
    {f : Filling} (hf : ∀ x ∈ a.vars, f.lookup x = none)
    (hmeets : ∀ r ∈ session.examples.required a.names, ∀ s, (∀ e ∈ r.inputs, s e.1 = e.2) →
      Meets limit (c.fill f) Q r s) :
    ∃ result, synthesize solver session ⟨.trivial, Q.eval, .trivial⟩ limit program = .ok result := by
  have hassigned : ∀ x ∈ c.assigned, f.lookup x = none := fun x hx => hf x (h.assigned x hx)
  have hagree : ∀ r ∈ session.examples.required a.names,
      f.Agrees (assignAll r.inputs (overwrite f fun _ => 0)) := fun r hr =>
    (agrees_overwrite f _).assignAll fun e he => hf _ ((about_of_mem hr).inputs e he)
  have hw : ∀ r ∈ session.examples.required a.names, (c.unrolled limit).Weakest
      (c.unrolled limit).names (Condition.Holds · (.bool true))
      (fun s => Q.Holds s ∧ ∀ e ∈ r.outputs, s e.1 = e.2)
      (assignAll r.inputs (overwrite f fun _ => 0)) := fun r hr =>
    weakest_of_meets hs hflat hassigned (hagree r hr) (fun _ => rfl)
      (hmeets r hr _ fun e he => assignAll_of_mem (nodup_inputs hr) he)
  obtain ⟨r, hr⟩ := List.exists_mem_of_ne_nil _ hne
  obtain ⟨s, hrun, hq, -⟩ := (weakest_unrolled_iff hs hflat hassigned (hagree r hr)).mp (hw r hr)
  have hinput : (c.unrolled limit).Weakest (c.unrolled limit).names
      (Condition.Holds · (.bool true)) (Condition.Holds · Q)
      (assignAll r.inputs (overwrite f fun _ => 0)) :=
    (weakest_unrolled_iff hs hflat hassigned (hagree r hr)).mpr ⟨s, hrun, hq⟩
  have htrue : Condition.IsTruth a.vars (.bool true) := .bool true
  have hpre : Condition.Holds (assignAll r.inputs (overwrite f fun _ => 0)) (.bool true) := rfl
  rw [trivial_eq_eval]
  exact h.exists_synthesize hsolver hchecked hs hflat htrue hQ htrue hvalues hpre hinput
    fun r hr _ => hw r hr

end Returned

theorem reads_of_text {program : String} {d : Expr → Stmt} (htext : (d .hole).text = program)
    (hnamed : (nameAll program).1 = (d (.var "hole_0")).text)
    (hnames : ∀ x ∈ (d .hole).vars ++ (d (.var "hole_0")).vars, isName x = true)
    (hchained : ∀ e, (d e).chained = d e)
    (htree : ∀ {e t}, ExprTree e t → StmtTree (d e) (d e).tree)
    (hlegible : ∀ {e : Expr}, e.Legible → (d e).Legible) :
    Reads program (d .hole).tree (d (.var "hole_0")).tree (d .hole) (d (.var "hole_0")) := by
  obtain ⟨hgiven, hholes⟩ := List.forall_mem_append.mp hnames
  have htree₀ := htree .hole
  have htree₁ := htree (.var "hole_0")
  have h₀ : parse program = .ok (some (d .hole).tree) := by
    rw [← htext, htree₀.parse_text hgiven (hlegible OperandText.hole.legible_expr), hchained]
  have h₁ : parse (nameAll program).1 = .ok (some (d (.var "hole_0")).tree) := by
    rw [hnamed, htree₁.parse_text hholes (hlegible (Expr.legible_var.mpr (by decide))), hchained]
  have hreads := reads_of_parse h₀ h₁
  rwa [htree₀.ofTree_eq, htree₁.ofTree_eq] at hreads

/-- A loop that ends after the round in which a large number is put into its hole. -/
def raiseLoop (e : Expr) : Stmt :=
  .loop (.operate .lt (.var "x") (.num 2)) (.assign "x" e)

theorem nameAll_raiseLoop : nameAll "while (x < 2) do (x := ??)" =
    ("while (x < 2) do (x := hole_0)", ["hole_0"]) := by
  decide

theorem reads_raiseLoop : Reads "while (x < 2) do (x := ??)" (raiseLoop .hole).tree
    (raiseLoop (.var "hole_0")).tree (raiseLoop .hole) (raiseLoop (.var "hole_0")) := by
  have htwo : Text.readInt (toString (2 : Int)) = .ok 2 := by decide
  refine reads_of_text (by decide) (by decide) (by decide) (fun _ => rfl)
    (fun he => ?_) (fun he => ?_)
  · exact (StmtTree.loop (.operate .lt (.var "x") (.num 2)) (.assign "x" he)).tree
  · exact Stmt.legible_loop.mpr ⟨Expr.legible_operate.mpr
      ⟨Expr.legible_var.mpr (by decide), Expr.legible_num.mpr htwo⟩,
      Stmt.legible_assign.mpr ⟨by decide, he⟩⟩

def raiseGoal : Condition :=
  .operate .ge (.var "x") (.int 2)

theorem isTruth_raiseGoal : raiseGoal.IsTruth (raiseLoop .hole).vars :=
  .compare rfl (.var (by decide)) (.int 2)

theorem holds_raiseGoal {s : State} : raiseGoal.Holds s ↔ 2 ≤ s "x" := by
  rfl

theorem run_raiseLoop (s : State) : Run (fun _ => True) 1 (raiseLoop (.num 5)) s
    (.done (if s "x" < 2 then Function.update s "x" 5 else s)) := by
  split_ifs with hx
  · refine .loopNext (m := 0) le_rfl hx .assign (.loopDone ?_)
    simp [Expr.Holds, Expr.value, Operator.Compares]
  · exact .loopDone hx

/-- A returned program is the given one with numbers in its holes. The values of some state have been
put there, and if the precondition is true in that state, the run from the inputs of each example in
it does what the example says. So does the run from each state with these inputs, if the
precondition is true everywhere and the example gives a value to each variable. -/
theorem synthesized_meets {solver : Solver} (hsolver : solver.Truthful) {session : Session}
    {limit : Int} {program result : String} {t₀ t : Tree Label}
    (h₀ : parse program = .ok (some t₀)) (ht : parse (nameAll program).1 = .ok (some t))
    (hs : (Stmt.ofTree t).isSorted = true) (hflat : (Stmt.ofTree t).isFlat = true)
    {P Q I : Condition} (hP : P.IsTruth (Stmt.ofTree t₀).vars)
    (hQ : Q.IsTruth (Stmt.ofTree t₀).vars) (hI : I.IsTruth (Stmt.ofTree t₀).vars)
    (hr : synthesize solver session ⟨P.eval, Q.eval, I.eval⟩ limit program = .ok result) :
    ∃ f σ, Fills f (nameAll program).2 ∧ result = Holes.fill f (nameAll program).1 ∧ f.Agrees σ ∧
      ∀ r ∈ session.examples.required (Stmt.ofTree t₀).names,
        (P.Holds σ → Meets limit (Stmt.ofTree (fillTree f t)) Q r (assignAll r.inputs σ)) ∧
        ((∀ s, P.Holds s) → (∀ x ∈ (Stmt.ofTree t₀).vars, ∃ n, (x, n) ∈ r.inputs) →
          ∀ s, (∀ e ∈ r.inputs, s e.1 = e.2) → Meets limit (Stmt.ofTree (fillTree f t)) Q r s) := by
  have hreads := reads_of_parse h₀ ht
  obtain ⟨m, hresult, hassigned, hmeets⟩ := hreads.meets_of_synthesize hsolver hs hflat hP hQ hI hr
  have hfills := fills_fillingOf program m
  refine ⟨_, m.value, hfills, hresult, agrees_fillingOf program m, fun r hr => ?_⟩
  rw [(hreads.namedTree.fill hassigned).ofTree_eq]
  constructor
  · exact fun hpre => hmeets hpre r hr
  · intro hpre hfull s hs
    exact hreads.meets_of_full hQ hfills hassigned hr hfull hs (hmeets (hpre _) r hr)

theorem synthesized_meets_raiseLoop : ∃ result f,
    synthesize Solver.ideal ⟨some (raiseLoop .hole).tree, ["x"], ⟨[[some 0]], [[some 5]]⟩⟩
      ⟨Condition.eval (.bool true), raiseGoal.eval, Condition.eval (.bool true)⟩ 1
      "while (x < 2) do (x := ??)" = .ok result ∧
    Fills f ["hole_0"] ∧ result = Holes.fill f "while (x < 2) do (x := hole_0)" ∧
    ∀ s, s "x" = 0 → Meets 1 (Stmt.ofTree (fillTree f (raiseLoop (.var "hole_0")).tree)) raiseGoal
      ⟨[("x", 0)], [("x", 5)]⟩ s := by
  have hreads := reads_raiseLoop
  have hmeets : ∀ r ∈ [⟨[("x", 0)], [("x", 5)]⟩], ∀ s, (∀ e ∈ r.inputs, s e.1 = e.2) →
      Meets 1 ((raiseLoop (.var "hole_0")).fill [("hole_0", 5)]) raiseGoal r s := by
    intro r hr s hin
    rw [List.mem_singleton.mp hr] at hin ⊢
    exact ⟨_, run_raiseLoop s, by simp_all [holds_raiseGoal]⟩
  obtain ⟨result, hr⟩ : ∃ result, synthesize Solver.ideal
      ⟨some (raiseLoop .hole).tree, ["x"], ⟨[[some 0]], [[some 5]]⟩⟩
      ⟨.trivial, raiseGoal.eval, .trivial⟩ 1 "while (x < 2) do (x := ??)" = .ok result :=
    hreads.exists_synthesize_of_meets Solver.ideal_exact.sound
      ⟨Option.some_ne_none _, by decide, by decide, by decide, .inl (List.cons_ne_nil _ _)⟩
      rfl rfl isTruth_raiseGoal (List.cons_ne_nil _ _) (by decide) (by decide) hmeets
  rw [trivial_eq_eval] at hr
  obtain ⟨f, σ, hfills, hresult, -, hall⟩ := synthesized_meets
    (fun _ _ => Solver.ideal_exact.satisfies) hreads.given hreads.named
    (by rw [hreads.namedTree.ofTree_eq]; rfl) (by rw [hreads.namedTree.ofTree_eq]; rfl)
    (.bool true) (by rw [hreads.givenTree.ofTree_eq]; exact isTruth_raiseGoal) (.bool true) hr
  rw [nameAll_raiseLoop] at hfills hresult
  rw [hreads.givenTree.ofTree_eq] at hall
  refine ⟨result, f, hr, hfills, hresult, fun s hs => ?_⟩
  refine (hall ⟨[("x", 0)], [("x", 5)]⟩ List.mem_cons_self).2 (fun _ => rfl) ?_ s ?_
  · exact fun x hx => ⟨0, by simpa [raiseLoop, Stmt.vars, Expr.vars, Expr.hole] using hx⟩
  · simpa using hs

/-- A claim about a variable that no example gives a value to. -/
def claimThree (e : Expr) : Stmt :=
  .seq (.assert (.operate .eq (.var "x") (.num 3))) (.assign "y" e)

theorem reads_claimThree : Reads "assert (x = 3) ; y := ??" (claimThree .hole).tree
    (claimThree (.var "hole_0")).tree (claimThree .hole) (claimThree (.var "hole_0")) := by
  have hthree : Text.readInt (toString (3 : Int)) = .ok 3 := by decide
  refine reads_of_text (by decide) (by decide) (by decide) (fun _ => rfl)
    (fun he => ?_) (fun he => ?_)
  · exact (StmtTree.seq (.assert (.operate .eq (.var "x") (.num 3))) (.assign "y" he)).tree
  · exact Stmt.legible_seq.mpr ⟨Stmt.legible_assert.mpr (Expr.legible_operate.mpr
      ⟨Expr.legible_var.mpr (by decide), Expr.legible_num.mpr hthree⟩),
      Stmt.legible_assign.mpr ⟨by decide, he⟩⟩

/-- A program is returned, as the solver chooses a value for the variable that the example leaves
open. From another one that the precondition allows, no filling comes to an end. -/
theorem synthesize_claimThree :
    (∃ result, synthesize Solver.ideal
      ⟨some (claimThree .hole).tree, ["x", "y"], ⟨[[none, some 0]], [[none, none]]⟩⟩
      ⟨Condition.eval (.operate .gt (.var "x") (.int 0)), Condition.eval (.bool true),
        Condition.eval (.bool true)⟩ 1 "assert (x = 3) ; y := ??" = .ok result) ∧
    ∃ s, Condition.Holds s (.operate .gt (.var "x") (.int 0)) ∧ s "y" = 0 ∧
      ∀ f, Fills f ["hole_0"] →
        ¬ Meets 1 (Stmt.ofTree (fillTree f (claimThree (.var "hole_0")).tree)) (.bool true)
          ⟨[("y", 0)], []⟩ s := by
  have hreads := reads_claimThree
  constructor
  · have hP : Condition.IsTruth (claimThree .hole).vars (.operate .gt (.var "x") (.int 0)) :=
      .compare rfl (.var (by decide)) (.int 0)
    have hpre : Condition.Holds (fun _ => 3) (.operate .gt (.var "x") (.int 0)) := by
      simp [Condition.Holds, Condition.value, Operator.Compares]
    have hinput : ∀ names inv, ((claimThree (.var "hole_0")).unrolled 1).Weakest names inv
        (Condition.Holds · (.bool true)) (fun _ => 3) := fun _ _ => ⟨rfl, rfl⟩
    have hasks : ∀ r ∈ [⟨[("y", 0)], []⟩], Asks ((claimThree (.var "hole_0")).unrolled 1)
        (.operate .gt (.var "x") (.int 0)) (.bool true) (.bool true) r (fun _ => 3) := by
      intro r hr _
      rw [List.mem_singleton.mp hr]
      exact ⟨rfl, rfl, by simp⟩
    exact hreads.exists_synthesize Solver.ideal_exact.sound
      ⟨Option.some_ne_none _, by decide, by decide, by decide, .inl (List.cons_ne_nil _ _)⟩
      rfl rfl hP (.bool true) (.bool true) (by decide) hpre (hinput _ _) hasks
  · refine ⟨fun x => if x = "x" then 1 else 0, ?_, rfl, fun f hf => ?_⟩
    · simp [Condition.Holds, Condition.value, Operator.Compares]
    have hassigned : ∀ x ∈ (claimThree (.var "hole_0")).assigned, f.lookup x = none := fun x hx => by
      rw [List.mem_singleton.mp hx]
      exact hf.lookup_eq_none (by decide)
    have hfill : (claimThree (.var "hole_0")).fill f =
        .seq (.assert (.operate .eq (.var "x") (.num 3))) (.assign "y" ((Expr.var "hole_0").fill f)) := by
      simp [claimThree, Stmt.fill, Expr.fill, hf.lookup_eq_none (show isHole "x" = false by decide)]
    rw [(hreads.namedTree.fill hassigned).ofTree_eq, hfill]
    rintro ⟨s', hrun, -⟩
    cases hrun with
    | seq hclaim _ =>
      cases hclaim with
      | assert hthree => simp [Expr.Holds, Expr.value, Operator.Compares] at hthree

end ByExample

end WhileSketch
