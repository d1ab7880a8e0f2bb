import Mathlib
import WhileSketch.Proofs.Synthesis.ByExample
import WhileSketch.Proofs.Synthesis.FilledWeakest

/-! Examples that give a value to each variable at the start. From these alone, a program is returned
just when some filling does what they say. -/

namespace WhileSketch.ByExample

open While Holes Refinement

section Full

variable {solver : Solver} {limit : Int} {program : String} {t₀ t : Tree Label} {a c : Stmt}
  {Q : Condition} {xs : List (List Int × Entries)}

/-- Examples that give a value to each variable at the start. -/
def fullExamples (xs : List (List Int × Entries)) : Examples :=
  ⟨xs.map fun x => x.1.map some, xs.map Prod.snd⟩

def fullRequirement (vars : List String) (x : List Int × Entries) : Examples.Requirement :=
  ⟨vars.zip x.1, Examples.settings vars x.2⟩

theorem settings_map_some (vars : List String) (values : List Int) :
    Examples.settings vars (values.map some) = vars.zip values := by
  induction vars generalizing values with
  | nil => rfl
  | cons x vars ih =>
    cases values with
    | nil => rfl
    | cons n values => exact congrArg ((x, n) :: ·) (ih values)

theorem required_fullExamples (vars : List String) (xs : List (List Int × Entries)) :
    (fullExamples xs).required vars = xs.map (fullRequirement vars) := by
  have hzip : (xs.map fun x => x.1.map some).zip (xs.map Prod.snd) =
      xs.map fun x => (x.1.map some, x.2) := List.zip_map' ..
  rw [Examples.required, fullExamples, hzip, List.map_map]
  refine List.map_congr_left fun x _ => ?_
  rw [Function.comp_apply, settings_map_some, fullRequirement]

/-- The result for examples that give a value to each variable at the start, in a session of their
own, where no precondition and no invariant is given. -/
def fromFull (solver : Solver) (Q : Condition) (limit : Int) (xs : List (List Int × Entries))
    (program : String) : Except Fault String := do
  let session ← (Session.ofProgram program).result
  synthesize solver { session with examples := fullExamples xs } ⟨.trivial, Q.eval, .trivial⟩ limit
    program

theorem Reads.ofProgram_result (h : Reads program t₀ t a c) :
    (Session.ofProgram program).result =
      if "id" ∈ a.vars then .error .noSuchItem else .ok ⟨some t₀, a.names, .empty⟩ := by
  rw [Session.ofProgram, h.given]
  show Transcript.result (liftM (variableNames t₀) >>= fun vars =>
    pure (Session.mk (some t₀) vars .empty)) = _
  rw [h.givenTree.variableNames_eq]
  split_ifs <;> rfl

theorem Reads.fromFull_eq (h : Reads program t₀ t a c) (hid : "id" ∉ a.vars) :
    fromFull solver Q limit xs program = synthesize solver ⟨some t₀, a.names, fullExamples xs⟩
      ⟨.trivial, Q.eval, .trivial⟩ limit program := by
  rw [fromFull, h.ofProgram_result, if_neg hid]
  rfl

/-- Whatever else the state is, the run of a program from the inputs of each example does what the
example says. -/
def MeetsAll (limit : Int) (d : Stmt) (Q : Condition) (vars : List String)
    (xs : List (List Int × Entries)) : Prop :=
  ∀ x ∈ xs, ∀ s, (∀ e ∈ vars.zip x.1, s e.1 = e.2) → Meets limit d Q (fullRequirement vars x) s

theorem Reads.meetsAll_of_fromFull (h : Reads program t₀ t a c) (hsolver : solver.Truthful)
    (hid : "id" ∉ a.vars) (hs : c.isSorted = true) (hflat : c.isFlat = true) (hQ : Q.IsTruth a.vars)
    (hfull : ∀ x ∈ xs, x.1.length = a.names.length) {result : String}
    (hr : fromFull solver Q limit xs program = .ok result) :
    ∃ m, result = Holes.fill (fillingOf program m) (nameAll program).1 ∧
      Fills (fillingOf program m) (nameAll program).2 ∧
      MeetsAll limit (Stmt.ofTree (fillTree (fillingOf program m) t)) Q a.names xs := by
  rw [h.fromFull_eq hid, trivial_eq_eval] at hr
  obtain ⟨m, hresult, hassigned, hmeets⟩ :=
    h.meets_of_synthesize hsolver hs hflat (.bool true) hQ (.bool true) hr
  have hfills := fills_fillingOf program m
  refine ⟨m, hresult, hfills, fun x hx s hin => ?_⟩
  rw [(h.namedTree.fill hassigned).ofTree_eq]
  have hmem : fullRequirement a.names x ∈ (fullExamples xs).required a.names := by
    rw [required_fullExamples]
    exact List.mem_map_of_mem hx
  refine h.meets_of_full hQ hfills hassigned hmem (fun y hy => ?_) hin (hmeets rfl _ hmem)
  have hkeys : (a.names.zip x.1).map Prod.fst = a.names := List.map_fst_zip (hfull x hx).ge
  have hkey : y ∈ (a.names.zip x.1).map Prod.fst := by
    rw [hkeys]
    exact Stmt.mem_names.mpr hy
  obtain ⟨⟨_, n⟩, he, rfl⟩ := List.mem_map.mp hkey
  exact ⟨n, he⟩

theorem Reads.exists_fromFull (h : Reads program t₀ t a c) (hsolver : solver.Sound)
    (hid : "id" ∉ a.vars) (hvars : ∀ x ∈ a.vars, isHole x = false)
    (hholes : (nameAll program).2 ≠ []) (hs : c.isSorted = true) (hflat : c.isFlat = true)
    (hQ : Q.IsTruth a.vars) (hne : xs ≠ [])
    (hdigits : ∀ x ∈ xs, ∀ n ∈ x.1, (Text.digits n).length ≤ Text.maxDigits) {f : Filling}
    (hf : Fills f (nameAll program).2)
    (hmeets : MeetsAll limit (Stmt.ofTree (fillTree f t)) Q a.names xs) :
    ∃ result, fromFull solver Q limit xs program = .ok result := by
  have hkept : ∀ x ∈ a.vars, f.lookup x = none := fun x hx => hf.lookup_eq_none (hvars x hx)
  have hassigned : ∀ x ∈ c.assigned, f.lookup x = none := fun x hx => hkept x (h.assigned x hx)
  have hchecked : Checked ⟨some t₀, a.names, fullExamples xs⟩ program a :=
    ⟨nofun, hid, hvars, hholes, .inl (by simpa [fullExamples] using hne)⟩
  rw [(h.namedTree.fill hassigned).ofTree_eq] at hmeets
  rw [h.fromFull_eq hid]
  apply h.exists_synthesize_of_meets hsolver hchecked hs hflat hQ _ _ hkept
  all_goals rw [required_fullExamples]
  · intro r hr
    obtain ⟨x, hx, rfl⟩ := List.mem_map.mp hr
    exact hmeets x hx
  · simpa using hne
  · intro r hr e he
    obtain ⟨x, hx, rfl⟩ := List.mem_map.mp hr
    have hlong := hdigits x hx e.2 (List.of_mem_zip he).2
    rw [Text.readInt_toString, if_neg (by omega)]

end Full

def raiseExamples : List (List Int × Entries) :=
  [([0], [some 5]), ([1], [none]), ([7], [some 7])]

theorem fills_raiseLoop :
    Fills [("hole_0", 5)] (nameAll "while (x < 2) do (x := ??)").2 := by
  rw [nameAll_raiseLoop]
  refine ⟨fun x n hx => ?_, by simp⟩
  rw [(eq_of_lookup_one hx).1]
  decide

theorem meetsAll_raiseLoop :
    MeetsAll 1 (Stmt.ofTree (fillTree [("hole_0", 5)] (raiseLoop (.var "hole_0")).tree)) raiseGoal
      (raiseLoop .hole).names raiseExamples := by
  have hfill := (reads_raiseLoop.namedTree.fill
    (by decide : ∀ x ∈ _, [("hole_0", (5 : Int))].lookup x = none)).ofTree_eq
  have hnames : (raiseLoop .hole).names = ["x"] := rfl
  rw [hfill, hnames]
  intro x hx s hin
  refine ⟨_, run_raiseLoop s, ?_⟩
  simp only [raiseExamples, List.mem_cons, List.not_mem_nil, or_false] at hx
  rcases hx with rfl | rfl | rfl <;>
    simp_all [fullRequirement, Examples.settings, raiseGoal, Condition.Holds, Condition.value,
      Operator.Compares]

/-- For examples that give a value to each variable at the start, a program is returned just when
some filling of its holes makes all runs do what the examples say, and the filling that is returned
does so; unless a variable is called like the nodes above variables, then nothing is returned. -/
theorem fromFull_exact {solver : Solver} (hsolver : solver.Exact) (limit : Int) {program : String}
    {t₀ t : Tree Label} (h₀ : parse program = .ok (some t₀))
    (ht : parse (nameAll program).1 = .ok (some t)) (hholes : (nameAll program).2 ≠ [])
    (hvars : ∀ x ∈ (Stmt.ofTree t₀).vars, isHole x = false)
    (hs : (Stmt.ofTree t).isSorted = true) (hflat : (Stmt.ofTree t).isFlat = true) {Q : Condition}
    (hQ : Q.IsTruth (Stmt.ofTree t₀).vars) {xs : List (List Int × Entries)} (hne : xs ≠ [])
    (hfull : ∀ x ∈ xs, x.1.length = (Stmt.ofTree t₀).names.length)
    (hdigits : ∀ x ∈ xs, ∀ n ∈ x.1, (Text.digits n).length ≤ Text.maxDigits) :
    ("id" ∈ (Stmt.ofTree t₀).vars → fromFull solver Q limit xs program = .error .noSuchItem) ∧
    ("id" ∉ (Stmt.ofTree t₀).vars →
      ((∃ result, fromFull solver Q limit xs program = .ok result) ↔
        ∃ f, Fills f (nameAll program).2 ∧
          MeetsAll limit (Stmt.ofTree (fillTree f t)) Q (Stmt.ofTree t₀).names xs) ∧
      ∀ result, fromFull solver Q limit xs program = .ok result →
        ∃ m, result = Holes.fill (fillingOf program m) (nameAll program).1 ∧
          Fills (fillingOf program m) (nameAll program).2 ∧
          MeetsAll limit (Stmt.ofTree (fillTree (fillingOf program m) t)) Q
            (Stmt.ofTree t₀).names xs) := by
  have hreads := reads_of_parse h₀ ht
  refine ⟨fun hid => ?_, fun hid => ⟨⟨?_, ?_⟩, fun result => ?_⟩⟩
  · rw [fromFull, hreads.ofProgram_result, if_pos hid]
    rfl
  · rintro ⟨result, hr⟩
    obtain ⟨m, -, hfills, hall⟩ := hreads.meetsAll_of_fromFull (fun _ _ => hsolver.satisfies) hid hs
      hflat hQ hfull hr
    exact ⟨_, hfills, hall⟩
  · rintro ⟨f, hf, hall⟩
    exact hreads.exists_fromFull hsolver.sound hid hvars hholes hs hflat hQ hne hdigits hf hall
  · exact hreads.meetsAll_of_fromFull (fun _ _ => hsolver.satisfies) hid hs hflat hQ hfull

theorem fromFull_exact_raiseLoop : ∃ result m,
    fromFull Solver.ideal raiseGoal 1 raiseExamples "while (x < 2) do (x := ??)" = .ok result ∧
    result = Holes.fill (fillingOf "while (x < 2) do (x := ??)" m) "while (x < 2) do (x := hole_0)" ∧
    MeetsAll 1 (Stmt.ofTree (fillTree (fillingOf "while (x < 2) do (x := ??)" m)
      (raiseLoop (.var "hole_0")).tree)) raiseGoal ["x"] raiseExamples := by
  have hreads := reads_raiseLoop
  have hgiven := hreads.givenTree.ofTree_eq
  have hnamed := hreads.namedTree.ofTree_eq
  have hexact := (fromFull_exact Solver.ideal_exact 1 hreads.given hreads.named
    (by decide) (by rw [hgiven]; decide) (by rw [hnamed]; rfl) (by rw [hnamed]; rfl)
    (by rw [hgiven]; exact isTruth_raiseGoal) (by decide : raiseExamples ≠ [])
    (by rw [hgiven]; decide) (by decide)).2 (by rw [hgiven]; decide)
  rw [hgiven] at hexact
  obtain ⟨result, hr⟩ := hexact.1.mpr ⟨_, fills_raiseLoop, meetsAll_raiseLoop⟩
  obtain ⟨m, hresult, -, hall⟩ := hexact.2 result hr
  rw [nameAll_raiseLoop] at hresult
  exact ⟨result, m, hr, hresult, hall⟩

/-- A variable that is called like the nodes above variables. With one in the hole the assignment
would do what the example says, but nothing is returned. -/
theorem fromFull_id_fails :
    parse (nameAll "id := ??").1 = .ok (some (Stmt.assign "id" (.var "hole_0")).tree) ∧
    MeetsAll 1 (Stmt.ofTree (fillTree [("hole_0", 1)] (Stmt.assign "id" (.var "hole_0")).tree))
      (.bool true) ["id"] [([0], [some 1])] ∧
    fromFull Solver.ideal (.bool true) 1 [([0], [some 1])] "id := ??" = .error .noSuchItem := by
  have hreads : Reads "id := ??" (Stmt.assign "id" .hole).tree
      (Stmt.assign "id" (.var "hole_0")).tree (.assign "id" .hole) (.assign "id" (.var "hole_0")) :=
    reads_of_text (by decide) (by decide) (by decide) (fun _ => rfl)
      (fun he => (StmtTree.assign "id" he).tree) fun he => Stmt.legible_assign.mpr ⟨by decide, he⟩
  refine ⟨hreads.named, ?_, ?_⟩
  · rw [(hreads.namedTree.fill (by decide)).ofTree_eq]
    intro x hx s hin
    refine ⟨_, .assign, rfl, ?_⟩
    rw [List.mem_singleton.mp hx]
    simp [fullRequirement, Examples.settings, Expr.fill, Expr.value]
  · rw [fromFull, hreads.ofProgram_result, if_pos (by decide)]
    rfl

end WhileSketch.ByExample
