import Mathlib
import WhileSketch.Proofs.Logic.Bounds
import WhileSketch.Proofs.Logic.Polynomials

/-! The search by cases passes over no values: goals that are found to be out of reach together are
so in every state. -/

namespace WhileSketch.Search

variable {u : Unknowns} {s : State} {b : Bounds} {g : Goal}

def Goal.Holds (u : Unknowns) (s : State) : Goal → Prop
  | .fact f => f.Holds (u.valuation s)
  | .formula f v => f.Holds s ↔ v = true

def Goal.Over (u : Unknowns) : Goal → Prop
  | .fact _ => True
  | .formula f _ => f.Over u.names

def Met (u : Unknowns) (s : State) (gs : List Goal) : Prop :=
  ∀ g ∈ gs, g.Holds u s

def Step.Holds (u : Unknowns) (s : State) : Step → Prop
  | .decided v => v = true
  | .fact f => f.Holds (u.valuation s)
  | .every gs => Met u s gs
  | .some as => ∃ a ∈ as, Met u s a

def Step.Over (u : Unknowns) : Step → Prop
  | .decided _ | .fact _ => True
  | .every gs => ∀ g ∈ gs, g.Over u
  | .some as => ∀ a ∈ as, ∀ g ∈ a, g.Over u

section Steps

@[simp]
theorem Goal.holds_fact {f : Fact} : (Goal.fact f).Holds u s ↔ f.Holds (u.valuation s) :=
  Iff.rfl

@[simp]
theorem Goal.holds_formula {f : Formula} {v : Bool} :
    (Goal.formula f v).Holds u s ↔ (f.Holds s ↔ v = true) :=
  Iff.rfl

@[simp]
theorem Goal.over_fact {f : Fact} : (Goal.fact f).Over u ↔ True :=
  Iff.rfl

@[simp]
theorem Goal.over_formula {f : Formula} {v : Bool} : (Goal.formula f v).Over u ↔ f.Over u.names :=
  Iff.rfl

@[simp]
theorem met_nil : Met u s [] ↔ True := by
  simp [Met]

@[simp]
theorem met_cons {gs : List Goal} : Met u s (g :: gs) ↔ g.Holds u s ∧ Met u s gs :=
  List.forall_mem_cons

theorem met_append {gs hs : List Goal} : Met u s (gs ++ hs) ↔ Met u s gs ∧ Met u s hs :=
  List.forall_mem_append

theorem met_map_formula {fs : List Formula} {v : Bool} :
    Met u s (fs.map (.formula · v)) ↔ ∀ f ∈ fs, (f.Holds s ↔ v = true) :=
  List.forall_mem_map

theorem met_conditions {conditions : List (Formula × Bool)} :
    Met u s (conditions.map fun c => Goal.formula c.1 c.2) ↔ Cases.Applies s conditions :=
  List.forall_mem_map

/-- The cases of a claim hold just if the claim does that is picked. -/
theorem stepClaims_spec {c : Cases Claim} (hc : c.Forall (·.Over u.names) fun _ => True) (s : State) :
    ((stepClaims c).Holds u s ↔ (c.pick s).Holds (u.valuation s)) ∧ (stepClaims c).Over u := by
  unfold stepClaims
  split
  case h_1 => exact ⟨Iff.rfl, trivial⟩
  case h_2 => exact ⟨Iff.rfl, trivial⟩
  case h_3 =>
    refine ⟨⟨?_, fun hclaim => ?_⟩, ?_⟩
    · rintro ⟨a, ha, hmet⟩
      obtain ⟨o, ho, halternative⟩ := List.mem_filterMap.mp ha
      dsimp only at halternative
      split at halternative
      case h_1 hclaim =>
        cases halternative
        rw [← Cases.eq_pick_of_applies ho (met_conditions.mp hmet), hclaim]
        rfl
      case h_2 => cases halternative
      case h_3 f hclaim =>
        cases halternative
        rw [met_append, met_conditions] at hmet
        rw [← Cases.eq_pick_of_applies ho hmet.1, hclaim]
        exact (met_cons.mp hmet.2).1
    · obtain ⟨o, ho, happlies, hpick⟩ := Cases.exists_applies s c
      rw [← hpick] at hclaim
      have hguards : Met u s (o.1.map fun c => Goal.formula c.1 c.2) := met_conditions.mpr happlies
      cases hout : o.2 with
      | decided v =>
        rw [hout] at hclaim
        cases v with
        | false => cases hclaim
        | true => exact ⟨_, List.mem_filterMap.mpr ⟨o, ho, by rw [hout]⟩, hguards⟩
      | fact f =>
        rw [hout] at hclaim
        have hmet : Met u s (o.1.map (fun c => Goal.formula c.1 c.2) ++ [.fact f]) :=
          met_append.mpr ⟨hguards, met_cons.mpr ⟨hclaim, met_nil.mpr trivial⟩⟩
        exact ⟨_, List.mem_filterMap.mpr ⟨o, ho, by rw [hout]⟩, hmet⟩
    · intro a ha
      obtain ⟨o, ho, halternative⟩ := List.mem_filterMap.mp ha
      have hguards : ∀ g ∈ o.1.map (fun c => Goal.formula c.1 c.2), g.Over u :=
        List.forall_mem_map.mpr (hc.of_mem_options ho)
      dsimp only at halternative
      split at halternative
      case h_1 =>
        cases halternative
        exact hguards
      case h_2 => cases halternative
      case h_3 f _ =>
        cases halternative
        exact List.forall_mem_append.mpr ⟨hguards, by simp⟩

theorem compareTerms_spec (hfixed : u.fixed = []) {a t : Term} (ha : a.Over u.names)
    (ht : t.Over u.names) {offset : Int} {r : Relation} {p : Prop}
    (hp : r.Holds (a.denote s - t.denote s + offset) ↔ p) :
    ((compareTerms u a t offset r).Holds u s ↔ p) ∧ (compareTerms u a t offset r).Over u := by
  have hsub : (a.sub t).Over u.names := ⟨ha, ht⟩
  obtain ⟨hforall, hvalue⟩ := Term.polynomials_spec hfixed s hsub
  have hclaims := stepClaims_spec (u := u) (hforall.map (f := fun p =>
    Claim.ofLinear ((p.toLinear u.count).add (.ofInt offset)) r) fun _ _ => trivial) s
  refine ⟨hclaims.1.trans ?_, hclaims.2⟩
  have hlinear := Polynomial.eval_toLinear (fun m => u.valuation_productIndex s) (hforall.pick s)
  have hoffset : (Linear.ofInt offset).eval (u.valuation s) = offset := by
    simp [Linear.ofInt, Linear.eval]
  rw [Cases.pick_map, Claim.holds_ofLinear, Linear.eval_add, hlinear, hvalue, hoffset]
  exact hp

/-- The first step towards giving a formula a truth value says just that it has it. -/
theorem stepFormula_spec (hfixed : u.fixed = []) {f : Formula} (hf : f.Over u.names) (v : Bool)
    (s : State) :
    ((stepFormula u f v).Holds u s ↔ (f.Holds s ↔ v = true)) ∧ (stepFormula u f v).Over u := by
  cases f with
  | lit b => cases b <;> cases v <;> exact ⟨by simp [stepFormula, Step.Holds, Formula.Holds], trivial⟩
  | all fs =>
    have hall : ∀ f ∈ fs, f.Over u.names := Formula.overEach_iff.mp hf
    cases v <;> simpa [stepFormula, Step.Holds, Step.Over, met_map_formula, Formula.Holds,
      Formula.holdAll_iff] using hall
  | any fs =>
    have hall : ∀ f ∈ fs, f.Over u.names := Formula.overEach_iff.mp hf
    cases v <;> simpa [stepFormula, Step.Holds, Step.Over, met_map_formula, Formula.Holds,
      Formula.holdAny_iff] using hall
  | not f =>
    have hover : f.Over u.names := hf
    cases v <;> simpa [stepFormula, Step.Holds, Step.Over, Formula.Holds] using hover
  | implies f g =>
    obtain ⟨hf, hg⟩ := hf
    cases v
    · simp [stepFormula, Step.Holds, Step.Over, Formula.Holds, hf, hg]
    · simp [stepFormula, Step.Holds, Step.Over, Formula.Holds, hf, hg]
      tauto
  | same f g | differ f g =>
    obtain ⟨hf, hg⟩ := hf
    cases v <;> simp [stepFormula, Step.Holds, Step.Over, Formula.Holds, hf, hg] <;> tauto
  | eq a b | ne a b =>
    cases v <;> refine compareTerms_spec hfixed hf.1 hf.2 ?_ <;>
      simp only [Relation.Holds, Formula.Holds, reduceIte, Bool.false_eq_true, iff_true, iff_false] <;>
      omega
  | lt a b | le a b =>
    cases v
    · refine compareTerms_spec hfixed hf.1 hf.2 ?_
      simp only [Relation.Holds, Formula.Holds, Bool.false_eq_true, iff_false]
      omega
    · refine compareTerms_spec hfixed hf.2 hf.1 ?_
      simp only [Relation.Holds, Formula.Holds, iff_true]
      omega
  | gt a b | ge a b =>
    cases v
    · refine compareTerms_spec hfixed hf.2 hf.1 ?_
      simp only [Relation.Holds, Formula.Holds, Bool.false_eq_true, iff_false]
      omega
    · refine compareTerms_spec hfixed hf.1 hf.2 ?_
      simp only [Relation.Holds, Formula.Holds, iff_true]
      omega
  | forAll names body => exact hf.elim

theorem step_spec (hfixed : u.fixed = []) (hg : g.Over u) (s : State) :
    ((step u g).Holds u s ↔ g.Holds u s) ∧ (step u g).Over u := by
  cases g with
  | fact f => exact ⟨Iff.rfl, trivial⟩
  | formula f v => exact stepFormula_spec hfixed hg v s

end Steps

section Knowledge

theorem anyKnown_eq_false {α : Type} {known : α → Option Bool} {as : List α}
    (h : anyKnown known as = some false) : ∀ a ∈ as, known a = some false := by
  induction as with
  | nil => simp
  | cons a as ih =>
    rw [anyKnown] at h
    split at h
    case h_1 => cases h
    case h_2 ha => exact List.forall_mem_cons.mpr ⟨ha, ih h⟩
    case h_3 => split at h <;> cases h

theorem exists_of_anyKnown_eq_true {α : Type} {known : α → Option Bool} {as : List α}
    (h : anyKnown known as = some true) : ∃ a ∈ as, known a = some true := by
  induction as with
  | nil => cases h
  | cons a as ih =>
    rw [anyKnown] at h
    split at h
    case h_1 ha => exact ⟨a, List.mem_cons_self, ha⟩
    case h_2 =>
      obtain ⟨c, hc, htrue⟩ := ih h
      exact ⟨c, List.mem_cons_of_mem a hc, htrue⟩
    case h_3 =>
      split at h
      case h_1 hrest =>
        obtain ⟨c, hc, htrue⟩ := ih hrest
        exact ⟨c, List.mem_cons_of_mem a hc, htrue⟩
      case h_2 => cases h

theorem exists_of_allKnown_eq_false {α : Type} {known : α → Option Bool} {as : List α}
    (h : allKnown known as = some false) : ∃ a ∈ as, known a = some false := by
  rw [allKnown, Option.map_eq_some_iff] at h
  obtain ⟨v, hv, hnot⟩ := h
  obtain rfl : v = true := by simpa using hnot
  obtain ⟨a, ha, hmap⟩ := exists_of_anyKnown_eq_true hv
  obtain ⟨w, hw, hnot⟩ := Option.map_eq_some_iff.mp hmap
  obtain rfl : w = false := by simpa using hnot
  exact ⟨a, ha, hw⟩

/-- A goal that is known to be missed is missed. -/
theorem not_holds_of_known (hfixed : u.fixed = []) (hb : b.Holds (u.valuation s)) {depth : Nat}
    (hg : g.Over u) (h : known u b depth g = some false) : ¬g.Holds u s := by
  induction depth generalizing g with
  | zero => cases h
  | succ depth ih =>
    obtain ⟨hholds, hover⟩ := step_spec hfixed hg s
    rw [← hholds]
    rw [known] at h
    cases hstep : step u g with
    | decided v =>
      rw [hstep] at h
      cases h
      exact Bool.false_ne_true
    | fact f =>
      rw [hstep] at h
      exact fun hf => Bool.false_ne_true ((hb.truth h).mp hf)
    | every gs =>
      rw [hstep] at h hover
      obtain ⟨g', hg', hmissed⟩ := exists_of_allKnown_eq_false h
      exact fun hmet => ih (hover g' hg') hmissed (hmet g' hg')
    | some as =>
      rw [hstep] at h hover
      rintro ⟨a, ha, hmet⟩
      obtain ⟨g', hg', hmissed⟩ := exists_of_allKnown_eq_false (anyKnown_eq_false h a ha)
      exact ih (hover a ha g' hg') hmissed (hmet g' hg')

/-- One of several alternatives is met, and all of them speak of the unknowns only. -/
structure Open (u : Unknowns) (s : State) (as : List Alternative) : Prop where
  met : ∃ a ∈ as, Met u s a
  within : ∀ a ∈ as, ∀ g ∈ a, g.Over u

def Choice.Holds (u : Unknowns) (s : State) : Choice → Prop
  | .met => True
  | .missed => False
  | .only a => Open u s [a]
  | .open as => Open u s as

theorem Open.narrow (hfixed : u.fixed = []) (hb : b.Holds (u.valuation s)) {as : List Alternative}
    (h : Open u s as) : (narrow u b as).Holds u s := by
  unfold Search.narrow
  dsimp only
  split_ifs with hmet
  · trivial
  have hleft : Open u s (((as.map fun a => (a, allKnown (known u b lookahead) a)).filter fun s =>
      s.2 != some false).map Prod.fst) := by
    obtain ⟨⟨a, ha, hholds⟩, hover⟩ := h
    refine ⟨⟨a, ?_, hholds⟩, fun a' ha' => hover a' ?_⟩
    · refine List.mem_map.mpr ⟨(a, _), List.mem_filter.mpr ⟨List.mem_map.mpr ⟨a, ha, rfl⟩, ?_⟩, rfl⟩
      rw [bne_iff_ne]
      intro hmissed
      obtain ⟨g, hg, hfalse⟩ := exists_of_allKnown_eq_false hmissed
      exact not_holds_of_known hfixed hb (hover a ha g hg) hfalse (hholds g hg)
    · obtain ⟨state, hstate, rfl⟩ := List.mem_map.mp ha'
      obtain ⟨c, hc, rfl⟩ := List.mem_map.mp (List.mem_of_mem_filter hstate)
      exact hc
  split
  case h_1 hnone =>
    rw [hnone] at hleft
    obtain ⟨a, ha, -⟩ := hleft.met
    cases ha
  case h_2 a hone =>
    rw [hone] at hleft
    exact hleft
  case h_3 => exact hleft

def Narrowed.Holds (u : Unknowns) (s : State) : Narrowed → Prop
  | .missed => False
  | .forced a rest => Open u s [a] ∧ ∀ c ∈ rest, Open u s c
  | .open rest => ∀ c ∈ rest, Open u s c

theorem holds_narrowAll (hfixed : u.fixed = []) (hb : b.Holds (u.valuation s))
    {cs : List (List Alternative)} (h : ∀ c ∈ cs, Open u s c) : (narrowAll u b cs).Holds u s := by
  induction cs with
  | nil => exact h
  | cons c cs ih =>
    obtain ⟨hc, hcs⟩ := List.forall_mem_cons.mp h
    have hrest := ih hcs
    have hnarrow := hc.narrow hfixed hb
    rw [narrowAll]
    cases hchoice : narrow u b c with
    | met => exact hrest
    | missed =>
      rw [hchoice] at hnarrow
      exact hnarrow.elim
    | only a =>
      rw [hchoice] at hnarrow
      exact ⟨hnarrow, hcs⟩
    | «open» as =>
      rw [hchoice] at hnarrow
      cases hall : narrowAll u b cs with
      | missed =>
        rw [hall] at hrest
        exact hrest.elim
      | forced a rest =>
        rw [hall] at hrest
        exact ⟨hrest.1, List.forall_mem_cons.mpr ⟨hnarrow, hrest.2⟩⟩
      | «open» rest =>
        rw [hall] at hrest
        exact List.forall_mem_cons.mpr ⟨hnarrow, hrest⟩

end Knowledge

section Choices

theorem met_opposite (hfixed : u.fixed = []) {a : Alternative} (ha : ∀ g ∈ a, g.Over u)
    (h : ¬Met u s a) : Met u s (opposite u a) := by
  unfold opposite
  split
  case h_1 g =>
    split
    case h_1 f hf =>
      have hholds := (step_spec hfixed (ha g List.mem_cons_self) s).1
      rw [hf] at hholds
      rw [met_cons, met_nil, and_true] at h ⊢
      exact (Fact.holds_negate _ f).mpr (mt hholds.mp h)
    case h_2 => exact met_nil.mpr trivial
  case h_2 => exact met_nil.mpr trivial

theorem over_opposite (u : Unknowns) (a : Alternative) : ∀ g ∈ opposite u a, g.Over u := by
  unfold opposite
  split
  case h_1 => split <;> simp
  case h_2 => simp

theorem over_exclusive {as : List Alternative} {before : List Goal}
    (has : ∀ a ∈ as, ∀ g ∈ a, g.Over u) (hbefore : ∀ g ∈ before, g.Over u) :
    ∀ a ∈ exclusive u before as, ∀ g ∈ a, g.Over u := by
  induction as generalizing before with
  | nil => simp [exclusive]
  | cons a as ih =>
    obtain ⟨ha, has⟩ := List.forall_mem_cons.mp has
    refine List.forall_mem_cons.mpr ⟨List.forall_mem_append.mpr ⟨hbefore, ha⟩, ih has ?_⟩
    exact List.forall_mem_append.mpr ⟨over_opposite u a, hbefore⟩

/-- If one of several alternatives is met, the first of them is met after the opposites of those in
front of it. -/
theorem exists_met_exclusive (hfixed : u.fixed = []) {as : List Alternative} {before : List Goal}
    (has : ∀ a ∈ as, ∀ g ∈ a, g.Over u) (hmet : ∃ a ∈ as, Met u s a) (hbefore : Met u s before) :
    ∃ a ∈ exclusive u before as, Met u s a := by
  induction as generalizing before with
  | nil =>
    obtain ⟨a, ha, -⟩ := hmet
    cases ha
  | cons a as ih =>
    obtain ⟨hover, has⟩ := List.forall_mem_cons.mp has
    rw [exclusive]
    by_cases ha : Met u s a
    · exact ⟨before ++ a, List.mem_cons_self, List.forall_mem_append.mpr ⟨hbefore, ha⟩⟩
    · have hrest : ∃ a ∈ as, Met u s a := by
        obtain ⟨c, hc, hmet⟩ := hmet
        rcases List.mem_cons.mp hc with rfl | hc
        · exact absurd hmet ha
        · exact ⟨c, hc, hmet⟩
      obtain ⟨c, hc, hmet⟩ := ih has hrest
        (List.forall_mem_append.mpr ⟨met_opposite hfixed hover ha, hbefore⟩)
      exact ⟨c, List.mem_cons_of_mem _ hc, hmet⟩

theorem Open.exclusive (hfixed : u.fixed = []) {as : List Alternative} (h : Open u s as) :
    Open u s (exclusive u [] as) :=
  ⟨exists_met_exclusive hfixed h.within h.met (met_nil.mpr trivial), over_exclusive h.within (by simp)⟩

end Choices

/-- What the search is asked for is there: values within the bounds that meet all goals and all
choices. -/
structure Reachable (u : Unknowns) (s : State) (b : Bounds) (goals : List Goal)
    (choices : List (List Alternative)) : Prop where
  bounds : b.Holds (u.valuation s)
  met : Met u s goals
  within : ∀ g ∈ goals, g.Over u
  choices : ∀ c ∈ choices, Open u s c

/-- Where the search says that there are no values, with some number of steps left, there are none. -/
def Refutes (u : Unknowns) (fuel : Nat) : Prop :=
  ∀ {s : State} {b : Bounds} {m : Option Assignment} {goals : List Goal}
    {choices : List (List Alternative)},
    searchWithin u fuel b m goals choices = .unsat → ¬Reachable u s b goals choices

section Refutes

variable {fuel : Nat} {m : Option Assignment} {g : Goal} {goals : List Goal}
  {choices : List (List Alternative)}

theorem Refutes.goal (hfuel : Refutes u fuel) (hfixed : u.fixed = [])
    (h : searchWithin u (fuel + 1) b m (g :: goals) choices = .unsat) :
    ¬Reachable u s b (g :: goals) choices := by
  rintro ⟨hb, hgoals, hover, hchoices⟩
  obtain ⟨hg, hgoals⟩ := List.forall_mem_cons.mp hgoals
  obtain ⟨hgover, hover⟩ := List.forall_mem_cons.mp hover
  obtain ⟨hholds, hsteps⟩ := step_spec hfixed hgover s
  rw [← hholds] at hg
  rw [searchWithin] at h
  cases hstep : step u g with
  | decided v =>
    rw [hstep] at h hg
    obtain rfl : v = true := hg
    exact hfuel h ⟨hb, hgoals, hover, hchoices⟩
  | fact f =>
    rw [hstep] at h hg
    dsimp only at h
    split_ifs at h
    · exact hfuel h ⟨hb, hgoals, hover, hchoices⟩
    · obtain ⟨b', hb', hlearn⟩ := hb.learn hg
      rw [hb'] at h
      exact hfuel h ⟨hlearn, hgoals, hover, hchoices⟩
  | every gs =>
    rw [hstep] at h hg hsteps
    exact hfuel h ⟨hb, List.forall_mem_append.mpr ⟨hg, hgoals⟩,
      List.forall_mem_append.mpr ⟨hsteps, hover⟩, hchoices⟩
  | some as =>
    rw [hstep] at h hg hsteps
    exact hfuel h ⟨hb, hgoals, hover, List.forall_mem_cons.mpr ⟨⟨hg, hsteps⟩, hchoices⟩⟩

theorem Refutes.choice (hfuel : Refutes u fuel) (hfixed : u.fixed = [])
    (h : searchWithin u (fuel + 1) b m [] choices = .unsat) : ¬Reachable u s b [] choices := by
  rintro ⟨hb, -, -, hchoices⟩
  rw [searchWithin] at h
  have hnarrowed := holds_narrowAll hfixed hb hchoices
  cases hall : narrowAll u b choices with
  | missed =>
    rw [hall] at hnarrowed
    exact hnarrowed
  | forced a rest =>
    rw [hall] at h hnarrowed
    obtain ⟨⟨hmet, hwithin⟩, hrest⟩ := hnarrowed
    simp only [List.mem_singleton, exists_eq_left, forall_eq] at hmet hwithin
    exact hfuel h ⟨hb, hmet, hwithin, hrest⟩
  | «open» choices =>
    rw [hall] at h hnarrowed
    dsimp only at h
    cases hfound : m.elim b.solve .sat with
    | unsat =>
      cases m with
      | none => exact hb.solve_ne_unsat hfound
      | some m => cases hfound
    | unknown =>
      rw [hfound] at h
      cases h
    | sat m =>
      rw [hfound] at h
      dsimp only at h
      cases hgap : b.violated m with
      | some g =>
        rw [hgap] at h
        obtain ⟨f, hf, hholds⟩ := hb.exists_beside (Bounds.mem_gaps_of_violated hgap)
        refine hfuel (Verdict.first_eq_unsat.mp h f hf) ⟨hb, ?_, by simp, hnarrowed⟩
        exact met_cons.mpr ⟨hholds, met_nil.mpr trivial⟩
      | none =>
        rw [hgap] at h
        cases choices with
        | nil => cases h
        | cons c rest =>
          obtain ⟨hc, hrest⟩ := List.forall_mem_cons.mp hnarrowed
          obtain ⟨⟨a, ha, hmet⟩, hwithin⟩ := hc.exclusive hfixed
          exact hfuel (Verdict.first_eq_unsat.mp h a ha) ⟨hb, hmet, hwithin a ha, hrest⟩

theorem refutes (hfixed : u.fixed = []) (fuel : Nat) : Refutes u fuel := by
  induction fuel with
  | zero =>
    intro s b m goals choices h
    cases h
  | succ fuel ih =>
    intro s b m goals choices h
    cases goals with
    | nil => exact ih.choice hfixed h
    | cons g goals => exact ih.goal hfixed h

end Refutes

end WhileSketch.Search
