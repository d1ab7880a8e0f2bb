import Mathlib
import WhileSketch.Proofs.Logic.Search

/-! What the decision of formulas is worth: the values that it gives make the formula true, and where
it says that there are none, there are none. -/

namespace WhileSketch

section Tests

mutual

theorem Term.value_eq_denote {s : State} :
    ∀ {t : Term}, t.isQuantified = false → t.value s = t.denote s
  | .var _, _ | .lit _, _ => rfl
  | .add a b, h | .sub a b, h | .mul a b, h => by
    rw [Term.isQuantified, Bool.or_eq_false_iff] at h
    rw [Term.value, Term.denote, Term.value_eq_denote h.1, Term.value_eq_denote h.2]
  | .ite c a b, h => by
    simp only [Term.isQuantified, Bool.or_eq_false_iff] at h
    rw [Term.value, Term.denote, Term.value_eq_denote h.1.2, Term.value_eq_denote h.2]
    have hc := Formula.test_iff_holds (s := s) h.1.1
    by_cases hs : c.Holds s
    · rw [if_pos (hc.mpr hs), if_pos hs]
    · rw [if_neg (mt hc.mp hs), if_neg hs]

theorem Formula.test_iff_holds {s : State} :
    ∀ {f : Formula}, f.isQuantified = false → (f.test s = true ↔ f.Holds s)
  | .lit _, _ => Iff.rfl
  | .all fs, h => (Formula.testEach_iff fs h).1
  | .any fs, h => (Formula.testEach_iff fs h).2
  | .not f, h => by
    rw [Formula.test, Formula.Holds, ← Formula.test_iff_holds (f := f) h, Bool.not_eq_true',
      Bool.not_eq_true]
  | .implies f g, h | .same f g, h | .differ f g, h => by
    rw [Formula.isQuantified, Bool.or_eq_false_iff] at h
    rw [Formula.test, Formula.Holds, ← Formula.test_iff_holds h.1, ← Formula.test_iff_holds h.2]
    cases f.test s <;> cases g.test s <;> simp
  | .eq a b, h | .ne a b, h | .lt a b, h | .le a b, h | .gt a b, h | .ge a b, h => by
    rw [Formula.isQuantified, Bool.or_eq_false_iff] at h
    simp [Formula.test, Formula.Holds, Term.value_eq_denote h.1, Term.value_eq_denote h.2]

theorem Formula.testEach_iff {s : State} :
    ∀ fs : List Formula, Formula.anyQuantified fs = false →
      (Formula.testAll s fs = true ↔ Formula.HoldAll fs s) ∧
        (Formula.testAny s fs = true ↔ Formula.HoldAny fs s)
  | [], _ => by simp [Formula.testAll, Formula.testAny, Formula.HoldAll, Formula.HoldAny]
  | f :: fs, h => by
    rw [Formula.anyQuantified, Bool.or_eq_false_iff] at h
    obtain ⟨hall, hany⟩ := Formula.testEach_iff (s := s) fs h.2
    simp only [Formula.testAll, Formula.testAny, Formula.HoldAll, Formula.HoldAny, Bool.and_eq_true,
      Bool.or_eq_true, Formula.test_iff_holds h.1, hall, hany, and_self]

end

mutual

theorem Term.over_of_vars {names : List String} :
    ∀ {t : Term}, t.isQuantified = false → (∀ x ∈ t.vars, x ∈ names) → t.Over names
  | .var x, _, hvars => hvars x (by simp)
  | .lit _, _, _ => trivial
  | .add a b, h, hvars | .sub a b, h, hvars | .mul a b, h, hvars => by
    rw [Term.isQuantified, Bool.or_eq_false_iff] at h
    exact ⟨Term.over_of_vars h.1 fun x hx => hvars x (by simp [hx]),
      Term.over_of_vars h.2 fun x hx => hvars x (by simp [hx])⟩
  | .ite c a b, h, hvars => by
    simp only [Term.isQuantified, Bool.or_eq_false_iff] at h
    exact ⟨Formula.over_of_vars h.1.1 fun x hx => hvars x (by simp [hx]),
      Term.over_of_vars h.1.2 fun x hx => hvars x (by simp [hx]),
      Term.over_of_vars h.2 fun x hx => hvars x (by simp [hx])⟩

theorem Formula.over_of_vars {names : List String} :
    ∀ {f : Formula}, f.isQuantified = false → (∀ x ∈ f.vars, x ∈ names) → f.Over names
  | .lit _, _, _ => trivial
  | .all fs, h, hvars | .any fs, h, hvars =>
    Formula.overEach_of_vars h fun f hf x hx => hvars x (by simpa using ⟨f, hf, hx⟩)
  | .not f, h, hvars => Formula.over_of_vars (f := f) h hvars
  | .implies f g, h, hvars | .same f g, h, hvars | .differ f g, h, hvars => by
    rw [Formula.isQuantified, Bool.or_eq_false_iff] at h
    exact ⟨Formula.over_of_vars h.1 fun x hx => hvars x (by simp [hx]),
      Formula.over_of_vars h.2 fun x hx => hvars x (by simp [hx])⟩
  | .eq a b, h, hvars | .ne a b, h, hvars | .lt a b, h, hvars | .le a b, h, hvars
  | .gt a b, h, hvars | .ge a b, h, hvars => by
    rw [Formula.isQuantified, Bool.or_eq_false_iff] at h
    exact ⟨Term.over_of_vars h.1 fun x hx => hvars x (by simp [hx]),
      Term.over_of_vars h.2 fun x hx => hvars x (by simp [hx])⟩

theorem Formula.overEach_of_vars {names : List String} :
    ∀ {fs : List Formula}, Formula.anyQuantified fs = false →
      (∀ f ∈ fs, ∀ x ∈ f.vars, x ∈ names) → Formula.OverEach names fs
  | [], _, _ => trivial
  | f :: fs, h, hvars => by
    rw [Formula.anyQuantified, Bool.or_eq_false_iff] at h
    rw [List.forall_mem_cons] at hvars
    exact ⟨Formula.over_of_vars h.1 hvars.1, Formula.overEach_of_vars h.2 hvars.2⟩

end

mutual

theorem Term.nodup_addVars : ∀ (t : Term) {seen : List String}, seen.Nodup → (t.addVars seen).Nodup
  | .var x, seen, h => by
    rw [Term.addVars]
    split_ifs with hx
    · exact h
    · exact List.nodup_cons.mpr ⟨by simpa using hx, h⟩
  | .lit _, _, h => h
  | .add a b, _, h | .sub a b, _, h | .mul a b, _, h => b.nodup_addVars (a.nodup_addVars h)
  | .ite c a b, _, h => b.nodup_addVars (a.nodup_addVars (c.nodup_addVars h))

theorem Formula.nodup_addVars :
    ∀ (f : Formula) {seen : List String}, seen.Nodup → (f.addVars seen).Nodup
  | .lit _, _, h => h
  | .all fs, _, h | .any fs, _, h => Formula.nodup_addVarsEach fs h
  | .not f, _, h => f.nodup_addVars h
  | .implies f g, _, h | .same f g, _, h | .differ f g, _, h => g.nodup_addVars (f.nodup_addVars h)
  | .eq a b, _, h | .ne a b, _, h | .lt a b, _, h | .le a b, _, h | .gt a b, _, h
  | .ge a b, _, h => b.nodup_addVars (a.nodup_addVars h)
  | .forAll names body, _, h => by
    rw [Formula.addVars, List.nodup_append']
    refine ⟨(body.nodup_addVars List.nodup_nil).filter _, h, fun x hx hseen => ?_⟩
    simp only [List.mem_filter, Bool.and_eq_true, Bool.not_eq_true', List.contains_eq_mem,
      decide_eq_false_iff_not] at hx
    exact hx.2.2 hseen

theorem Formula.nodup_addVarsEach :
    ∀ (fs : List Formula) {seen : List String}, seen.Nodup → (Formula.addVarsEach seen fs).Nodup
  | [], _, h => h
  | f :: fs, _, h => Formula.nodup_addVarsEach fs (f.nodup_addVars h)

end

theorem Formula.nodup_vars (f : Formula) : f.vars.Nodup :=
  f.nodup_addVars List.nodup_nil

end Tests

section Closing

/-- Answers to whether formulas without quantifiers hold for all values are right. -/
def Judges (validity? : Formula → Option Bool) : Prop :=
  ∀ ⦃f v⦄, f.isQuantified = false → validity? f = some v → (v = true ↔ ∀ s, f.Holds s)

/-- A formula without quantifiers says the same as another one. -/
structure Formula.Closes (f g : Formula) : Prop where
  unquantified : g.isQuantified = false
  vars : ∀ x ∈ g.vars, x ∈ f.vars
  holds : ∀ s, g.Holds s ↔ f.Holds s

structure Term.Closes (t r : Term) : Prop where
  unquantified : r.isQuantified = false
  vars : ∀ x ∈ r.vars, x ∈ t.vars
  denote : ∀ s, r.denote s = t.denote s

variable {validity? : Formula → Option Bool}

theorem Formula.closes_forAll (hv : Judges validity?) {names : List String} {body g : Formula}
    (hbody : body.Closes g) (hnames : ∀ x ∈ g.vars, x ∈ names) {v : Bool}
    (h : validity? g = some v) : (Formula.forAll names body).Closes (.lit v) where
  unquantified := rfl
  vars := by simp
  holds s := by
    rw [Formula.Holds, hv hbody.unquantified h, Formula.Holds]
    constructor
    · exact fun hall s' _ => (hbody.holds s').mp (hall s')
    · intro hall s'
      have htake := (hbody.holds _).mpr (hall _ (s.agreeOutside_take s' names))
      exact (g.holds_congr fun x hx => State.take_of_mem (hnames x hx)).mp htake

mutual

theorem Term.closes_of_close? (hv : Judges validity?) :
    ∀ {t r : Term}, t.close? validity? = some r → t.Closes r
  | .var x, _, h | .lit n, _, h => by
    cases h
    exact ⟨rfl, fun x hx => hx, fun s => rfl⟩
  | .add a b, _, h | .sub a b, _, h | .mul a b, _, h => by
    simp only [Term.close?, Option.bind_eq_bind, Option.bind_eq_some_iff, Option.pure_def,
      Option.some.injEq] at h
    obtain ⟨a', ha, b', hb, rfl⟩ := h
    obtain ⟨hqa, hva, hda⟩ := Term.closes_of_close? hv ha
    obtain ⟨hqb, hvb, hdb⟩ := Term.closes_of_close? hv hb
    refine ⟨by simp [Term.isQuantified, hqa, hqb], fun x hx => ?_, fun s => ?_⟩
    · simp only [Term.mem_vars_add, Term.mem_vars_sub, Term.mem_vars_mul] at hx ⊢
      exact hx.imp (hva x) (hvb x)
    · rw [Term.denote, Term.denote, hda, hdb]
  | .ite c a b, _, h => by
    simp only [Term.close?, Option.bind_eq_bind, Option.bind_eq_some_iff, Option.pure_def,
      Option.some.injEq] at h
    obtain ⟨c', hc, a', ha, b', hb, rfl⟩ := h
    obtain ⟨hqc, hvc, hdc⟩ := Formula.closes_of_close? hv hc
    obtain ⟨hqa, hva, hda⟩ := Term.closes_of_close? hv ha
    obtain ⟨hqb, hvb, hdb⟩ := Term.closes_of_close? hv hb
    refine ⟨by simp [Term.isQuantified, hqa, hqb, hqc], fun x hx => ?_, fun s => ?_⟩
    · simp only [Term.mem_vars_ite] at hx ⊢
      exact hx.imp (Or.imp (hvc x) (hva x)) (hvb x)
    · rw [Term.denote, Term.denote, hda, hdb]
      by_cases hs : c.Holds s
      · rw [if_pos ((hdc s).mpr hs), if_pos hs]
      · rw [if_neg (mt (hdc s).mp hs), if_neg hs]

/-- Deciding the quantified parts of a formula changes neither its truth nor adds variables. -/
theorem Formula.closes_of_close? (hv : Judges validity?) :
    ∀ {f g : Formula}, f.close? validity? = some g → f.Closes g
  | .lit b, _, h => by
    cases h
    exact ⟨rfl, fun x hx => hx, fun s => Iff.rfl⟩
  | .all fs, _, h => by
    simp only [Formula.close?, Option.bind_eq_bind, Option.bind_eq_some_iff, Option.pure_def,
      Option.some.injEq] at h
    obtain ⟨gs, hgs, rfl⟩ := h
    obtain ⟨hq, hvars, hall, -⟩ := Formula.closes_of_closeEach? hv hgs
    exact ⟨hq, hvars, hall⟩
  | .any fs, _, h => by
    simp only [Formula.close?, Option.bind_eq_bind, Option.bind_eq_some_iff, Option.pure_def,
      Option.some.injEq] at h
    obtain ⟨gs, hgs, rfl⟩ := h
    obtain ⟨hq, hvars, -, hany⟩ := Formula.closes_of_closeEach? hv hgs
    exact ⟨hq, hvars, hany⟩
  | .not f, _, h => by
    simp only [Formula.close?, Option.bind_eq_bind, Option.bind_eq_some_iff, Option.pure_def,
      Option.some.injEq] at h
    obtain ⟨g, hg, rfl⟩ := h
    obtain ⟨hq, hvars, hholds⟩ := Formula.closes_of_close? hv hg
    exact ⟨hq, hvars, fun s => not_congr (hholds s)⟩
  | .implies f g, _, h | .same f g, _, h | .differ f g, _, h => by
    simp only [Formula.close?, Option.bind_eq_bind, Option.bind_eq_some_iff, Option.pure_def,
      Option.some.injEq] at h
    obtain ⟨f', hf, g', hg, rfl⟩ := h
    obtain ⟨hqf, hvf, hhf⟩ := Formula.closes_of_close? hv hf
    obtain ⟨hqg, hvg, hhg⟩ := Formula.closes_of_close? hv hg
    refine ⟨by simp [Formula.isQuantified, hqf, hqg], fun x hx => ?_, fun s => ?_⟩
    · simp only [Formula.mem_vars_implies, Formula.mem_vars_same, Formula.mem_vars_differ] at hx ⊢
      exact hx.imp (hvf x) (hvg x)
    · rw [Formula.Holds, Formula.Holds, hhf, hhg]
  | .eq a b, _, h | .ne a b, _, h | .lt a b, _, h | .le a b, _, h | .gt a b, _, h
  | .ge a b, _, h => by
    simp only [Formula.close?, Option.bind_eq_bind, Option.bind_eq_some_iff, Option.pure_def,
      Option.some.injEq] at h
    obtain ⟨a', ha, b', hb, rfl⟩ := h
    obtain ⟨hqa, hva, hda⟩ := Term.closes_of_close? hv ha
    obtain ⟨hqb, hvb, hdb⟩ := Term.closes_of_close? hv hb
    refine ⟨by simp [Formula.isQuantified, hqa, hqb], fun x hx => ?_, fun s => ?_⟩
    · simp only [Formula.mem_vars_eq, Formula.mem_vars_ne, Formula.mem_vars_lt, Formula.mem_vars_le,
        Formula.mem_vars_gt, Formula.mem_vars_ge] at hx ⊢
      exact hx.imp (hva x) (hvb x)
    · rw [Formula.Holds, Formula.Holds, hda, hdb]
  | .forAll names body, _, h => by
    simp only [Formula.close?, Option.bind_eq_bind, Option.bind_eq_some_iff, Option.pure_def] at h
    obtain ⟨g, hg, h⟩ := h
    split_ifs at h with hnames
    simp only [Option.bind_eq_some_iff, Option.some.injEq] at h
    obtain ⟨v, hv', rfl⟩ := h
    exact Formula.closes_forAll hv (Formula.closes_of_close? hv hg) (by simpa using hnames) hv'

theorem Formula.closes_of_closeEach? (hv : Judges validity?) :
    ∀ {fs gs : List Formula}, Formula.closeEach? validity? fs = some gs →
      Formula.anyQuantified gs = false ∧
      (∀ x ∈ Formula.varsEach gs, x ∈ Formula.varsEach fs) ∧
      (∀ s, Formula.HoldAll gs s ↔ Formula.HoldAll fs s) ∧
      ∀ s, Formula.HoldAny gs s ↔ Formula.HoldAny fs s
  | [], _, h => by
    cases h
    exact ⟨rfl, fun x hx => hx, fun s => Iff.rfl, fun s => Iff.rfl⟩
  | f :: fs, _, h => by
    simp only [Formula.closeEach?, Option.bind_eq_bind, Option.bind_eq_some_iff, Option.pure_def,
      Option.some.injEq] at h
    obtain ⟨g, hg, gs, hgs, rfl⟩ := h
    obtain ⟨hqg, hvg, hhg⟩ := Formula.closes_of_close? hv hg
    obtain ⟨hq, hvars, hall, hany⟩ := Formula.closes_of_closeEach? hv hgs
    refine ⟨by simp [Formula.anyQuantified, hqg, hq], fun x hx => ?_, fun s => ?_, fun s => ?_⟩
    · simp only [Formula.mem_varsEach, List.exists_mem_cons_iff] at hvars hx ⊢
      exact hx.imp (hvg x) (hvars x)
    · exact and_congr (hhg s) (hall s)
    · exact or_congr (hhg s) (hany s)

end

end Closing

namespace Decision

variable {f : Formula}

theorem test_of_findWithin {fuel : Nat} {u : Unknowns} {m : Assignment}
    (h : findWithin fuel u f = .sat m) : f.test (toModel ⟨u.names, []⟩ m).value = true := by
  induction fuel generalizing u m with
  | zero => cases h
  | succ fuel ih =>
    rw [findWithin] at h
    cases hsearch : Search.searchWithin u (6 * f.size + 6) .empty none [.formula f true] [] with
    | unsat | unknown =>
      rw [hsearch] at h
      cases h
    | sat m' =>
      rw [hsearch] at h
      dsimp only at h
      split_ifs at h with htest
      · cases h
        exact htest
      · cases hfactor : f.factor? u with
        | none =>
          rw [hfactor] at h
          cases h
        | some x =>
          rw [hfactor] at h
          dsimp only at h
          cases hfirst : Verdict.first
              (fun n => findWithin fuel { u with fixed := (x, n) :: u.fixed } f) trials with
          | unsat | unknown =>
            rw [hfirst] at h
            cases h
          | sat m' =>
            rw [hfirst] at h
            cases h
            obtain ⟨n, -, hn⟩ := Verdict.exists_of_first_eq_sat hfirst
            exact ih (u := { u with fixed := (x, n) :: u.fixed }) hn

theorem searchWithin_of_findWithin {fuel : Nat} {u : Unknowns} (h : findWithin fuel u f = .unsat) :
    Search.searchWithin u (6 * f.size + 6) .empty none [.formula f true] [] = .unsat := by
  cases fuel with
  | zero => cases h
  | succ fuel =>
    rw [findWithin] at h
    grind

theorem holds_of_find_eq_sat (hf : f.isQuantified = false) {m : Model} (h : find f = .sat m) :
    f.Holds m.value := by
  obtain ⟨a, ha, rfl⟩ := Verdict.map_eq_sat.mp h
  exact (Formula.test_iff_holds hf).mp (test_of_findWithin ha)

theorem not_holds_of_find_eq_unsat (hf : f.isQuantified = false) (h : find f = .unsat) (s : State) :
    ¬f.Holds s := by
  intro hs
  have hsearch := searchWithin_of_findWithin (Verdict.map_eq_unsat.mp h)
  have hover : f.Over f.vars.reverse := Formula.over_of_vars hf fun x hx => List.mem_reverse.mpr hx
  refine Search.refutes rfl _ (s := s) hsearch
    ⟨Bounds.holds_empty _, ?_, ?_, by simp⟩
  · simpa using hs
  · simpa using hover

theorem judges_validity? : Judges validity? := by
  intro f v hf h
  rw [validity?] at h
  have hnot : (Formula.not f).isQuantified = false := hf
  cases hfind : find (.not f) with
  | sat m =>
    rw [hfind] at h
    cases h
    exact iff_of_false Bool.false_ne_true fun hall => holds_of_find_eq_sat hnot hfind (hall _)
  | unsat =>
    rw [hfind] at h
    cases h
    exact iff_of_true rfl fun s => not_not.mp (not_holds_of_find_eq_unsat hnot hfind s)
  | unknown =>
    rw [hfind] at h
    cases h

theorem check_eq_sat {m : Model} (h : check f = .sat m) :
    f.Holds m.value ∧ m.map Prod.fst = f.vars.reverse := by
  rw [check] at h
  cases hclose : f.close? validity? with
  | none =>
    rw [hclose] at h
    cases h
  | some g =>
    rw [hclose] at h
    obtain ⟨hquantified, -, hholds⟩ := Formula.closes_of_close? judges_validity? hclose
    obtain ⟨m', hm', rfl⟩ := Verdict.map_eq_sat.mp h
    constructor
    · have htrue := (hholds _).mp (holds_of_find_eq_sat hquantified hm')
      refine (f.holds_congr fun x hx => ?_).mp htrue
      rw [Model.value.eq_1 (List.map _ _),
        Solver.lookup_map_choice _ _ (List.mem_reverse.mpr hx), Option.getD_some]
    · rw [List.map_map]
      exact List.map_id _

/-- Where no values are said to exist, there are none. -/
theorem not_holds_of_check_eq_unsat (h : check f = .unsat) (s : State) : ¬f.Holds s := by
  rw [check] at h
  cases hclose : f.close? validity? with
  | none =>
    rw [hclose] at h
    cases h
  | some g =>
    rw [hclose] at h
    obtain ⟨hquantified, -, hholds⟩ := Formula.closes_of_close? judges_validity? hclose
    rw [← hholds s]
    exact not_holds_of_find_eq_unsat hquantified (Verdict.map_eq_unsat.mp h) s

/-- Whatever formula it is asked for, the values that the solver finds make it true and are given once
for each of its variables. -/
theorem solver_faithful : solver.Faithful where
  satisfies hm := (check_eq_sat (Verdict.get?_eq_some.mp hm)).1
  assigns {f m} hm x := by
    rw [(check_eq_sat (Verdict.get?_eq_some.mp hm)).2, List.mem_reverse]
  once {f m} hm := by
    rw [(check_eq_sat (Verdict.get?_eq_some.mp hm)).2, List.nodup_reverse]
    exact f.nodup_vars

theorem solver_truthful : solver.Truthful :=
  solver_faithful.honest.satisfies

open Classical in
/-- The solver with right answers in place of those that it does not find. -/
noncomputable def completed : Solver where
  model? f := if check f = .unknown then Solver.ideal.model? f else solver.model? f

theorem completed_eq (h : check f ≠ .unknown) : completed.model? f = solver.model? f :=
  if_neg h

theorem completed_of_unknown (h : check f = .unknown) : completed.model? f = Solver.ideal.model? f :=
  if_pos h

/-- Where it does not give up, the solver answers as one whose answers are right in both directions. -/
theorem completed_exact : completed.Exact where
  sound f hnone s := by
    by_cases h : check f = .unknown
    · rw [completed_of_unknown h] at hnone
      exact Solver.ideal_exact.sound f hnone s
    · rw [completed_eq h] at hnone
      replace hnone : (check f).get? = none := hnone
      cases hcheck : check f with
      | sat m =>
        rw [hcheck] at hnone
        cases hnone
      | unsat => exact not_holds_of_check_eq_unsat hcheck s
      | unknown => exact absurd hcheck h
  satisfies {f m} hm := by
    by_cases h : check f = .unknown
    · exact Solver.ideal_exact.satisfies (completed_of_unknown h ▸ hm)
    · exact solver_faithful.satisfies (completed_eq h ▸ hm)
  assigns {f m} hm := by
    by_cases h : check f = .unknown
    · exact Solver.ideal_exact.assigns (completed_of_unknown h ▸ hm)
    · exact solver_faithful.assigns (completed_eq h ▸ hm)
  once {f m} hm := by
    by_cases h : check f = .unknown
    · exact Solver.ideal_exact.once (completed_of_unknown h ▸ hm)
    · exact solver_faithful.once (completed_eq h ▸ hm)

end Decision

end WhileSketch
