import Mathlib
import WhileSketch.Proofs.Failure
import WhileSketch.Proofs.Logic.Meaning

/-! The variables that occur in values. A value that is built from others has the variables of all of
them, as nothing is simplified on the way. -/

namespace WhileSketch

namespace Value

variable {v w u : Value} {vs : List Value} {x : String}

/-- The variables of a value; one that is known has none. -/
def vars : Value → List String
  | int _ | bool _ => []
  | term t => t.vars
  | formula f => f.vars

theorem toFormula_eq_ok {f : Formula} (h : v.toFormula = .ok f) :
    f.vars = v.vars ∧ ∀ s, f.Holds s ↔ v.Holds s := by
  cases v with
  | bool b =>
    cases h
    exact ⟨rfl, fun _ => Iff.rfl⟩
  | formula g =>
    cases h
    exact ⟨rfl, fun _ => Iff.rfl⟩
  | int n | term t => cases h

theorem mapM_toFormula_eq_ok {fs : List Formula} (h : vs.mapM toFormula = .ok fs) :
    (∀ x, (∃ f ∈ fs, x ∈ f.vars) ↔ ∃ v ∈ vs, x ∈ v.vars) ∧
      ∀ s, (∀ f ∈ fs, f.Holds s) ↔ ∀ v ∈ vs, v.Holds s := by
  induction vs generalizing fs with
  | nil =>
    cases h
    simp
  | cons v vs ih =>
    rw [List.mapM_cons] at h
    obtain ⟨f, hf, h⟩ := bind_eq_ok.mp h
    obtain ⟨gs, hgs, h⟩ := bind_eq_ok.mp h
    cases h
    obtain ⟨hvars, hholds⟩ := toFormula_eq_ok hf
    obtain ⟨hmem, hall⟩ := ih hgs
    constructor
    · intro x
      rw [List.exists_mem_cons_iff, List.exists_mem_cons_iff, hvars, hmem]
    · intro s
      rw [List.forall_mem_cons, List.forall_mem_cons, hholds, hall]

theorem parts_eq_ok {connective : String} {fs : List Formula} (h : parts connective vs = .ok fs) :
    vs.mapM toFormula = .ok fs := by
  rw [parts] at h
  split_ifs at h
  exact h

/-- A conjunction that is built is a formula, with the variables of its parts, which is true where
all of them are. -/
theorem conj_eq_ok (h : conj vs = .ok u) :
    (∃ f, u = formula f) ∧ (∀ x, x ∈ u.vars ↔ ∃ v ∈ vs, x ∈ v.vars) ∧
      ∀ s, u.Holds s ↔ ∀ v ∈ vs, v.Holds s := by
  obtain ⟨fs, hfs, hu⟩ := bind_eq_ok.mp h
  cases hu
  obtain ⟨hmem, hall⟩ := mapM_toFormula_eq_ok (parts_eq_ok hfs)
  refine ⟨⟨_, rfl⟩, fun x => ?_, fun s => ?_⟩
  · rw [← hmem]
    exact Formula.mem_vars_all
  · rw [← hall]
    exact Formula.holdAll_iff fs s

theorem disj_eq_ok (h : disj vs = .ok u) (x : String) : x ∈ u.vars ↔ ∃ v ∈ vs, x ∈ v.vars := by
  obtain ⟨fs, hfs, hu⟩ := bind_eq_ok.mp h
  cases hu
  rw [← (mapM_toFormula_eq_ok (parts_eq_ok hfs)).1]
  exact Formula.mem_vars_any

theorem negate_eq_ok (h : v.negate = .ok u) : u.vars = v.vars := by
  obtain ⟨f, hf, hu⟩ := bind_eq_ok.mp h
  cases hu
  exact (toFormula_eq_ok hf).1

theorem implies_eq_ok (h : v.implies w = .ok u) (x : String) :
    x ∈ u.vars ↔ x ∈ v.vars ∨ x ∈ w.vars := by
  obtain ⟨f, hf, h⟩ := bind_eq_ok.mp h
  obtain ⟨g, hg, hu⟩ := bind_eq_ok.mp h
  cases hu
  rw [← (toFormula_eq_ok hf).1, ← (toFormula_eq_ok hg).1]
  exact Formula.mem_vars_implies

theorem forAll_eq_ok {names : List String} (h : forAll names v = .ok u) (x : String) :
    x ∈ u.vars ↔ x ∈ v.vars ∧ x ∉ names := by
  rw [forAll] at h
  split_ifs at h
  obtain ⟨f, hf, hu⟩ := bind_eq_ok.mp h
  cases hu
  rw [← (toFormula_eq_ok hf).1]
  exact Formula.mem_vars_forAll

theorem operate_eq_ok {names : List String} {op : Operator}
    (hop : op.isArithmetic = true ∨ op.isComparison = true) (hv : v.IsNumber names)
    (hw : w.IsNumber names) (h : operate op v w = .ok u) (x : String) :
    x ∈ u.vars ↔ x ∈ v.vars ∨ x ∈ w.vars := by
  cases v with
  | bool _ | formula _ => exact hv.elim
  | int m =>
    cases w with
    | bool _ | formula _ => exact hw.elim
    | int n | term t =>
      cases op <;> simp [Operator.isArithmetic, Operator.isComparison] at hop <;> cases h <;>
        simp [vars, toTerm]
  | term t =>
    cases w with
    | bool _ | formula _ => exact hw.elim
    | int n | term t =>
      cases op <;> simp [Operator.isArithmetic, Operator.isComparison] at hop <;> cases h <;>
        simp [vars, toTerm]

end Value

end WhileSketch
