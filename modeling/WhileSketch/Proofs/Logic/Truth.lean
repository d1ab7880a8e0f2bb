import Mathlib
import WhileSketch.Logic.Decision

/-! Truth of formulas at given values of all variables, and what is asked of a solver. -/

namespace WhileSketch

abbrev State := String → Int

def State.AgreeOutside (names : List String) (s s' : State) : Prop :=
  ∀ x, x ∉ names → s' x = s x

/-- What is said of states looks at no other variables than the given ones. -/
def LooksAt (names : List String) (p : State → Prop) : Prop :=
  ∀ s s', (∀ x ∈ names, s x = s' x) → p s → p s'

/-- A state with the values of another one for the given variables. -/
def State.take (s : State) (names : List String) (s' : State) : State :=
  fun x => if x ∈ names then s' x else s x

theorem State.take_of_mem {s s' : State} {names : List String} {x : String} (hx : x ∈ names) :
    s.take names s' x = s' x :=
  if_pos hx

theorem State.agreeOutside_take (s s' : State) (names : List String) :
    s.AgreeOutside names (s.take names s') :=
  fun _ hx => if_neg hx

noncomputable section

mutual

def Term.denote : Term → State → Int
  | .var x, s => s x
  | .lit n, _ => n
  | .add a b, s => a.denote s + b.denote s
  | .sub a b, s => a.denote s - b.denote s
  | .mul a b, s => a.denote s * b.denote s
  | .ite c a b, s => open Classical in if c.Holds s then a.denote s else b.denote s

/-- The truth of a formula in a state. Unlike a test, it covers formulas about all values of some
variables. -/
def Formula.Holds : Formula → State → Prop
  | .lit b, _ => b = true
  | .all fs, s => Formula.HoldAll fs s
  | .any fs, s => Formula.HoldAny fs s
  | .not f, s => ¬ f.Holds s
  | .implies f g, s => f.Holds s → g.Holds s
  | .eq a b, s => a.denote s = b.denote s
  | .ne a b, s => a.denote s ≠ b.denote s
  | .lt a b, s => a.denote s < b.denote s
  | .le a b, s => a.denote s ≤ b.denote s
  | .gt a b, s => b.denote s < a.denote s
  | .ge a b, s => b.denote s ≤ a.denote s
  | .same f g, s => f.Holds s ↔ g.Holds s
  | .differ f g, s => ¬ (f.Holds s ↔ g.Holds s)
  | .forAll names body, s => ∀ s', s.AgreeOutside names s' → body.Holds s'

def Formula.HoldAll : List Formula → State → Prop
  | [], _ => True
  | f :: fs, s => f.Holds s ∧ Formula.HoldAll fs s

def Formula.HoldAny : List Formula → State → Prop
  | [], _ => False
  | f :: fs, s => f.Holds s ∨ Formula.HoldAny fs s

end

end

theorem Formula.holdAll_iff (fs : List Formula) (s : State) :
    Formula.HoldAll fs s ↔ ∀ f ∈ fs, f.Holds s := by
  induction fs with
  | nil => simp [Formula.HoldAll]
  | cons f fs ih => simp [Formula.HoldAll, ih]

theorem Formula.holdAny_iff (fs : List Formula) (s : State) :
    Formula.HoldAny fs s ↔ ∃ f ∈ fs, f.Holds s := by
  induction fs with
  | nil => simp [Formula.HoldAny]
  | cons f fs ih => simp [Formula.HoldAny, ih]

def Term.vars (t : Term) : List String :=
  t.addVars []

def Formula.varsEach (fs : List Formula) : List String :=
  Formula.addVarsEach [] fs

mutual

theorem Term.mem_addVars (x : String) :
    ∀ (t : Term) (seen : List String), x ∈ t.addVars seen ↔ x ∈ seen ∨ x ∈ t.vars
  | .var y, seen => by
    by_cases hy : y ∈ seen <;> simp [Term.addVars, Term.vars, hy] <;> grind
  | .lit _, seen => by simp [Term.addVars, Term.vars]
  | .add a b, seen | .sub a b, seen | .mul a b, seen => by
    simp only [Term.addVars, Term.vars]
    rw [Term.mem_addVars x b, Term.mem_addVars x a, Term.mem_addVars x b (a.addVars [])]
    simp only [Term.vars, or_assoc]
  | .ite c a b, seen => by
    simp only [Term.addVars, Term.vars]
    rw [Term.mem_addVars x b, Term.mem_addVars x a, Formula.mem_addVars x c,
      Term.mem_addVars x b (a.addVars (c.addVars [])), Term.mem_addVars x a (c.addVars [])]
    simp only [Term.vars, Formula.vars, or_assoc]

theorem Formula.mem_addVars (x : String) :
    ∀ (f : Formula) (seen : List String), x ∈ f.addVars seen ↔ x ∈ seen ∨ x ∈ f.vars
  | .lit _, seen => by simp [Formula.addVars, Formula.vars]
  | .all fs, seen | .any fs, seen => by
    simp only [Formula.addVars, Formula.vars]
    rw [Formula.mem_addVarsEach x fs]
    rfl
  | .not f, seen => by
    simp only [Formula.addVars, Formula.vars]
    rw [Formula.mem_addVars x f]
    rfl
  | .implies f g, seen | .same f g, seen | .differ f g, seen => by
    simp only [Formula.addVars, Formula.vars]
    rw [Formula.mem_addVars x g, Formula.mem_addVars x f, Formula.mem_addVars x g (f.addVars [])]
    simp only [Formula.vars, or_assoc]
  | .eq a b, seen | .ne a b, seen | .lt a b, seen | .le a b, seen | .gt a b, seen
  | .ge a b, seen => by
    simp only [Formula.addVars, Formula.vars]
    rw [Term.mem_addVars x b, Term.mem_addVars x a, Term.mem_addVars x b (a.addVars [])]
    simp only [Term.vars, or_assoc]
  | .forAll names body, seen => by
    simp only [Formula.addVars, Formula.vars, List.mem_append, List.mem_filter, List.contains_nil,
      Bool.not_false, Bool.and_true, List.append_nil, Bool.and_eq_true]
    by_cases hx : x ∈ seen <;> simp [hx]

theorem Formula.mem_addVarsEach (x : String) :
    ∀ (fs : List Formula) (seen : List String),
      x ∈ Formula.addVarsEach seen fs ↔ x ∈ seen ∨ x ∈ Formula.varsEach fs
  | [], seen => by simp [Formula.addVarsEach, Formula.varsEach]
  | f :: fs, seen => by
    simp only [Formula.addVarsEach, Formula.varsEach]
    rw [Formula.mem_addVarsEach x fs, Formula.mem_addVars x f,
      Formula.mem_addVarsEach x fs (f.addVars [])]
    simp only [Formula.vars, or_assoc]

end

section Membership

variable {x : String} {a b : Term} {c f g : Formula} {fs : List Formula} {names : List String}

@[simp] theorem Term.mem_vars_var {y : String} : x ∈ (Term.var y).vars ↔ x = y := by
  simp [Term.vars, Term.addVars]

@[simp] theorem Term.mem_vars_lit {n : Int} : x ∈ (Term.lit n).vars ↔ False := by
  simp [Term.vars, Term.addVars]

@[simp] theorem Term.mem_vars_add : x ∈ (Term.add a b).vars ↔ x ∈ a.vars ∨ x ∈ b.vars :=
  Term.mem_addVars x b a.vars

@[simp] theorem Term.mem_vars_sub : x ∈ (Term.sub a b).vars ↔ x ∈ a.vars ∨ x ∈ b.vars :=
  Term.mem_addVars x b a.vars

@[simp] theorem Term.mem_vars_mul : x ∈ (Term.mul a b).vars ↔ x ∈ a.vars ∨ x ∈ b.vars :=
  Term.mem_addVars x b a.vars

@[simp] theorem Term.mem_vars_ite :
    x ∈ (Term.ite c a b).vars ↔ (x ∈ c.vars ∨ x ∈ a.vars) ∨ x ∈ b.vars := by
  rw [Term.vars, Term.addVars, Term.mem_addVars, Term.mem_addVars, Formula.vars]

@[simp] theorem Formula.mem_vars_lit {v : Bool} : x ∈ (Formula.lit v).vars ↔ False := by
  simp [Formula.vars, Formula.addVars]

theorem Formula.mem_varsEach : x ∈ Formula.varsEach fs ↔ ∃ f ∈ fs, x ∈ f.vars := by
  induction fs with
  | nil => simp [Formula.varsEach, Formula.addVarsEach]
  | cons f fs ih =>
    rw [Formula.varsEach, Formula.addVarsEach, Formula.mem_addVarsEach, ih]
    simp [Formula.vars]

@[simp] theorem Formula.mem_vars_all : x ∈ (Formula.all fs).vars ↔ ∃ f ∈ fs, x ∈ f.vars :=
  Formula.mem_varsEach

@[simp] theorem Formula.mem_vars_any : x ∈ (Formula.any fs).vars ↔ ∃ f ∈ fs, x ∈ f.vars :=
  Formula.mem_varsEach

@[simp] theorem Formula.mem_vars_not : x ∈ (Formula.not f).vars ↔ x ∈ f.vars :=
  Iff.rfl

@[simp] theorem Formula.mem_vars_implies :
    x ∈ (Formula.implies f g).vars ↔ x ∈ f.vars ∨ x ∈ g.vars :=
  Formula.mem_addVars x g f.vars

@[simp] theorem Formula.mem_vars_same :
    x ∈ (Formula.same f g).vars ↔ x ∈ f.vars ∨ x ∈ g.vars :=
  Formula.mem_addVars x g f.vars

@[simp] theorem Formula.mem_vars_differ :
    x ∈ (Formula.differ f g).vars ↔ x ∈ f.vars ∨ x ∈ g.vars :=
  Formula.mem_addVars x g f.vars

@[simp] theorem Formula.mem_vars_eq : x ∈ (Formula.eq a b).vars ↔ x ∈ a.vars ∨ x ∈ b.vars :=
  Term.mem_addVars x b a.vars

@[simp] theorem Formula.mem_vars_ne : x ∈ (Formula.ne a b).vars ↔ x ∈ a.vars ∨ x ∈ b.vars :=
  Term.mem_addVars x b a.vars

@[simp] theorem Formula.mem_vars_lt : x ∈ (Formula.lt a b).vars ↔ x ∈ a.vars ∨ x ∈ b.vars :=
  Term.mem_addVars x b a.vars

@[simp] theorem Formula.mem_vars_le : x ∈ (Formula.le a b).vars ↔ x ∈ a.vars ∨ x ∈ b.vars :=
  Term.mem_addVars x b a.vars

@[simp] theorem Formula.mem_vars_gt : x ∈ (Formula.gt a b).vars ↔ x ∈ a.vars ∨ x ∈ b.vars :=
  Term.mem_addVars x b a.vars

@[simp] theorem Formula.mem_vars_ge : x ∈ (Formula.ge a b).vars ↔ x ∈ a.vars ∨ x ∈ b.vars :=
  Term.mem_addVars x b a.vars

@[simp] theorem Formula.mem_vars_forAll :
    x ∈ (Formula.forAll names f).vars ↔ x ∈ f.vars ∧ x ∉ names := by
  simp [Formula.vars, Formula.addVars]

end Membership

mutual

theorem Term.denote_congr : ∀ (t : Term) {s s' : State},
    (∀ x ∈ t.vars, s x = s' x) → t.denote s = t.denote s'
  | .var y, s, s', h => by simpa [Term.denote] using h
  | .lit n, s, s', _ => rfl
  | .add a b, s, s', h | .sub a b, s, s', h | .mul a b, s, s', h => by
    have ha := Term.denote_congr a fun x hx => h x (by simp [hx])
    have hb := Term.denote_congr b fun x hx => h x (by simp [hx])
    simp only [Term.denote, ha, hb]
  | .ite c a b, s, s', h => by
    have hc := Formula.holds_congr c fun x hx => h x (by simp [hx])
    have ha := Term.denote_congr a fun x hx => h x (by simp [hx])
    have hb := Term.denote_congr b fun x hx => h x (by simp [hx])
    by_cases h : c.Holds s
    · rw [Term.denote, Term.denote, if_pos h, if_pos (hc.mp h), ha]
    · rw [Term.denote, Term.denote, if_neg h, if_neg (mt hc.mpr h), hb]

/-- A formula is true in both or in none of two states that agree on its variables. -/
theorem Formula.holds_congr : ∀ (f : Formula) {s s' : State},
    (∀ x ∈ f.vars, s x = s' x) → (f.Holds s ↔ f.Holds s')
  | .lit b, s, s', _ => Iff.rfl
  | .all fs, s, s', h => by
    simp only [Formula.Holds]
    exact (Formula.holdEach_congr fs fun x hx => h x (Formula.mem_vars_all.mpr hx)).1
  | .any fs, s, s', h => by
    simp only [Formula.Holds]
    exact (Formula.holdEach_congr fs fun x hx => h x (Formula.mem_vars_any.mpr hx)).2
  | .not f, s, s', h => by
    simp only [Formula.Holds, Formula.holds_congr f h]
  | .implies f g, s, s', h | .same f g, s, s', h | .differ f g, s, s', h => by
    have hf := Formula.holds_congr f fun x hx => h x (by simp [hx])
    have hg := Formula.holds_congr g fun x hx => h x (by simp [hx])
    simp only [Formula.Holds, hf, hg]
  | .eq a b, s, s', h | .ne a b, s, s', h | .lt a b, s, s', h | .le a b, s, s', h
  | .gt a b, s, s', h | .ge a b, s, s', h => by
    have ha := Term.denote_congr a fun x hx => h x (by simp [hx])
    have hb := Term.denote_congr b fun x hx => h x (by simp [hx])
    simp only [Formula.Holds, ha, hb]
  | .forAll names body, s, s', h => by
    have transfer : ∀ {s s' : State}, (∀ x ∈ (Formula.forAll names body).vars, s x = s' x) →
        (Formula.forAll names body).Holds s → (Formula.forAll names body).Holds s' := by
      intro s s' h hs u hu
      let v : State := fun x => if x ∈ names then u x else s x
      have hv : body.Holds v := hs v fun x hx => by simp [v, hx]
      refine (Formula.holds_congr body fun x hx => ?_).mp hv
      by_cases hn : x ∈ names
      · simp [v, hn]
      · simp only [v, hn, if_false]
        rw [hu x hn]
        exact h x (by simp [hx, hn])
    exact ⟨transfer h, transfer fun x hx => (h x hx).symm⟩

theorem Formula.holdEach_congr : ∀ (fs : List Formula) {s s' : State},
    (∀ x, (∃ f ∈ fs, x ∈ f.vars) → s x = s' x) →
      (Formula.HoldAll fs s ↔ Formula.HoldAll fs s') ∧
        (Formula.HoldAny fs s ↔ Formula.HoldAny fs s')
  | [], s, s', _ => ⟨Iff.rfl, Iff.rfl⟩
  | f :: fs, s, s', h => by
    have hf := Formula.holds_congr f fun x hx => h x ⟨f, by simp, hx⟩
    have hfs := Formula.holdEach_congr fs fun x ⟨g, hg, hx⟩ => h x ⟨g, by simp [hg], hx⟩
    exact ⟨and_congr hf hfs.1, or_congr hf hfs.2⟩

end

namespace Solver

/-- A solver that finds nothing only where nothing is to be found. -/
def Sound (solver : Solver) : Prop :=
  ∀ f, solver.model? f = none → ∀ s, ¬ f.Holds s

/-- A solver whose models make the formula true. -/
def Truthful (solver : Solver) : Prop :=
  ∀ ⦃f m⦄, solver.model? f = some m → f.Holds m.value

/-- A solver whose models make the formula true and give no variable two values. -/
structure Honest (solver : Solver) : Prop where
  satisfies : solver.Truthful
  once : ∀ {f m}, solver.model? f = some m → (m.map Prod.fst).Nodup

/-- A solver that finds a model just where there is one, whatever values that model has. -/
def Decides (solver : Solver) : Prop :=
  ∀ f, (∃ m, solver.model? f = some m) ↔ ∃ s, f.Holds s

/-- A solver whose models make the formula true and give a value to exactly its variables. It need
not find one. -/
structure Faithful (solver : Solver) : Prop where
  satisfies : ∀ {f m}, solver.model? f = some m → f.Holds m.value
  assigns : ∀ {f m}, solver.model? f = some m → ∀ x, x ∈ m.map Prod.fst ↔ x ∈ f.vars
  once : ∀ {f m}, solver.model? f = some m → (m.map Prod.fst).Nodup

theorem Faithful.honest {solver : Solver} (h : solver.Faithful) : solver.Honest where
  satisfies _ _ hm := h.satisfies hm
  once hm := h.once hm

/-- A solver whose answers are right in both directions, and whose models give a value to exactly
the variables of the formula. -/
structure Exact (solver : Solver) : Prop where
  sound : solver.Sound
  satisfies : ∀ {f m}, solver.model? f = some m → f.Holds m.value
  assigns : ∀ {f m}, solver.model? f = some m → ∀ x, x ∈ m.map Prod.fst ↔ x ∈ f.vars
  once : ∀ {f m}, solver.model? f = some m → (m.map Prod.fst).Nodup

theorem Exact.faithful {solver : Solver} (h : solver.Exact) : solver.Faithful :=
  ⟨h.satisfies, h.assigns, h.once⟩

theorem Exact.decides {solver : Solver} (h : solver.Exact) : solver.Decides := by
  intro f
  constructor
  · rintro ⟨m, hm⟩
    exact ⟨_, h.satisfies hm⟩
  · rintro ⟨s, hs⟩
    cases hm : solver.model? f with
    | none => exact absurd hs (h.sound f hm s)
    | some m => exact ⟨m, rfl⟩

open Classical in
/-- A solver that finds a model whenever there is one. -/
noncomputable def ideal : Solver where
  model? f :=
    if h : ∃ s, f.Holds s then some (f.vars.dedup.map fun x => (x, h.choose x)) else none

theorem ideal_eq_none {f : Formula} (h : ∀ s, ¬ f.Holds s) : ideal.model? f = none := by
  simp [ideal, h]

theorem lookup_map_choice (names : List String) (s : State) {x : String} (hx : x ∈ names) :
    (names.map fun y => (y, s y)).lookup x = some (s x) := by
  induction names with
  | nil => simp at hx
  | cons y ys ih =>
    by_cases h : x = y
    · subst h; simp
    · have hb : (x == y) = false := by simpa using h
      simp only [List.map_cons, List.lookup, hb]
      exact ih (by simpa [h] using hx)

theorem ideal_exact : ideal.Exact where
  sound f hf s hs := by
    have h : ∃ s, f.Holds s := ⟨s, hs⟩
    simp [ideal, h] at hf
  satisfies {f m} hm := by
    by_cases h : ∃ s, f.Holds s
    · simp only [ideal, h, dif_pos, Option.some.injEq] at hm
      subst hm
      refine (f.holds_congr fun x hx => ?_).mp h.choose_spec
      rw [Model.value, lookup_map_choice _ _ (by simpa using hx)]
      rfl
    · simp [ideal, h] at hm
  assigns {f m} hm x := by
    by_cases h : ∃ s, f.Holds s
    · simp only [ideal, h, dif_pos, Option.some.injEq] at hm
      subst hm
      simp
    · simp [ideal, h] at hm
  once {f m} hm := by
    by_cases h : ∃ s, f.Holds s
    · simp only [ideal, h, dif_pos, Option.some.injEq] at hm
      subst hm
      have hfst : (Prod.fst ∘ fun x => (x, h.choose x)) = (id : String → String) := rfl
      rw [List.map_map, hfst, List.map_id]
      exact f.vars.nodup_dedup
    · simp [ideal, h] at hm

end Solver

end WhileSketch
