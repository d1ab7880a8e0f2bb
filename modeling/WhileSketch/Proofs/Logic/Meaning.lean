import Mathlib
import WhileSketch.Logic.Condition
import WhileSketch.Proofs.Logic.Truth

/-! What values, environments and conditions stand for in a state. -/

namespace WhileSketch

namespace Operator

def isArithmetic : Operator → Bool
  | add | sub | mul => true
  | _ => false

def isComparison : Operator → Bool
  | eq | ne | lt | le | gt | ge => true
  | _ => false

def compute : Operator → Int → Int → Int
  | add, m, n => m + n
  | sub, m, n => m - n
  | mul, m, n => m * n
  | _, _, _ => 0

def Compares : Operator → Int → Int → Prop
  | eq, m, n => m = n
  | ne, m, n => m ≠ n
  | lt, m, n => m < n
  | le, m, n => m ≤ n
  | gt, m, n => n < m
  | ge, m, n => n ≤ m
  | _, _, _ => False

instance (m n : Int) : (op : Operator) → Decidable (op.Compares m n)
  | eq => inferInstanceAs (Decidable (m = n))
  | ne => inferInstanceAs (Decidable (m ≠ n))
  | lt => inferInstanceAs (Decidable (m < n))
  | le => inferInstanceAs (Decidable (m ≤ n))
  | gt => inferInstanceAs (Decidable (n < m))
  | ge => inferInstanceAs (Decidable (n ≤ m))
  | add | sub | mul | div => inferInstanceAs (Decidable False)

end Operator

namespace Value

/-- A known number, or a term over the given variables. -/
def IsNumber (names : List String) : Value → Prop
  | int _ => True
  | term t => ∀ x ∈ t.vars, x ∈ names
  | _ => False

/-- A known truth value, or a formula over the given variables. -/
def IsTruth (names : List String) : Value → Prop
  | bool _ => True
  | formula f => ∀ x ∈ f.vars, x ∈ names
  | _ => False

noncomputable def number (s : State) : Value → Int
  | int n => n
  | term t => t.denote s
  | _ => 0

def Holds (s : State) : Value → Prop
  | bool b => b = true
  | formula f => f.Holds s
  | _ => False

/-- A value is, in each state, the number that depends on the state as given. -/
structure Denotes (names : List String) (v : Value) (n : State → Int) : Prop where
  isNumber : v.IsNumber names
  number_eq : ∀ s, v.number s = n s

/-- A value is, in each state, true just when the given statement about the state is. -/
structure Asserts (names : List String) (v : Value) (p : State → Prop) : Prop where
  isTruth : v.IsTruth names
  holds_iff : ∀ s, v.Holds s ↔ p s

variable {names : List String} {v w : Value}

theorem Asserts.congr {p q : State → Prop} (hv : v.Asserts names p) (h : ∀ s, p s ↔ q s) :
    v.Asserts names q :=
  ⟨hv.isTruth, fun s => (hv.holds_iff s).trans (h s)⟩

theorem denotes_int (n : Int) : (int n).Denotes names fun _ => n :=
  ⟨trivial, fun _ => rfl⟩

theorem asserts_bool (b : Bool) : (bool b).Asserts names fun _ => b = true :=
  ⟨trivial, fun _ => Iff.rfl⟩

theorem operate_denotes {op : Operator} (hop : op.isArithmetic = true) {m n : State → Int}
    (hv : v.Denotes names m) (hw : w.Denotes names n) :
    ∃ u, operate op v w = .ok u ∧ u.Denotes names fun s => op.compute (m s) (n s) := by
  obtain ⟨hv, hm⟩ := hv
  obtain ⟨hw, hn⟩ := hw
  cases v with
  | bool _ | formula _ => exact hv.elim
  | int i =>
    cases w with
    | bool _ | formula _ => exact hw.elim
    | int j =>
      cases op <;> simp [Operator.isArithmetic] at hop <;>
        exact ⟨_, rfl, trivial, fun s => by rw [← hm, ← hn]; rfl⟩
    | term t =>
      cases op <;> simp [Operator.isArithmetic] at hop <;>
        exact ⟨_, rfl, fun x hx => hw x (by simpa [toTerm] using hx),
          fun s => by rw [← hm, ← hn]; rfl⟩
  | term t =>
    cases w with
    | bool _ | formula _ => exact hw.elim
    | int j =>
      cases op <;> simp [Operator.isArithmetic] at hop <;>
        exact ⟨_, rfl, fun x hx => hv x (by simpa [toTerm] using hx),
          fun s => by rw [← hm, ← hn]; rfl⟩
    | term u =>
      have hvars : ∀ x, x ∈ t.vars ∨ x ∈ u.vars → x ∈ names := fun x hx => hx.elim (hv x) (hw x)
      cases op <;> simp [Operator.isArithmetic] at hop <;>
        exact ⟨_, rfl, fun x hx => hvars x (by simpa [toTerm] using hx),
          fun s => by rw [← hm, ← hn]; rfl⟩

/-- A comparison of numbers, known or not, gives a truth value or a formula. -/
theorem operate_asserts {op : Operator} (hop : op.isComparison = true) {m n : State → Int}
    (hv : v.Denotes names m) (hw : w.Denotes names n) :
    ∃ u, operate op v w = .ok u ∧ u.Asserts names fun s => op.Compares (m s) (n s) := by
  obtain ⟨hv, hm⟩ := hv
  obtain ⟨hw, hn⟩ := hw
  cases v with
  | bool _ | formula _ => exact hv.elim
  | int i =>
    cases w with
    | bool _ | formula _ => exact hw.elim
    | int j =>
      cases op <;> simp [Operator.isComparison] at hop <;>
        exact ⟨_, rfl, trivial, fun s => by
          rw [← hm, ← hn]; simp [Holds, number, Operator.Compares]⟩
    | term t =>
      cases op <;> simp [Operator.isComparison] at hop <;>
        exact ⟨_, rfl, fun x hx => hw x (by simpa [toTerm] using hx), fun s => by
          rw [← hm, ← hn]
          simp [Holds, number, Operator.Compares, Formula.Holds, Term.denote, toTerm, eq_comm]⟩
  | term t =>
    cases w with
    | bool _ | formula _ => exact hw.elim
    | int j =>
      cases op <;> simp [Operator.isComparison] at hop <;>
        exact ⟨_, rfl, fun x hx => hv x (by simpa [toTerm] using hx), fun s => by
          rw [← hm, ← hn]
          simp [Holds, number, Operator.Compares, Formula.Holds, Term.denote, toTerm]⟩
    | term u =>
      have hvars : ∀ x, x ∈ t.vars ∨ x ∈ u.vars → x ∈ names := fun x hx => hx.elim (hv x) (hw x)
      cases op <;> simp [Operator.isComparison] at hop <;>
        exact ⟨_, rfl, fun x hx => hvars x (by simpa [toTerm] using hx), fun s => by
          rw [← hm, ← hn]
          simp [Holds, number, Operator.Compares, Formula.Holds, toTerm]⟩

theorem toFormula_of_isTruth (hv : v.IsTruth names) :
    ∃ f, v.toFormula = .ok f ∧ (∀ x ∈ f.vars, x ∈ names) ∧ ∀ s, f.Holds s ↔ v.Holds s := by
  cases v with
  | int _ | term _ => exact hv.elim
  | bool b => exact ⟨.lit b, rfl, by simp, fun s => Iff.rfl⟩
  | formula f => exact ⟨f, rfl, hv, fun s => Iff.rfl⟩

theorem mapM_toFormula_of_isTruth {vs : List Value} (hvs : ∀ v ∈ vs, v.IsTruth names) :
    ∃ fs, vs.mapM toFormula = .ok fs ∧ (∀ f ∈ fs, ∀ x ∈ f.vars, x ∈ names) ∧
      ∀ s, ((∀ f ∈ fs, f.Holds s) ↔ ∀ v ∈ vs, v.Holds s) ∧
        ((∃ f ∈ fs, f.Holds s) ↔ ∃ v ∈ vs, v.Holds s) := by
  induction vs with
  | nil => exact ⟨[], rfl, by simp, by simp⟩
  | cons v vs ih =>
    obtain ⟨f, hf, hfv, hfs⟩ := toFormula_of_isTruth (hvs v (by simp))
    obtain ⟨fs, hmap, hfsv, hall⟩ := ih fun w hw => hvs w (by simp [hw])
    refine ⟨f :: fs, ?_, ?_, fun s => ?_⟩
    · rw [List.mapM_cons, hf, hmap]; rfl
    · simpa using ⟨hfv, hfsv⟩
    · simp only [List.forall_mem_cons, List.exists_mem_cons_iff, hfs s, (hall s).1, (hall s).2,
        and_self]

theorem parts_of_isTruth (connective : String) {vs : List Value}
    (hvs : ∀ v ∈ vs, v.IsTruth names) : parts connective vs = vs.mapM toFormula := by
  rw [parts, if_neg]
  simp only [Bool.or_eq_true, Bool.and_eq_true, List.any_eq_true]
  rintro (⟨v, hv, h⟩ | ⟨⟨v, hv, h⟩, -⟩) <;>
  · have htruth := hvs v hv
    cases v <;> simp_all [IsTruth]

theorem conj_asserts {vs : List Value} (hvs : ∀ v ∈ vs, v.IsTruth names) :
    ∃ u, conj vs = .ok u ∧ u.Asserts names fun s => ∀ v ∈ vs, v.Holds s := by
  obtain ⟨fs, hmap, hvars, hall⟩ := mapM_toFormula_of_isTruth hvs
  refine ⟨formula (.all fs), ?_, fun x hx => ?_, fun s => ?_⟩
  · rw [conj, parts_of_isTruth "and" hvs, hmap]; rfl
  · obtain ⟨f, hf, hx⟩ := Formula.mem_vars_all.mp hx
    exact hvars f hf x hx
  · rw [← (hall s).1, ← Formula.holdAll_iff]; rfl

theorem disj_asserts {vs : List Value} (hvs : ∀ v ∈ vs, v.IsTruth names) :
    ∃ u, disj vs = .ok u ∧ u.Asserts names fun s => ∃ v ∈ vs, v.Holds s := by
  obtain ⟨fs, hmap, hvars, hall⟩ := mapM_toFormula_of_isTruth hvs
  refine ⟨formula (.any fs), ?_, fun x hx => ?_, fun s => ?_⟩
  · rw [disj, parts_of_isTruth "or" hvs, hmap]; rfl
  · obtain ⟨f, hf, hx⟩ := Formula.mem_vars_any.mp hx
    exact hvars f hf x hx
  · rw [← (hall s).2, ← Formula.holdAny_iff]; rfl

section Connectives

variable {p q : State → Prop}

theorem conj_pair (hv : v.Asserts names p) (hw : w.Asserts names q) :
    ∃ u, conj [v, w] = .ok u ∧ u.Asserts names fun s => p s ∧ q s := by
  have hvs : ∀ u ∈ [v, w], u.IsTruth names := by simpa using ⟨hv.isTruth, hw.isTruth⟩
  obtain ⟨u, hu, hua⟩ := conj_asserts hvs
  exact ⟨u, hu, hua.congr fun s => by simp [hv.holds_iff, hw.holds_iff]⟩

theorem disj_pair (hv : v.Asserts names p) (hw : w.Asserts names q) :
    ∃ u, disj [v, w] = .ok u ∧ u.Asserts names fun s => p s ∨ q s := by
  have hvs : ∀ u ∈ [v, w], u.IsTruth names := by simpa using ⟨hv.isTruth, hw.isTruth⟩
  obtain ⟨u, hu, hua⟩ := disj_asserts hvs
  exact ⟨u, hu, hua.congr fun s => by simp [hv.holds_iff, hw.holds_iff]⟩

theorem negate_asserts (hv : v.Asserts names p) :
    ∃ u, v.negate = .ok u ∧ u.Asserts names fun s => ¬ p s := by
  obtain ⟨f, hf, hvars, hs⟩ := toFormula_of_isTruth hv.isTruth
  refine ⟨formula (.not f), ?_, hvars, fun s => ?_⟩
  · rw [negate, hf]; rfl
  · rw [← hv.holds_iff s, ← hs s]; rfl

theorem implies_asserts (hv : v.Asserts names p) (hw : w.Asserts names q) :
    ∃ u, v.implies w = .ok u ∧ u.Asserts names fun s => p s → q s := by
  obtain ⟨f, hf, hfv, hfs⟩ := toFormula_of_isTruth hv.isTruth
  obtain ⟨g, hg, hgv, hgs⟩ := toFormula_of_isTruth hw.isTruth
  refine ⟨formula (.implies f g), ?_, fun x hx => ?_, fun s => ?_⟩
  · rw [implies, hf, hg]; rfl
  · exact (Formula.mem_vars_implies.mp hx).elim (hfv x) (hgv x)
  · rw [← hv.holds_iff s, ← hw.holds_iff s, ← hfs s, ← hgs s]; rfl

theorem forAll_asserts (hnames : names ≠ []) (hv : v.Asserts names p) :
    ∃ u, forAll names v = .ok u ∧
      u.Asserts names fun s => ∀ s', s.AgreeOutside names s' → p s' := by
  obtain ⟨f, hf, hvars, hs⟩ := toFormula_of_isTruth hv.isTruth
  refine ⟨formula (.forAll names f), ?_, fun x hx => ?_, fun s => ?_⟩
  · rw [forAll, if_neg (by simpa using hnames), hf]; rfl
  · exact hvars x (Formula.mem_vars_forAll.mp hx).1
  · exact forall₂_congr fun s' _ => (hs s').trans (hv.holds_iff s')

end Connectives

end Value

namespace Env

/-- An environment that gives a number over the given variables to each of them, and nothing to
others. -/
structure Numeric (names : List String) (env : Env) : Prop where
  number : ∀ x ∈ names, ∃ v, env x = some v ∧ v.IsNumber names
  none : ∀ x, x ∉ names → env x = none

/-- The values of variables in an environment whose terms are read in a state. -/
noncomputable def state (env : Env) (s : State) : State := fun x =>
  match env x with
  | some v => v.number s
  | none => s x

variable {names : List String} {env : Env}

theorem get_denotes (henv : env.Numeric names) {x : String} (hx : x ∈ names) :
    ∃ v, env.get x = .ok v ∧ v.Denotes names fun s => env.state s x := by
  obtain ⟨v, hv, hn⟩ := henv.number x hx
  exact ⟨v, by rw [get, hv], hn, fun s => by rw [state, hv]⟩

theorem numeric_set (henv : env.Numeric names) {x : String} (hx : x ∈ names) {v : Value}
    (hv : v.IsNumber names) : (env.set x v).Numeric names where
  number y hy := by
    by_cases h : y = x
    · exact ⟨v, by simp [set, h], hv⟩
    · obtain ⟨w, hw, hn⟩ := henv.number y hy
      exact ⟨w, by simpa [set, h] using hw, hn⟩
  none y hy := by
    have h : y ≠ x := fun h => hy (h ▸ hx)
    simpa [set, h] using henv.none y hy

theorem state_set (x : String) (v : Value) (s : State) :
    (env.set x v).state s = Function.update (env.state s) x (v.number s) := by
  funext y
  by_cases h : y = x
  · subst h; simp [state, set]
  · simp [state, set, h]

theorem symbolic_numeric (names : List String) : (symbolic names).Numeric names where
  number x hx := ⟨.term (.var x), by simp [symbolic, hx], by simpa [Value.IsNumber] using hx⟩
  none x hx := by simp [symbolic, hx]

@[simp] theorem state_symbolic (names : List String) (s : State) :
    (symbolic names).state s = s := by
  funext x
  by_cases h : x ∈ names
  · simp [state, symbolic, h, Value.number, Term.denote]
  · simp [state, symbolic, h]

/-- Outside its variables an environment leaves a state as it is. -/
theorem state_of_not_mem (henv : env.Numeric names) (s : State) {x : String} (hx : x ∉ names) :
    env.state s x = s x := by
  simp [state, henv.none x hx]

end Env

/-- In each environment of numbers an assertion has a value, which says of the state of the
environment what is given. -/
def Assertion.Expresses (names : List String) (a : Assertion) (p : State → Prop) : Prop :=
  ∀ env : Env, env.Numeric names →
    ∃ v, a env = .ok v ∧ v.Asserts names fun s => p (env.state s)

namespace Condition

inductive IsNumber (names : List String) : Condition → Prop
  | int (n : Int) : IsNumber names (.int n)
  | var {x : String} (hx : x ∈ names) : IsNumber names (.var x)
  | operate {op : Operator} {a b : Condition} (hop : op.isArithmetic = true)
      (ha : IsNumber names a) (hb : IsNumber names b) : IsNumber names (.operate op a b)

/-- Boolean combinations of comparisons of numbers, made from the given variables. -/
inductive IsTruth (names : List String) : Condition → Prop
  | bool (b : Bool) : IsTruth names (.bool b)
  | all {cs : List Condition} (hcs : ∀ c ∈ cs, IsTruth names c) : IsTruth names (.all cs)
  | any {cs : List Condition} (hcs : ∀ c ∈ cs, IsTruth names c) : IsTruth names (.any cs)
  | not {c : Condition} (hc : IsTruth names c) : IsTruth names (.not c)
  | implies {a b : Condition} (ha : IsTruth names a) (hb : IsTruth names b) :
      IsTruth names (.implies a b)
  | compare {op : Operator} {a b : Condition} (hop : op.isComparison = true)
      (ha : IsNumber names a) (hb : IsNumber names b) : IsTruth names (.operate op a b)

def value (s : State) : Condition → Int
  | int n => n
  | var x => s x
  | operate op a b => op.compute (a.value s) (b.value s)
  | _ => 0

mutual

def Holds (s : State) : Condition → Prop
  | bool b => b = true
  | all cs => HoldAll s cs
  | any cs => HoldAny s cs
  | not c => ¬ c.Holds s
  | implies a b => a.Holds s → b.Holds s
  | operate op a b => op.Compares (a.value s) (b.value s)
  | int _ => False
  | var _ => False

def HoldAll (s : State) : List Condition → Prop
  | [] => True
  | c :: cs => c.Holds s ∧ HoldAll s cs

def HoldAny (s : State) : List Condition → Prop
  | [] => False
  | c :: cs => c.Holds s ∨ HoldAny s cs

end

theorem IsNumber.mono {names names' : List String} (h : ∀ x ∈ names, x ∈ names') {c : Condition}
    (hc : c.IsNumber names) : c.IsNumber names' := by
  induction hc with
  | int n => exact .int n
  | var hx => exact .var (h _ hx)
  | operate hop _ _ iha ihb => exact .operate hop iha ihb

theorem IsTruth.mono {names names' : List String} (h : ∀ x ∈ names, x ∈ names') {c : Condition}
    (hc : c.IsTruth names) : c.IsTruth names' := by
  induction hc with
  | bool b => exact .bool b
  | all _ ih => exact .all ih
  | any _ ih => exact .any ih
  | not _ ih => exact .not ih
  | implies _ _ iha ihb => exact .implies iha ihb
  | compare hop ha hb => exact .compare hop (ha.mono h) (hb.mono h)

variable {names : List String} {env : Env}

theorem eval_denotes (henv : env.Numeric names) {c : Condition} (hc : c.IsNumber names) :
    ∃ v, c.eval env = .ok v ∧ v.Denotes names fun s => c.value (env.state s) := by
  induction hc with
  | int n => exact ⟨.int n, rfl, Value.denotes_int n⟩
  | var hx => exact Env.get_denotes henv hx
  | operate hop _ _ iha ihb =>
    obtain ⟨v, hv, hvd⟩ := iha
    obtain ⟨w, hw, hwd⟩ := ihb
    obtain ⟨u, hu, hud⟩ := Value.operate_denotes hop hvd hwd
    refine ⟨u, ?_, hud⟩
    rw [eval, hv, hw]
    exact hu

theorem evalEach_asserts {cs : List Condition}
    (hcs : ∀ c ∈ cs, ∃ v, c.eval env = .ok v ∧ v.Asserts names fun s => c.Holds (env.state s)) :
    ∃ vs, evalEach cs env = .ok vs ∧ (∀ v ∈ vs, v.IsTruth names) ∧
      ∀ s, ((∀ v ∈ vs, v.Holds s) ↔ HoldAll (env.state s) cs) ∧
        ((∃ v ∈ vs, v.Holds s) ↔ HoldAny (env.state s) cs) := by
  induction cs with
  | nil => exact ⟨[], rfl, by simp, by simp [HoldAll, HoldAny]⟩
  | cons c cs ih =>
    obtain ⟨v, hv, hva⟩ := hcs c (by simp)
    obtain ⟨vs, hvs, htruth, hall⟩ := ih fun d hd => hcs d (by simp [hd])
    refine ⟨v :: vs, ?_, by simpa using ⟨hva.isTruth, htruth⟩, fun s => ?_⟩
    · rw [evalEach, hv]
      change (evalEach cs env).map (v :: ·) = _
      rw [hvs]; rfl
    · simp only [List.forall_mem_cons, List.exists_mem_cons_iff, hva.holds_iff s, (hall s).1,
        (hall s).2, HoldAll, HoldAny, and_self]

/-- A condition made of comparisons says of a state what it says of the numbers in it. -/
theorem eval_expresses {c : Condition} (hc : c.IsTruth names) :
    Assertion.Expresses names c.eval fun s => c.Holds s := by
  intro env henv
  induction hc with
  | bool b => exact ⟨.bool b, rfl, Value.asserts_bool b⟩
  | all _ ih =>
    obtain ⟨vs, hvs, htruth, hall⟩ := evalEach_asserts ih
    obtain ⟨u, hu, hua⟩ := Value.conj_asserts htruth
    refine ⟨u, ?_, hua.congr fun s => (hall s).1⟩
    rw [eval, hvs]
    exact hu
  | any _ ih =>
    obtain ⟨vs, hvs, htruth, hall⟩ := evalEach_asserts ih
    obtain ⟨u, hu, hua⟩ := Value.disj_asserts htruth
    refine ⟨u, ?_, hua.congr fun s => (hall s).2⟩
    rw [eval, hvs]
    exact hu
  | not _ ih =>
    obtain ⟨v, hv, hva⟩ := ih
    obtain ⟨u, hu, hua⟩ := Value.negate_asserts hva
    refine ⟨u, ?_, hua⟩
    rw [eval, hv]
    exact hu
  | implies _ _ iha ihb =>
    obtain ⟨v, hv, hva⟩ := iha
    obtain ⟨w, hw, hwa⟩ := ihb
    obtain ⟨u, hu, hua⟩ := Value.implies_asserts hva hwa
    refine ⟨u, ?_, hua⟩
    rw [eval, hv, hw]
    exact hu
  | compare hop ha hb =>
    obtain ⟨v, hv, hvd⟩ := eval_denotes henv ha
    obtain ⟨w, hw, hwd⟩ := eval_denotes henv hb
    obtain ⟨u, hu, hua⟩ := Value.operate_asserts hop hvd hwd
    refine ⟨u, ?_, hua⟩
    rw [eval, hv, hw]
    exact hu

theorem IsTruth.holds_congr {P : Condition} (hP : P.IsTruth names) {s s' : State}
    (h : ∀ x ∈ names, s x = s' x) : P.Holds s ↔ P.Holds s' := by
  obtain ⟨v, -, hv⟩ := eval_expresses hP _ (Env.symbolic_numeric names)
  obtain ⟨f, -, hvars, hf⟩ := Value.toFormula_of_isTruth hv.isTruth
  have hiff : ∀ s, f.Holds s ↔ P.Holds s := fun s => by
    rw [hf, hv.holds_iff, Env.state_symbolic]
  rw [← hiff, ← hiff]
  exact f.holds_congr fun x hx => h x (hvars x hx)

end Condition

end WhileSketch
