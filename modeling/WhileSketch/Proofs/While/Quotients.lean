import Mathlib
import WhileSketch.Proofs.While.Verification

/-! Programs with quotients. A quotient can only be taken of a number that is known when the formula
for a program is built, so the formula can be built just if each dividend is known on each way to it. -/

namespace WhileSketch

def unknownDividend : Fault :=
  .noArith "//" .intTerm .int

section Settled

variable {α β : Type} {good : α → Prop} {goodNext : β → Prop} {p q : Prop} {x : Except Fault α}
  {f : α → Except Fault β}

/-- A computation has a good result just when a statement is true; otherwise a dividend was not
known. -/
def Settles (good : α → Prop) (p : Prop) (x : Except Fault α) : Prop :=
  p ∧ (∃ a, x = .ok a ∧ good a) ∨ ¬p ∧ x = .error unknownDividend

theorem Settles.congr (h : Settles good p x) (hpq : p ↔ q) : Settles good q x :=
  propext hpq ▸ h

theorem settles_of_ok (h : ∃ a, x = .ok a ∧ good a) : Settles good True x :=
  .inl ⟨trivial, h⟩

theorem Settles.bind (hx : Settles good p x) (hf : ∀ a, good a → Settles goodNext q (f a)) :
    Settles goodNext (p ∧ q) (x >>= f) := by
  rcases hx with ⟨hp, a, rfl, ha⟩ | ⟨hp, rfl⟩
  · exact (hf a ha).congr (and_iff_right hp).symm
  · exact .inr ⟨fun h => hp h.1, rfl⟩

end Settled

namespace Value

variable {names : List String} {v w : Value}

/-- A number that is known just when it is told so. -/
def IsNumberKnown (names : List String) (known : Bool) (v : Value) : Prop :=
  v.IsNumber names ∧ v.known?.isSome = known

theorem operate_isNumberKnown {op : Operator} (hop : op.isArithmetic = true) {k l : Bool}
    (hv : v.IsNumberKnown names k) (hw : w.IsNumberKnown names l) :
    ∃ u, operate op v w = .ok u ∧ u.IsNumberKnown names (k && l) := by
  obtain ⟨hv, rfl⟩ := hv
  obtain ⟨hw, rfl⟩ := hw
  obtain ⟨u, hu, hud⟩ := operate_denotes hop ⟨hv, fun _ => rfl⟩ ⟨hw, fun _ => rfl⟩
  refine ⟨u, hu, hud.isNumber, ?_⟩
  cases v with
  | bool | formula => exact hv.elim
  | int m | term s =>
    cases w with
    | bool | formula => exact hw.elim
    | int n | term t => cases op <;> cases hop <;> cases hu <;> rfl

/-- The quotient of a number can be taken if it is known. -/
theorem operate_div {k : Bool} (hv : v.IsNumberKnown names k) {n : Int} (hn : n ≠ 0) :
    Settles (IsNumberKnown names k) (k = true) (operate .div v (.int n)) := by
  obtain ⟨hv, rfl⟩ := hv
  cases v with
  | bool | formula => exact hv.elim
  | int m =>
    refine .inl ⟨rfl, .int (m.fdiv n), ?_, trivial, rfl⟩
    exact if_neg hn
  | term t => exact .inr ⟨Bool.false_ne_true, rfl⟩

theorem operate_isTruth {op : Operator} (hop : op.isComparison = true) (hv : v.IsNumber names)
    (hw : w.IsNumber names) : ∃ u, operate op v w = .ok u ∧ u.IsTruth names := by
  obtain ⟨u, hu, hua⟩ := operate_asserts hop ⟨hv, fun _ => rfl⟩ ⟨hw, fun _ => rfl⟩
  exact ⟨u, hu, hua.isTruth⟩

theorem conj_isTruth (hv : v.IsTruth names) (hw : w.IsTruth names) :
    ∃ u, conj [v, w] = .ok u ∧ u.IsTruth names := by
  obtain ⟨u, hu, hua⟩ := conj_pair ⟨hv, fun _ => Iff.rfl⟩ ⟨hw, fun _ => Iff.rfl⟩
  exact ⟨u, hu, hua.isTruth⟩

theorem disj_isTruth (hv : v.IsTruth names) (hw : w.IsTruth names) :
    ∃ u, disj [v, w] = .ok u ∧ u.IsTruth names := by
  obtain ⟨u, hu, hua⟩ := disj_pair ⟨hv, fun _ => Iff.rfl⟩ ⟨hw, fun _ => Iff.rfl⟩
  exact ⟨u, hu, hua.isTruth⟩

theorem negate_isTruth (hv : v.IsTruth names) : ∃ u, v.negate = .ok u ∧ u.IsTruth names := by
  obtain ⟨u, hu, hua⟩ := negate_asserts ⟨hv, fun _ => Iff.rfl⟩
  exact ⟨u, hu, hua.isTruth⟩

theorem implies_isTruth (hv : v.IsTruth names) (hw : w.IsTruth names) :
    ∃ u, v.implies w = .ok u ∧ u.IsTruth names := by
  obtain ⟨u, hu, hua⟩ := implies_asserts ⟨hv, fun _ => Iff.rfl⟩ ⟨hw, fun _ => Iff.rfl⟩
  exact ⟨u, hu, hua.isTruth⟩

theorem forAll_isTruth (hnames : names ≠ []) (hv : v.IsTruth names) :
    ∃ u, forAll names v = .ok u ∧ u.IsTruth names := by
  obtain ⟨u, hu, hua⟩ := forAll_asserts hnames ⟨hv, fun _ => Iff.rfl⟩
  exact ⟨u, hu, hua.isTruth⟩

theorem toFormula_vars (hv : v.IsTruth names) :
    ∃ f, v.toFormula = .ok f ∧ ∀ x ∈ f.vars, x ∈ names := by
  obtain ⟨f, hf, hvars, -⟩ := toFormula_of_isTruth hv
  exact ⟨f, hf, hvars⟩

end Value

namespace Env

variable {names known : List String} {env : Env}

def Knows (known : List String) (env : Env) : Prop :=
  ∀ x, x ∈ known ↔ ∃ n, env x = some (.int n)

theorem knows_symbolic (names : List String) : (symbolic names).Knows [] := by
  intro x
  by_cases hx : x ∈ names <;> simp [symbolic, hx]

theorem Knows.set (h : env.Knows known) (x : String) {v : Value} {k : Bool}
    (hv : v.IsNumberKnown names k) :
    (env.set x v).Knows (if k then x :: known else known.filter (· ≠ x)) := by
  obtain ⟨hv, rfl⟩ := hv
  intro y
  rw [Env.set]
  cases v with
  | bool | formula => exact hv.elim
  | int n =>
    by_cases hy : y = x <;> simp [Value.known?, hy, h y]
  | term t =>
    by_cases hy : y = x <;> simp [Value.known?, hy, h y]

end Env

/-- In each environment of numbers an assertion has a value just when a statement about the variables
with known values is true. -/
def Assertion.Builds (names : List String) (a : Assertion) (k : List String → Prop) : Prop :=
  ∀ env known, env.Numeric names → env.Knows known →
    Settles (Value.IsTruth names) (k known) (a env)

theorem Assertion.Expresses.builds {names : List String} {a : Assertion} {p : State → Prop}
    (h : a.Expresses names p) : a.Builds names fun _ => True := by
  intro env known henv _
  obtain ⟨v, hv, hva⟩ := h env henv
  exact settles_of_ok ⟨v, hv, hva.isTruth⟩

namespace While

section Sorts

/-- Variables and numbers under sums, differences, products, and quotients by numbers other than
zero. -/
def Expr.isInteger : Expr → Bool
  | var _ | num _ => true
  | operate .div a (num n) => a.isInteger && n != 0
  | operate op a b => op.isArithmetic && a.isInteger && b.isInteger
  | invalid _ => false

def Expr.isRelation : Expr → Bool
  | operate op a b => op.isComparison && a.isInteger && b.isInteger
  | _ => false

def Stmt.isIntegral : Stmt → Bool
  | skip => true
  | assign _ e => e.isInteger
  | seq a b => a.isIntegral && b.isIntegral
  | ite c a b | step c a b => c.isRelation && a.isIntegral && b.isIntegral
  | loop c body => c.isRelation && body.isIntegral
  | assert c | exit c => c.isRelation
  | invalid _ => false

theorem Expr.isInteger_div {a b : Expr} (h : (operate .div a b).isInteger = true) :
    a.isInteger = true ∧ ∃ n, b = .num n ∧ n ≠ 0 := by
  cases b with
  | num n => simpa [isInteger] using h
  | _ => simp [isInteger, Operator.isArithmetic] at h

theorem Expr.isInteger_operate {op : Operator} (hop : op ≠ .div) (a b : Expr) :
    (operate op a b).isInteger = (op.isArithmetic && a.isInteger && b.isInteger) := by
  cases op with
  | div => exact absurd rfl hop
  | _ => rw [isInteger]; simp

end Sorts

section Known

def Expr.isKnown (known : List String) (e : Expr) : Bool :=
  e.vars.all known.contains

/-- Whether each quotient is one of a known number. -/
def Expr.dividesKnown (known : List String) : Expr → Bool
  | operate .div a _ => a.isKnown known
  | operate _ a b => a.dividesKnown known && b.dividesKnown known
  | _ => true

/-- The variables that are known after a statement, on each way through it. Nothing is known after a
loop. -/
def Stmt.knownAfter : Stmt → List String → List (List String)
  | assign x e, known => [if e.isKnown known then x :: known else known.filter (· ≠ x)]
  | seq a b, known => (a.knownAfter known).flatMap b.knownAfter
  | ite _ a b, known | step _ a b, known => a.knownAfter known ++ b.knownAfter known
  | loop _ _, _ => [[]]
  | _, known => [known]

/-- Whether each quotient is one of a number that is known on each way to it. -/
def Stmt.dividesKnown : Stmt → List String → Bool
  | assign _ e, known => e.dividesKnown known
  | seq a b, known => a.dividesKnown known && (a.knownAfter known).all b.dividesKnown
  | ite c a b, known | step c a b, known =>
    c.dividesKnown known && (a.dividesKnown known && b.dividesKnown known)
  | loop c body, _ => c.dividesKnown [] && body.dividesKnown []
  | assert c, known | exit c, known => c.dividesKnown known
  | _, _ => true

variable {known : List String}

theorem Expr.isKnown_num (known : List String) (n : Int) : (num n).isKnown known = true :=
  rfl

theorem Expr.isKnown_operate (known : List String) (op : Operator) (a b : Expr) :
    (operate op a b).isKnown known = (a.isKnown known && b.isKnown known) :=
  List.all_append

theorem Expr.dividesKnown_operate {op : Operator} (hop : op ≠ .div) (known : List String)
    (a b : Expr) : (operate op a b).dividesKnown known =
      (a.dividesKnown known && b.dividesKnown known) := by
  cases op with
  | div => exact absurd rfl hop
  | _ => rfl

theorem Expr.dividesKnown_of_isKnown {e : Expr} (h : e.isKnown known = true) :
    e.dividesKnown known = true := by
  induction e with
  | operate op a b iha ihb =>
    simp only [isKnown, vars, List.all_append, Bool.and_eq_true] at h
    cases op with
    | div => exact h.1
    | _ => exact Bool.and_eq_true_iff.mpr ⟨iha h.1, ihb h.2⟩
  | _ => rfl

theorem Expr.dividesKnown_of_isNumber {e : Expr} (h : e.isNumber = true) :
    e.dividesKnown known = true := by
  induction e with
  | operate op a b iha ihb =>
    simp only [isNumber, Bool.and_eq_true] at h
    cases op with
    | div => cases h.1.1
    | _ => exact Bool.and_eq_true_iff.mpr ⟨iha h.1.2, ihb h.2⟩
  | _ => rfl

theorem Expr.dividesKnown_of_isTest {c : Expr} (h : c.isTest = true) :
    c.dividesKnown known = true := by
  cases c with
  | operate op a b =>
    simp only [isTest, Bool.and_eq_true] at h
    cases op with
    | div => cases h.1.1
    | _ =>
      exact Bool.and_eq_true_iff.mpr
        ⟨dividesKnown_of_isNumber h.1.2, dividesKnown_of_isNumber h.2⟩
  | _ => rfl

theorem Stmt.dividesKnown_of_isSorted {c : Stmt} (h : c.isSorted = true) (known : List String) :
    c.dividesKnown known = true := by
  induction c generalizing known with
  | assign x e => exact Expr.dividesKnown_of_isNumber h
  | seq a b iha ihb =>
    simp only [isSorted, Bool.and_eq_true] at h
    simp only [dividesKnown, Bool.and_eq_true, List.all_eq_true]
    exact ⟨iha h.1 known, fun known' _ => ihb h.2 known'⟩
  | ite c a b iha ihb | step c a b iha ihb =>
    simp only [isSorted, Bool.and_eq_true] at h
    simp only [dividesKnown, Bool.and_eq_true]
    exact ⟨Expr.dividesKnown_of_isTest h.1.1, iha h.1.2 known, ihb h.2 known⟩
  | loop c body ih =>
    simp only [isSorted, Bool.and_eq_true] at h
    simp only [dividesKnown, Bool.and_eq_true]
    exact ⟨Expr.dividesKnown_of_isTest h.1, ih h.2 []⟩
  | assert c | exit c => exact Expr.dividesKnown_of_isTest h
  | _ => rfl

end Known

section Evaluation

variable {names known : List String} {env : Env}

/-- An expression has a value just when each dividend in it is known. -/
theorem Expr.settles_eval (henv : env.Numeric names) (hknown : env.Knows known) {e : Expr}
    (hs : e.isInteger = true) (hvars : ∀ x ∈ e.vars, x ∈ names) :
    Settles (Value.IsNumberKnown names (e.isKnown known)) (e.dividesKnown known = true)
      (e.eval env) := by
  induction e with
  | var x =>
    obtain ⟨v, hv, hnumber⟩ := henv.number x (hvars x List.mem_cons_self)
    refine .inl ⟨rfl, v, by rw [eval, Env.get, hv], hnumber, ?_⟩
    have hiff := hknown x
    rw [hv] at hiff
    cases v with
    | bool | formula => exact hnumber.elim
    | int n | term t => simpa [isKnown, vars, Value.known?] using hiff
  | num n => exact .inl ⟨rfl, .int n, rfl, trivial, rfl⟩
  | operate op a b iha ihb =>
    simp only [vars, List.mem_append] at hvars
    have ha := fun hs => iha hs fun x hx => hvars x (.inl hx)
    have hb := fun hs => ihb hs fun x hx => hvars x (.inr hx)
    rw [isKnown_operate]
    by_cases hop : op = .div
    · subst hop
      obtain ⟨hinteger, n, rfl, hn⟩ := isInteger_div hs
      have hquotient := (ha hinteger).bind fun v hv => Value.operate_div hv hn
      have hiff : a.dividesKnown known = true ∧ a.isKnown known = true ↔ a.isKnown known = true :=
        and_iff_right_of_imp dividesKnown_of_isKnown
      rw [isKnown_num, Bool.and_true]
      exact hquotient.congr hiff
    · rw [isInteger_operate hop, Bool.and_eq_true, Bool.and_eq_true] at hs
      obtain ⟨⟨harithmetic, hintegers⟩, hintegerb⟩ := hs
      have hboth := (ha hintegers).bind fun v hv => (hb hintegerb).bind fun w hw =>
        settles_of_ok (Value.operate_isNumberKnown harithmetic hv hw)
      rw [dividesKnown_operate hop, Bool.and_eq_true]
      exact hboth.congr (by rw [and_true])
  | invalid fault => cases hs

theorem Expr.settles_relation (henv : env.Numeric names) (hknown : env.Knows known) {c : Expr}
    (hs : c.isRelation = true) (hvars : ∀ x ∈ c.vars, x ∈ names) :
    Settles (Value.IsTruth names) (c.dividesKnown known = true) (c.eval env) := by
  cases c with
  | operate op a b =>
    simp only [isRelation, Bool.and_eq_true] at hs
    simp only [vars, List.mem_append] at hvars
    have hop : op ≠ .div := by
      rintro rfl
      cases hs.1.1
    have ha := settles_eval henv hknown hs.1.2 fun x hx => hvars x (.inl hx)
    have hb := settles_eval henv hknown hs.2 fun x hx => hvars x (.inr hx)
    have hboth := ha.bind fun v hv => hb.bind fun w hw =>
      settles_of_ok (Value.operate_isTruth hs.1.1 hv.1 hw.1)
    rw [dividesKnown_operate hop, Bool.and_eq_true]
    exact hboth.congr (by rw [and_true])
  | _ => cases hs

variable {c : Expr} {yes no post invariant : Assertion} {k l : List String → Prop}

theorem branch_builds (hs : c.isRelation = true) (hvars : ∀ x ∈ c.vars, x ∈ names)
    (hyes : yes.Builds names k) (hno : no.Builds names l) : (branch c yes no).Builds names
      fun known => c.dividesKnown known = true ∧ k known ∧ l known := by
  intro env known henv hknown
  have htest := Expr.settles_relation henv hknown hs hvars
  have hbranch := htest.bind fun v hv => (hyes env known henv hknown).bind fun y hy =>
    (settles_of_ok (Value.conj_isTruth hv hy)).bind fun left hleft =>
    htest.bind fun v hv => (settles_of_ok (Value.negate_isTruth hv)).bind fun u hu =>
    (hno env known henv hknown).bind fun n hn =>
    (settles_of_ok (Value.conj_isTruth hu hn)).bind fun right hright =>
    settles_of_ok (Value.disj_isTruth hleft hright)
  exact hbranch.congr (by tauto)

theorem conj_builds {first second : Assertion} (hfirst : first.Builds names k)
    (hsecond : second.Builds names l) : Assertion.Builds names (fun env => do
      let v ← first env
      Value.conj [v, ← second env]) fun known => k known ∧ l known := by
  intro env known henv hknown
  have hboth := (hfirst env known henv hknown).bind fun v hv =>
    (hsecond env known henv hknown).bind fun w hw => settles_of_ok (Value.conj_isTruth hv hw)
  exact hboth.congr (by rw [and_true])

theorem relation_builds (hs : c.isRelation = true) (hvars : ∀ x ∈ c.vars, x ∈ names) :
    Assertion.Builds names (fun env => c.eval env) fun known => c.dividesKnown known = true :=
  fun _ _ henv hknown => Expr.settles_relation henv hknown hs hvars

theorem exit_builds (hs : c.isRelation = true) (hvars : ∀ x ∈ c.vars, x ∈ names)
    (hpost : post.Builds names k) :
    Assertion.Builds names (fun env => do
      Value.conj [← (← c.eval env).negate, ← post env]) fun known =>
        c.dividesKnown known = true ∧ k known := by
  intro env known henv hknown
  have hboth := (Expr.settles_relation henv hknown hs hvars).bind fun v hv =>
    (settles_of_ok (Value.negate_isTruth hv)).bind fun u hu =>
    (hpost env known henv hknown).bind fun w hw => settles_of_ok (Value.conj_isTruth hu hw)
  exact hboth.congr (by tauto)

/-- The obligations of a loop are about all values of its variables, so nothing is known in them. -/
theorem loop_builds {body : Assertion} (hnames : names ≠ []) (hs : c.isRelation = true)
    (hvars : ∀ x ∈ c.vars, x ∈ names) (hinv : invariant.Builds names fun _ => True)
    (hbody : body.Builds names k) (hpost : post.Builds names l) :
    (loopRule names invariant c body post).Builds names fun _ =>
      c.dividesKnown [] = true ∧ k [] ∧ l [] := by
  intro env known henv hknown
  have hall := Env.symbolic_numeric names
  have hnone := Env.knows_symbolic names
  have hkept := hinv _ _ hall hnone
  have htest := Expr.settles_relation hall hnone hs hvars
  have hloop := (hinv env known henv hknown).bind fun kept hkept' => hkept.bind fun i hi =>
    htest.bind fun t ht => (settles_of_ok (Value.conj_isTruth hi ht)).bind fun entered hentered =>
    (hbody _ _ hall hnone).bind fun b hb =>
    (settles_of_ok (Value.implies_isTruth hentered hb)).bind fun preserved hpreserved =>
    hkept.bind fun i hi => htest.bind fun t ht =>
    (settles_of_ok (Value.negate_isTruth ht)).bind fun u hu =>
    (settles_of_ok (Value.conj_isTruth hi hu)).bind fun left hleft =>
    (hpost _ _ hall hnone).bind fun q hq =>
    (settles_of_ok (Value.implies_isTruth hleft hq)).bind fun sufficient hsufficient =>
    (settles_of_ok (Value.conj_isTruth hpreserved hsufficient)).bind fun both hboth =>
    (settles_of_ok (Value.forAll_isTruth hnames hboth)).bind fun closed hclosed =>
    settles_of_ok (Value.conj_isTruth hkept' hclosed)
  exact hloop.congr (by tauto)

end Evaluation

theorem branches_known_iff (c : Expr) (a b : Stmt) (k : List String → Prop) (known : List String) :
    (Stmt.ite c a b).dividesKnown known = true ∧
        (∀ known' ∈ (Stmt.ite c a b).knownAfter known, k known') ↔
      c.dividesKnown known = true ∧
        (a.dividesKnown known = true ∧ ∀ known' ∈ a.knownAfter known, k known') ∧
        (b.dividesKnown known = true ∧ ∀ known' ∈ b.knownAfter known, k known') := by
  rw [Stmt.dividesKnown, Stmt.knownAfter, List.forall_mem_append, Bool.and_eq_true, Bool.and_eq_true]
  tauto

/-- The formula for a statement can be built just when each dividend is known, and the postcondition
can be built, on each way through the statement. -/
theorem wp_builds {names : List String} (hnames : names ≠ []) {c : Stmt} (hs : c.isIntegral = true)
    (hvars : ∀ x ∈ c.vars, x ∈ names) {invariant post : Assertion} {k : List String → Prop}
    (hinv : invariant.Builds names fun _ => True) (hpost : post.Builds names k) :
    ∃ a, wp names invariant c post = .ok a ∧ a.Builds names fun known =>
      c.dividesKnown known = true ∧ ∀ known' ∈ c.knownAfter known, k known' := by
  induction c generalizing post k with
  | skip =>
    refine ⟨post, rfl, fun env known henv hknown => (hpost env known henv hknown).congr ?_⟩
    simp [Stmt.dividesKnown, Stmt.knownAfter]
  | assign x e =>
    refine ⟨_, rfl, fun env known henv hknown => ?_⟩
    have hvalue := Expr.settles_eval henv hknown hs fun y hy => hvars y (List.mem_cons_of_mem x hy)
    have hx : x ∈ names := hvars x List.mem_cons_self
    have hassign := hvalue.bind fun v hv =>
      hpost (env.set x v) _ (Env.numeric_set henv hx hv.1) (hknown.set x hv)
    exact hassign.congr (by simp [Stmt.dividesKnown, Stmt.knownAfter])
  | seq a b iha ihb =>
    simp only [Stmt.isIntegral, Bool.and_eq_true] at hs
    simp only [Stmt.vars, List.mem_append] at hvars
    obtain ⟨second, hsecond, hbuildsb⟩ := ihb hs.2 (fun x hx => hvars x (.inr hx)) hpost
    obtain ⟨first, hfirst, hbuildsa⟩ := iha hs.1 (fun x hx => hvars x (.inl hx)) hbuildsb
    refine ⟨first, ?_, fun env known henv hknown => (hbuildsa env known henv hknown).congr ?_⟩
    · rw [wp, hsecond]
      exact hfirst
    · simp only [Stmt.dividesKnown, Stmt.knownAfter, Bool.and_eq_true, List.all_eq_true,
        List.mem_flatMap]
      grind
  | ite c a b iha ihb =>
    simp only [Stmt.isIntegral, Bool.and_eq_true] at hs
    simp only [Stmt.vars, List.mem_append] at hvars
    obtain ⟨yes, hyes, hbuildsa⟩ := iha hs.1.2 (fun x hx => hvars x (.inr (.inl hx))) hpost
    obtain ⟨no, hno, hbuildsb⟩ := ihb hs.2 (fun x hx => hvars x (.inr (.inr hx))) hpost
    refine ⟨_, rfl, ?_⟩
    rw [hyes, hno]
    have hbranch := branch_builds hs.1.1 (fun x hx => hvars x (.inl hx)) hbuildsa hbuildsb
    intro env known henv hknown
    exact (hbranch env known henv hknown).congr (branches_known_iff c a b k known).symm
  | step c a b iha ihb =>
    simp only [Stmt.isIntegral, Bool.and_eq_true] at hs
    simp only [Stmt.vars, List.mem_append] at hvars
    obtain ⟨yes, hyes, hbuildsa⟩ := iha hs.1.2 (fun x hx => hvars x (.inr (.inl hx))) hpost
    obtain ⟨no, hno, hbuildsb⟩ := ihb hs.2 (fun x hx => hvars x (.inr (.inr hx))) hpost
    refine ⟨_, rfl, ?_⟩
    rw [hyes, hno]
    have hbranch := branch_builds hs.1.1 (fun x hx => hvars x (.inl hx)) hbuildsa hbuildsb
    intro env known henv hknown
    have hstep := conj_builds hinv hbranch env known henv hknown
    exact hstep.congr ((iff_of_eq (true_and _)).trans (branches_known_iff c a b k known).symm)
  | loop c body ih =>
    simp only [Stmt.isIntegral, Bool.and_eq_true] at hs
    simp only [Stmt.vars, List.mem_append] at hvars
    obtain ⟨round, hround, hbuilds⟩ := ih hs.2 (fun x hx => hvars x (.inr hx)) hinv
    refine ⟨_, wp_loop names invariant c body post, ?_⟩
    rw [hround]
    have hloop := loop_builds hnames hs.1 (fun x hx => hvars x (.inl hx)) hinv hbuilds hpost
    refine fun env known henv hknown => (hloop env known henv hknown).congr ?_
    simp [Stmt.dividesKnown, Stmt.knownAfter, and_assoc]
  | assert c =>
    refine ⟨_, rfl, fun env known henv hknown => ?_⟩
    have hassert := conj_builds (relation_builds hs hvars) hpost env known henv hknown
    exact hassert.congr (by simp [Stmt.dividesKnown, Stmt.knownAfter])
  | exit c =>
    refine ⟨_, rfl, fun env known henv hknown => ?_⟩
    exact (exit_builds hs hvars hpost env known henv hknown).congr
      (by simp [Stmt.dividesKnown, Stmt.knownAfter])
  | invalid fault => cases hs

/-- The formula for the inputs on which the program fails can be built just when each dividend is
known, where nothing is known of the inputs. -/
theorem Task.failure_settles {c : Stmt} {t : Tree Label} (ht : StmtTree c t) (hs : c.isIntegral = true)
    (hid : "id" ∉ c.vars) (hvars : c.vars ≠ []) {P Q I : Condition} (hP : P.IsTruth c.vars)
    (hQ : Q.IsTruth c.vars) (hI : I.IsTruth c.vars) :
    Settles (fun f : Formula => ∀ x ∈ f.vars, x ∈ c.names) (c.dividesKnown [] = true)
      (Task.failure ⟨t, P.eval, Q.eval, I.eval⟩) := by
  have hmem : ∀ x ∈ c.vars, x ∈ c.names := fun x hx => Stmt.mem_names.mpr hx
  have hnames : c.names ≠ [] := by
    obtain ⟨x, hx⟩ := List.exists_mem_of_ne_nil _ hvars
    exact List.ne_nil_of_mem (hmem x hx)
  have hall := Env.symbolic_numeric c.names
  have hnone := Env.knows_symbolic c.names
  obtain ⟨a, ha, hbuilds⟩ := wp_builds hnames hs hmem (Stmt.eval_expresses hI).builds
    (Stmt.eval_expresses hQ).builds
  have hweakest : Task.weakest ⟨t, P.eval, Q.eval, I.eval⟩ = .ok (c.names, a) := by
    rw [Task.weakest, ht.variableNames_eq, if_neg hid, ht.ofTree_eq]
    exact bind_eq_ok.mpr ⟨_, rfl, bind_eq_ok.mpr ⟨a, ha, rfl⟩⟩
  have hfailure := ((Stmt.eval_expresses hP).builds _ _ hall hnone).bind fun before hbefore =>
    (hbuilds _ _ hall hnone).bind fun w hw =>
    (settles_of_ok (Value.implies_isTruth hbefore hw)).bind fun i hi =>
    (settles_of_ok (Value.negate_isTruth hi)).bind fun n hn =>
    settles_of_ok (Value.toFormula_vars hn)
  rw [Task.failure, hweakest]
  exact hfailure.congr (by simp)

/-- For a program in which what is assigned is an integer and what is asked is a comparison of
integers, the formula that the verifier decides is built without failure just if no variable is called
like the nodes above variables and each dividend is known on each way to it. Otherwise the cause of the
failure is one of the two. In particular, programs without quotients fail only for a name. -/
theorem failure_built_iff {c : Stmt} {t : Tree Label} (ht : StmtTree c t) (hs : c.isIntegral = true)
    (hvars : c.vars ≠ []) {P Q I : Condition} (hP : P.IsTruth c.vars) (hQ : Q.IsTruth c.vars)
    (hI : I.IsTruth c.vars) :
    ((∃ f, Task.failure ⟨t, P.eval, Q.eval, I.eval⟩ = .ok f) ↔
      "id" ∉ c.vars ∧ c.dividesKnown [] = true) ∧
    (∀ cause, Task.failure ⟨t, P.eval, Q.eval, I.eval⟩ = .error cause →
      cause = .noSuchItem ∧ "id" ∈ c.vars ∨
        cause = unknownDividend ∧ "id" ∉ c.vars ∧ c.dividesKnown [] = false) ∧
    (c.isSorted = true → c.dividesKnown [] = true) := by
  have hsorted := fun h : c.isSorted = true => Stmt.dividesKnown_of_isSorted h []
  by_cases hid : "id" ∈ c.vars
  · have hfailure : Task.failure ⟨t, P.eval, Q.eval, I.eval⟩ = .error .noSuchItem := by
      rw [Task.failure, Task.weakest, ht.variableNames_eq, if_pos hid]
      rfl
    rw [hfailure]
    refine ⟨by simp [hid], fun cause hcause => ?_, hsorted⟩
    cases hcause
    exact .inl ⟨rfl, hid⟩
  · rcases Task.failure_settles ht hs hid hvars hP hQ hI with ⟨hknown, f, hf, -⟩ | ⟨hunknown, hf⟩
    · rw [hf]
      exact ⟨⟨fun _ => ⟨hid, hknown⟩, fun _ => ⟨f, rfl⟩⟩, by simp, hsorted⟩
    · rw [hf]
      refine ⟨by simp [hunknown], fun cause hcause => ?_, hsorted⟩
      cases hcause
      exact .inr ⟨rfl, hid, Bool.not_eq_true _ ▸ hunknown⟩

/-- A program that takes the quotient of a known number before a loop. -/
def halvedOnce : Stmt :=
  .seq (.assign "y" (.num 7))
    (.seq (.assign "x" (.operate .div (.var "y") (.num 2)))
      (.loop (.operate .lt (.var "x") (.num 9)) (.assign "x" (.operate .add (.var "x") (.num 1)))))

theorem failure_built_halvedOnce :
    ∃ t, StmtTree halvedOnce t ∧ halvedOnce.isIntegral = true ∧ halvedOnce.vars ≠ [] ∧
      ∃ f, Task.failure ⟨t, Condition.eval (.bool true),
        Condition.eval (.operate .eq (.var "x") (.int 9)),
        Condition.eval (.operate .le (.var "x") (.int 9))⟩ = .ok f := by
  have htree : StmtTree halvedOnce _ := .seq (.assign "y" (.num 7))
    (.seq (.assign "x" (.operate .div (.var "y") (.num 2)))
      (.loop (.operate .lt (.var "x") (.num 9)) (.assign "x" (.operate .add (.var "x") (.num 1)))))
  have hc : ∀ op, op.isComparison = true →
      Condition.IsTruth halvedOnce.vars (.operate op (.var "x") (.int 9)) :=
    fun op hop => .compare hop (.var (by decide)) (.int 9)
  have hbuilt := failure_built_iff htree rfl (by decide) (.bool true) (hc .eq rfl) (hc .le rfl)
  exact ⟨_, htree, rfl, by decide, hbuilt.1.mpr ⟨by decide, by decide⟩⟩

theorem failure_quotient_of_input :
    ∃ t, StmtTree (.assign "x" (.operate .div (.var "y") (.num 2))) t ∧
      (Stmt.assign "x" (.operate .div (.var "y") (.num 2))).isIntegral = true ∧
      Task.failure ⟨t, Condition.eval (.bool true),
        Condition.eval (.operate .eq (.var "x") (.var "x")), Condition.eval (.bool true)⟩ =
          .error unknownDividend :=
  ⟨_, .assign "x" (.operate .div (.var "y") (.num 2)), rfl, rfl⟩

end While

end WhileSketch
