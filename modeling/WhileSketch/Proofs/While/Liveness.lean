import Mathlib
import WhileSketch.Proofs.Logic.Occurrences
import WhileSketch.Proofs.While.Weakest

/-! The variables that are live before a statement: those whose values its weakest precondition depends
on. They are the variables of the formula that is built, neither more nor fewer. -/

namespace WhileSketch

section Occurring

variable {env : Env} {L M : List String} {x : String}

theorem Value.holds_congr {v : Value} {s s' : State} (h : ∀ x ∈ v.vars, s x = s' x) :
    v.Holds s ↔ v.Holds s' := by
  cases v with
  | formula f => exact f.holds_congr h
  | int _ | bool _ | term _ => exact Iff.rfl

theorem Value.IsTruth.mem_names {v : Value} {names : List String} (hv : v.IsTruth names) :
    ∀ x ∈ v.vars, x ∈ names := by
  cases v with
  | formula f => exact hv
  | bool b => nofun
  | int _ | term _ => exact hv.elim

/-- A variable occurs in what one of the given variables stands for. -/
def Env.Occurs (env : Env) (L : List String) (x : String) : Prop :=
  ∃ y ∈ L, ∃ v, env y = some v ∧ x ∈ v.vars

theorem Env.occurs_append : env.Occurs (L ++ M) x ↔ env.Occurs L x ∨ env.Occurs M x := by
  unfold Env.Occurs
  simp only [List.mem_append, or_and_right, exists_or]

theorem Env.not_occurs_nil : ¬ env.Occurs [] x := by
  rintro ⟨y, hy, -⟩
  cases hy

theorem Env.occurs_of_get {y : String} {v : Value} (h : env.get y = .ok v) :
    env.Occurs [y] x ↔ x ∈ v.vars := by
  have hvalue : env y = some v := by
    unfold Env.get at h
    split at h
    · next hsome =>
      cases h
      exact hsome
    · cases h
  constructor
  · rintro ⟨z, hz, w, hw, hx⟩
    rw [List.mem_singleton.mp hz, hvalue] at hw
    cases hw
    exact hx
  · intro hx
    exact ⟨y, List.mem_cons_self, v, hvalue, hx⟩

/-- What is live before an assignment, given what is live after it. -/
def liveThrough (x : String) (used L : List String) : List String :=
  L.filter (· ≠ x) ++ if x ∈ L then used else []

theorem mem_liveThrough {y : String} {used : List String} :
    x ∈ liveThrough y used L ↔ (x ∈ L ∧ x ≠ y) ∨ (y ∈ L ∧ x ∈ used) := by
  unfold liveThrough
  by_cases hy : y ∈ L
  · simp [hy]
  · simp [hy]

theorem Env.occurs_set {y : String} {v : Value} {used : List String}
    (hv : ∀ x, x ∈ v.vars ↔ env.Occurs used x) :
    (env.set y v).Occurs L x ↔ env.Occurs (liveThrough y used L) x := by
  have hother : env.Occurs (L.filter (· ≠ y)) x ↔ ∃ z ∈ L, z ≠ y ∧ ∃ w, env z = some w ∧ x ∈ w.vars := by
    unfold Env.Occurs
    simp only [List.mem_filter, decide_eq_true_eq, and_assoc]
  have hnew : env.Occurs (if y ∈ L then used else []) x ↔ y ∈ L ∧ x ∈ v.vars := by
    split_ifs with hy
    · simp [hy, hv]
    · simp [hy, Env.not_occurs_nil]
  rw [liveThrough, Env.occurs_append, hother, hnew]
  constructor
  · rintro ⟨z, hz, w, hw, hx⟩
    unfold Env.set at hw
    split_ifs at hw with hzy
    · cases hw
      exact .inr ⟨hzy ▸ hz, hx⟩
    · exact .inl ⟨z, hz, hzy, w, hw, hx⟩
  · rintro (⟨z, hz, hzy, w, hw, hx⟩ | ⟨hy, hx⟩)
    · exact ⟨z, hz, w, by rw [Env.set, if_neg hzy, hw], hx⟩
    · exact ⟨y, hy, v, by rw [Env.set, if_pos rfl], hx⟩

theorem Env.occurs_symbolic {names : List String} :
    (Env.symbolic names).Occurs L x ↔ x ∈ L ∧ x ∈ names := by
  constructor
  · rintro ⟨y, hy, v, hv, hx⟩
    unfold Env.symbolic at hv
    split_ifs at hv with hmem
    cases hv
    rw [Value.vars, Term.mem_vars_var] at hx
    subst hx
    exact ⟨hy, by simpa using hmem⟩
  · rintro ⟨hx, hmem⟩
    exact ⟨x, hx, .term (.var x), by simp [Env.symbolic, hmem], by simp [Value.vars]⟩

/-- The variables of what an assertion comes to are those that occur in what the given variables stand
for. -/
def Assertion.Uses (names : List String) (a : Assertion) (L : List String) : Prop :=
  ∀ env : Env, env.Numeric names → ∀ v, a env = .ok v → ∀ x, x ∈ v.vars ↔ env.Occurs L x

end Occurring

namespace Condition

mutual

def vars : Condition → List String
  | bool _ | int _ => []
  | var x => [x]
  | all cs | any cs => varsEach cs
  | not c => c.vars
  | implies a b | operate _ a b => a.vars ++ b.vars

def varsEach : List Condition → List String
  | [] => []
  | c :: cs => c.vars ++ varsEach cs

end

variable {names : List String} {c : Condition}

theorem IsNumber.mem_names (hc : c.IsNumber names) : ∀ x ∈ c.vars, x ∈ names := by
  induction hc with
  | int n => simp [vars]
  | var hx => simpa [vars] using hx
  | operate _ _ _ iha ihb => simpa [vars, or_imp, forall_and] using ⟨iha, ihb⟩

theorem IsTruth.mem_names (hc : c.IsTruth names) : ∀ x ∈ c.vars, x ∈ names := by
  have heach : ∀ cs : List Condition, (∀ c ∈ cs, ∀ x ∈ c.vars, x ∈ names) →
      ∀ x ∈ varsEach cs, x ∈ names := by
    intro cs hcs
    induction cs with
    | nil => simp [varsEach]
    | cons c cs ih =>
      rw [List.forall_mem_cons] at hcs
      simpa [varsEach, or_imp, forall_and] using ⟨hcs.1, ih hcs.2⟩
  induction hc with
  | bool b => simp [vars]
  | all _ ih | any _ ih => exact heach _ ih
  | not _ ih => exact ih
  | implies _ _ iha ihb => simpa [vars, or_imp, forall_and] using ⟨iha, ihb⟩
  | compare _ ha hb => simpa [vars, or_imp, forall_and] using ⟨ha.mem_names, hb.mem_names⟩

variable {env : Env}

theorem IsNumber.isNumber_eval (henv : env.Numeric names) (hc : c.IsNumber names) {v : Value}
    (hv : c.eval env = .ok v) : v.IsNumber names := by
  obtain ⟨w, hw, hwd⟩ := eval_denotes henv hc
  obtain rfl : w = v := Except.ok.inj (hw.symm.trans hv)
  exact hwd.isNumber

theorem IsNumber.uses (hc : c.IsNumber names) : Assertion.Uses names c.eval c.vars := by
  intro env henv
  induction hc with
  | int n =>
    rintro v ⟨⟩ x
    exact iff_of_false List.not_mem_nil Env.not_occurs_nil
  | var hy => exact fun v hv x => (Env.occurs_of_get hv).symm
  | operate hop ha hb iha ihb =>
    intro v hv x
    obtain ⟨a, hva, hv⟩ := bind_eq_ok.mp hv
    obtain ⟨b, hvb, hv⟩ := bind_eq_ok.mp hv
    rw [Value.operate_eq_ok (.inl hop) (ha.isNumber_eval henv hva) (hb.isNumber_eval henv hvb) hv,
       iha a hva, ihb b hvb, vars, Env.occurs_append]

theorem evalEach_uses {cs : List Condition} {vs : List Value}
    (hcs : ∀ c ∈ cs, ∀ v, c.eval env = .ok v → ∀ x, x ∈ v.vars ↔ env.Occurs c.vars x)
    (h : evalEach cs env = .ok vs) (x : String) :
    (∃ v ∈ vs, x ∈ v.vars) ↔ env.Occurs (varsEach cs) x := by
  induction cs generalizing vs with
  | nil =>
    cases h
    exact iff_of_false (by simp) Env.not_occurs_nil
  | cons c cs ih =>
    obtain ⟨v, hv, h⟩ := bind_eq_ok.mp h
    obtain ⟨ws, hws, h⟩ := bind_eq_ok.mp h
    cases h
    rw [List.forall_mem_cons] at hcs
    rw [List.exists_mem_cons_iff, hcs.1 v hv, ih hcs.2 hws, varsEach, Env.occurs_append]

theorem IsTruth.uses (hc : c.IsTruth names) : Assertion.Uses names c.eval c.vars := by
  intro env henv
  induction hc with
  | bool b =>
    rintro v ⟨⟩ x
    exact iff_of_false List.not_mem_nil Env.not_occurs_nil
  | all _ ih =>
    intro v hv x
    obtain ⟨vs, hvs, hv⟩ := bind_eq_ok.mp hv
    rw [(Value.conj_eq_ok hv).2.1, evalEach_uses ih hvs, vars]
  | any _ ih =>
    intro v hv x
    obtain ⟨vs, hvs, hv⟩ := bind_eq_ok.mp hv
    rw [Value.disj_eq_ok hv, evalEach_uses ih hvs, vars]
  | not _ ih =>
    intro v hv x
    obtain ⟨w, hw, hv⟩ := bind_eq_ok.mp hv
    rw [Value.negate_eq_ok hv, ih w hw, vars]
  | implies _ _ iha ihb =>
    intro v hv x
    obtain ⟨a, ha, hv⟩ := bind_eq_ok.mp hv
    obtain ⟨b, hb, hv⟩ := bind_eq_ok.mp hv
    rw [Value.implies_eq_ok hv, iha a ha, ihb b hb, vars, Env.occurs_append]
  | compare hop ha hb =>
    intro v hv x
    obtain ⟨a, hva, hv⟩ := bind_eq_ok.mp hv
    obtain ⟨b, hvb, hv⟩ := bind_eq_ok.mp hv
    rw [Value.operate_eq_ok (.inr hop) (ha.isNumber_eval henv hva) (hb.isNumber_eval henv hvb) hv,
      ha.uses env henv a hva,
      hb.uses env henv b hvb, vars, Env.occurs_append]

end Condition

namespace While

variable {names : List String} {env : Env}

theorem Expr.isNumber_eval (henv : env.Numeric names) {e : Expr} (hs : e.isNumber = true)
    (hvars : ∀ x ∈ e.vars, x ∈ names) {v : Value} (hv : e.eval env = .ok v) : v.IsNumber names := by
  obtain ⟨w, hw, hwd⟩ := Expr.eval_denotes henv hs hvars
  obtain rfl : w = v := Except.ok.inj (hw.symm.trans hv)
  exact hwd.isNumber

theorem Expr.uses_of_isNumber {e : Expr} (hs : e.isNumber = true) (hvars : ∀ x ∈ e.vars, x ∈ names) :
    Assertion.Uses names (fun env => e.eval env) e.vars := by
  intro env henv
  induction e with
  | var y => exact fun v hv x => (Env.occurs_of_get hv).symm
  | num n =>
    rintro v ⟨⟩ x
    exact iff_of_false List.not_mem_nil Env.not_occurs_nil
  | operate op a b iha ihb =>
    intro v hv x
    simp only [isNumber, Bool.and_eq_true] at hs
    rw [vars, List.forall_mem_append] at hvars
    obtain ⟨u, hu, hv⟩ := bind_eq_ok.mp hv
    obtain ⟨w, hw, hv⟩ := bind_eq_ok.mp hv
    rw [Value.operate_eq_ok (.inl hs.1.1) (isNumber_eval henv hs.1.2 hvars.1 hu)
      (isNumber_eval henv hs.2 hvars.2 hw) hv, iha hs.1.2 hvars.1 u hu, ihb hs.2 hvars.2 w hw, vars,
      Env.occurs_append]
  | invalid fault => simp [isNumber] at hs

theorem Expr.uses_of_isTest {e : Expr} (hs : e.isTest = true) (hvars : ∀ x ∈ e.vars, x ∈ names) :
    Assertion.Uses names (fun env => e.eval env) e.vars := by
  cases e with
  | var _ | num _ | invalid _ => simp [isTest] at hs
  | operate op a b =>
    intro env henv v hv x
    simp only [isTest, Bool.and_eq_true] at hs
    rw [vars, List.forall_mem_append] at hvars
    obtain ⟨u, hu, hv⟩ := bind_eq_ok.mp hv
    obtain ⟨w, hw, hv⟩ := bind_eq_ok.mp hv
    rw [Value.operate_eq_ok (.inr hs.1.1) (isNumber_eval henv hs.1.2 hvars.1 hu)
      (isNumber_eval henv hs.2 hvars.2 hw) hv, uses_of_isNumber hs.1.2 hvars.1 env henv u hu,
      uses_of_isNumber hs.2 hvars.2 env henv w hw, vars, Env.occurs_append]

/-- The variables that are live before a statement, where the invariant of its loops uses `K`, and
`L` are live after it. -/
def Stmt.live (K : List String) : Stmt → List String → List String
  | .skip, L => L
  | .assign x e, L => liveThrough x e.vars L
  | .seq a b, L => a.live K (b.live K L)
  | .ite c a b, L => c.vars ++ (a.live K L ++ b.live K L)
  | .step c a b, L => K ++ (c.vars ++ (a.live K L ++ b.live K L))
  | .loop _ _, _ => K
  | .assert c, L | .exit c, L => c.vars ++ L
  | .invalid _, _ => []

section Uses

variable {c : Expr} {yes no post invariant : Assertion} {K L M : List String}

theorem branch_uses (hc : c.isTest = true) (hvars : ∀ x ∈ c.vars, x ∈ names) (hyes : yes.Uses names L)
    (hno : no.Uses names M) : (branch c yes no).Uses names (c.vars ++ (L ++ M)) := by
  intro env henv v hv x
  obtain ⟨t, ht, hv⟩ := bind_eq_ok.mp hv
  obtain ⟨y, hy, hv⟩ := bind_eq_ok.mp hv
  obtain ⟨left, hleft, hv⟩ := bind_eq_ok.mp hv
  obtain ⟨t', ht', hv⟩ := bind_eq_ok.mp hv
  obtain ⟨f, hf, hv⟩ := bind_eq_ok.mp hv
  obtain ⟨n, hn, hv⟩ := bind_eq_ok.mp hv
  obtain ⟨right, hright, hv⟩ := bind_eq_ok.mp hv
  have htest := Expr.uses_of_isTest hc hvars env henv
  rw [Value.disj_eq_ok hv]
  simp only [List.exists_mem_cons_iff, List.not_mem_nil, false_and, exists_false, or_false,
    (Value.conj_eq_ok hleft).2.1, (Value.conj_eq_ok hright).2.1, Value.negate_eq_ok hf, htest t ht,
    htest t' ht', hyes env henv y hy, hno env henv n hn, Env.occurs_append]
  tauto

theorem conj_uses {first second : Assertion} (hf : first.Uses names L) (hs : second.Uses names M) :
    Assertion.Uses names (fun env => do
      let v ← first env
      Value.conj [v, ← second env]) (L ++ M) := by
  intro env henv v hv x
  obtain ⟨a, ha, hv⟩ := bind_eq_ok.mp hv
  obtain ⟨b, hb, hv⟩ := bind_eq_ok.mp hv
  simp only [(Value.conj_eq_ok hv).2.1, List.exists_mem_cons_iff, List.not_mem_nil, false_and,
    exists_false, or_false, hf env henv a ha x, hs env henv b hb x, Env.occurs_append]

theorem negate_uses {a : Assertion} (ha : a.Uses names L) :
    Assertion.Uses names (fun env => do (← a env).negate) L := by
  intro env henv v hv x
  obtain ⟨w, hw, hv⟩ := bind_eq_ok.mp hv
  rw [Value.negate_eq_ok hv, ha env henv w hw]

/-- What a loop asks of all values of the variables has none of them left. -/
theorem loop_uses {body : Assertion} (hc : c.isTest = true) (hvars : ∀ x ∈ c.vars, x ∈ names)
    (hinv : invariant.Uses names K) (hbody : body.Uses names L) (hpost : post.Uses names M) :
    (loopRule names invariant c body post).Uses names K := by
  intro env henv v hv x
  obtain ⟨kept, hkept, hv⟩ := bind_eq_ok.mp hv
  obtain ⟨i, hi, hv⟩ := bind_eq_ok.mp hv
  obtain ⟨t, ht, hv⟩ := bind_eq_ok.mp hv
  obtain ⟨entered, hentered, hv⟩ := bind_eq_ok.mp hv
  obtain ⟨b, hb, hv⟩ := bind_eq_ok.mp hv
  obtain ⟨preserved, hpreserved, hv⟩ := bind_eq_ok.mp hv
  obtain ⟨i', hi', hv⟩ := bind_eq_ok.mp hv
  obtain ⟨t', ht', hv⟩ := bind_eq_ok.mp hv
  obtain ⟨f, hf, hv⟩ := bind_eq_ok.mp hv
  obtain ⟨left, hleft, hv⟩ := bind_eq_ok.mp hv
  obtain ⟨q, hq, hv⟩ := bind_eq_ok.mp hv
  obtain ⟨sufficient, hsufficient, hv⟩ := bind_eq_ok.mp hv
  obtain ⟨both, hboth, hv⟩ := bind_eq_ok.mp hv
  obtain ⟨closed, hclosed, hv⟩ := bind_eq_ok.mp hv
  have hall := Env.symbolic_numeric names
  have hbound : ∀ {a : Assertion} {N : List String} {w : Value}, a.Uses names N →
      a (Env.symbolic names) = .ok w → x ∈ w.vars → x ∈ names := by
    intro a N w ha hw hx
    exact (Env.occurs_symbolic.mp ((ha _ hall w hw x).mp hx)).2
  have htest := Expr.uses_of_isTest hc hvars
  have hnone : x ∉ closed.vars := by
    rw [Value.forAll_eq_ok hclosed, (Value.conj_eq_ok hboth).2.1]
    simp only [List.exists_mem_cons_iff, List.not_mem_nil, false_and, exists_false, or_false,
      Value.implies_eq_ok hpreserved, Value.implies_eq_ok hsufficient, (Value.conj_eq_ok hentered).2.1,
      (Value.conj_eq_ok hleft).2.1, Value.negate_eq_ok hf]
    rintro ⟨((hx | hx) | hx) | (hx | hx) | hx, hnot⟩
    · exact hnot (hbound hinv hi hx)
    · exact hnot (hbound htest ht hx)
    · exact hnot (hbound hbody hb hx)
    · exact hnot (hbound hinv hi' hx)
    · exact hnot (hbound htest ht' hx)
    · exact hnot (hbound hpost hq hx)
  simp only [(Value.conj_eq_ok hv).2.1, List.exists_mem_cons_iff, List.not_mem_nil, false_and,
    exists_false, or_false, hinv env henv kept hkept x, hnone]

/-- The formula that is built for a statement has the variables that are live before it. -/
theorem wp_uses {c : Stmt} (hs : c.isSorted = true) (hvars : ∀ x ∈ c.vars, x ∈ names)
    (hinv : invariant.Uses names K) (hpost : post.Uses names L) {a : Assertion}
    (ha : wp names invariant c post = .ok a) : a.Uses names (c.live K L) := by
  have hdelayed : ∀ {r : Except Fault Assertion} {N : List String},
      (∀ b, r = .ok b → Assertion.Uses names b N) → Assertion.Uses names (fun env => do (← r) env) N := by
    intro r N hr env henv v hv
    obtain ⟨b, hb, hv⟩ := bind_eq_ok.mp hv
    exact hr b hb env henv v hv
  induction c generalizing post L a with
  | skip =>
    cases ha
    exact hpost
  | assign y e =>
    cases ha
    obtain ⟨hy, he⟩ := List.forall_mem_cons.mp hvars
    intro env henv v hv x
    obtain ⟨w, hw, hv⟩ := bind_eq_ok.mp hv
    have hset := Env.numeric_set henv hy (Expr.isNumber_eval henv hs he hw)
    rw [hpost _ hset v hv, Env.occurs_set (Expr.uses_of_isNumber hs he env henv w hw), Stmt.live]
  | seq b c ihb ihc =>
    simp only [Stmt.isSorted, Bool.and_eq_true] at hs
    obtain ⟨hb, hc⟩ := List.forall_mem_append.mp hvars
    obtain ⟨d, hd, ha⟩ := bind_eq_ok.mp ha
    exact ihb hs.1 hb (ihc hs.2 hc hpost hd) ha
  | ite e b c ihb ihc =>
    cases ha
    simp only [Stmt.isSorted, Bool.and_eq_true] at hs
    obtain ⟨he, hbc⟩ := List.forall_mem_append.mp hvars
    obtain ⟨hb, hc⟩ := List.forall_mem_append.mp hbc
    exact branch_uses hs.1.1 he (hdelayed fun d hd => ihb hs.1.2 hb hpost hd)
      (hdelayed fun d hd => ihc hs.2 hc hpost hd)
  | step e b c ihb ihc =>
    cases ha
    simp only [Stmt.isSorted, Bool.and_eq_true] at hs
    obtain ⟨he, hbc⟩ := List.forall_mem_append.mp hvars
    obtain ⟨hb, hc⟩ := List.forall_mem_append.mp hbc
    exact conj_uses hinv (branch_uses hs.1.1 he (hdelayed fun d hd => ihb hs.1.2 hb hpost hd)
      (hdelayed fun d hd => ihc hs.2 hc hpost hd))
  | loop e body ih =>
    rw [wp_loop] at ha
    cases ha
    simp only [Stmt.isSorted, Bool.and_eq_true] at hs
    obtain ⟨he, hbody⟩ := List.forall_mem_append.mp hvars
    exact loop_uses hs.1 he hinv (hdelayed fun d hd => ih hs.2 hbody hinv hd) hpost
  | assert e =>
    cases ha
    exact conj_uses (Expr.uses_of_isTest hs hvars) hpost
  | exit e =>
    cases ha
    have huses := conj_uses (negate_uses (Expr.uses_of_isTest hs hvars)) hpost
    intro env henv v hv
    refine huses env henv v ?_
    rw [← hv]
    simp only [bind_assoc]
  | invalid fault => cases ha

/-- What is live is a variable of the statement, of the invariant, or live after it. -/
theorem Stmt.mem_of_live {c : Stmt} {x : String} (hx : x ∈ c.live K L) : x ∈ c.vars ∨ x ∈ K ∨ x ∈ L := by
  induction c generalizing L with
  | skip => exact .inr (.inr hx)
  | assign y e =>
    rcases mem_liveThrough.mp hx with ⟨hx, -⟩ | ⟨-, hx⟩
    · exact .inr (.inr hx)
    · exact .inl (List.mem_cons_of_mem y hx)
  | seq a b iha ihb =>
    rw [vars, List.mem_append]
    rcases iha hx with hx | hx | hx
    · exact .inl (.inl hx)
    · exact .inr (.inl hx)
    · exact (ihb hx).imp_left .inr
  | ite e a b iha ihb =>
    simp only [live, List.mem_append] at hx
    simp only [vars, List.mem_append]
    rcases hx with hx | hx | hx
    · exact .inl (.inl hx)
    · exact (iha hx).imp_left fun hx => .inr (.inl hx)
    · exact (ihb hx).imp_left fun hx => .inr (.inr hx)
  | step e a b iha ihb =>
    simp only [live, List.mem_append] at hx
    simp only [vars, List.mem_append]
    rcases hx with hx | hx | hx | hx
    · exact .inr (.inl hx)
    · exact .inl (.inl hx)
    · exact (iha hx).imp_left fun hx => .inr (.inl hx)
    · exact (ihb hx).imp_left fun hx => .inr (.inr hx)
  | loop e body ih => exact .inr (.inl hx)
  | assert e | exit e =>
    rcases List.mem_append.mp hx with hx | hx
    · exact .inl hx
    · exact .inr (.inr hx)
  | invalid fault => cases hx

/-- States with the same values of the live variables satisfy the same weakest preconditions. -/
theorem Stmt.weakest_congr {c : Stmt} (hs : c.isSorted = true) (hvars : ∀ x ∈ c.vars, x ∈ names)
    (hloop : c.isLoopFree = true ∨ names ≠ []) {Q I : Condition} (hQ : Q.IsTruth names)
    (hI : I.IsTruth names) {s s' : State} (h : ∀ x ∈ c.live I.vars Q.vars, s x = s' x) :
    c.Weakest names I.Holds Q.Holds s ↔ c.Weakest names I.Holds Q.Holds s' := by
  have hall := Env.symbolic_numeric names
  obtain ⟨a, ha, hexpresses⟩ :=
    wp_expresses hs hvars hloop (Condition.eval_expresses hI) (Condition.eval_expresses hQ)
  obtain ⟨v, hv, hasserts⟩ := hexpresses _ hall
  have hlive : ∀ x ∈ v.vars, x ∈ c.live I.vars Q.vars := by
    intro x hx
    have hoccurs := (wp_uses hs hvars hI.uses hQ.uses ha _ hall v hv x).mp hx
    exact (Env.occurs_symbolic.mp hoccurs).1
  have hsays : ∀ s, v.Holds s ↔ c.Weakest names I.Holds Q.Holds s := by
    intro s
    rw [hasserts.holds_iff, Env.state_symbolic]
  rw [← hsays, ← hsays]
  exact Value.holds_congr fun x hx => h x (hlive x hx)

end Uses

end While

end WhileSketch
