import Mathlib
import WhileSketch.While.Syntax
import WhileSketch.Proofs.Logic.Meaning

/-! Sorts of expressions and statements, and the runs of programs. -/

namespace WhileSketch.While

namespace Expr

def isNumber : Expr → Bool
  | var _ | num _ => true
  | operate op a b => op.isArithmetic && a.isNumber && b.isNumber
  | invalid _ => false

def isTest : Expr → Bool
  | operate op a b => op.isComparison && a.isNumber && b.isNumber
  | _ => false

def vars : Expr → List String
  | var x => [x]
  | operate _ a b => a.vars ++ b.vars
  | _ => []

def value (s : State) : Expr → Int
  | var x => s x
  | num n => n
  | operate op a b => op.compute (a.value s) (b.value s)
  | invalid _ => 0

def Holds (s : State) : Expr → Prop
  | operate op a b => op.Compares (a.value s) (b.value s)
  | _ => False

instance (s : State) : (c : Expr) → Decidable (c.Holds s)
  | operate op a b => inferInstanceAs (Decidable (op.Compares (a.value s) (b.value s)))
  | var _ | num _ | invalid _ => inferInstanceAs (Decidable False)

theorem value_congr {e : Expr} {s s' : State} (h : ∀ x ∈ e.vars, s x = s' x) :
    e.value s = e.value s' := by
  induction e with
  | var x => exact h x (by simp [vars])
  | operate op a b iha ihb =>
    have ha := iha fun x hx => h x (by simp [vars, hx])
    have hb := ihb fun x hx => h x (by simp [vars, hx])
    rw [value, ha, hb, value]
  | _ => rfl

theorem holds_congr {c : Expr} {s s' : State} (h : ∀ x ∈ c.vars, s x = s' x) :
    c.Holds s ↔ c.Holds s' := by
  cases c with
  | operate op a b =>
    have ha : a.value s = a.value s' := value_congr fun x hx => h x (by simp [vars, hx])
    have hb : b.value s = b.value s' := value_congr fun x hx => h x (by simp [vars, hx])
    rw [Holds, ha, hb, Holds]
  | _ => rfl

end Expr

namespace Stmt

/-- What is assigned is a number, and what is asked is a comparison of numbers. -/
def isSorted : Stmt → Bool
  | skip => true
  | assign _ e => e.isNumber
  | seq a b => a.isSorted && b.isSorted
  | ite c a b | step c a b => c.isTest && a.isSorted && b.isSorted
  | loop c body => c.isTest && body.isSorted
  | assert c | exit c => c.isTest
  | invalid _ => false

def vars : Stmt → List String
  | assign x e => x :: e.vars
  | seq a b => a.vars ++ b.vars
  | ite c a b | step c a b => c.vars ++ (a.vars ++ b.vars)
  | loop c body => c.vars ++ body.vars
  | assert c | exit c => c.vars
  | _ => []

def assigned : Stmt → List String
  | assign x _ => [x]
  | seq a b | ite _ a b | step _ a b => a.assigned ++ b.assigned
  | loop _ body => body.assigned
  | _ => []

def isLoopFree : Stmt → Bool
  | loop _ _ => false
  | seq a b | ite _ a b | step _ a b => a.isLoopFree && b.isLoopFree
  | _ => true

/-- There are no loops inside loops. -/
def isFlat : Stmt → Bool
  | loop _ body => body.isLoopFree
  | seq a b | ite _ a b | step _ a b => a.isFlat && b.isFlat
  | _ => true

theorem mem_vars_of_mem_assigned {x : String} : ∀ {c : Stmt}, x ∈ c.assigned → x ∈ c.vars
  | skip, h | assert _, h | exit _, h | invalid _, h => by simp [assigned] at h
  | assign y e, h => by simp_all [assigned, vars]
  | seq a b, h | ite _ a b, h | step _ a b, h => by
    have := mem_vars_of_mem_assigned (x := x) (c := a)
    have := mem_vars_of_mem_assigned (x := x) (c := b)
    simp only [assigned, vars, List.mem_append] at h ⊢
    tauto
  | loop _ body, h => by
    have := mem_vars_of_mem_assigned (x := x) (c := body)
    simp only [assigned, vars, List.mem_append] at h ⊢
    tauto

end Stmt

/-- How a run ends: in a state, or at a claim that is false. -/
inductive Outcome where
  | done (s : State)
  | failed

/-- A run of a statement from a state. Each loop that is not inside another loop makes at most the
given number of rounds, and each conditional step of an unrolled loop is to find `inv` true. -/
inductive Run (inv : State → Prop) : ℕ∞ → Stmt → State → Outcome → Prop
  | skip {n s} : Run inv n .skip s (.done s)
  | assign {n x e s} : Run inv n (.assign x e) s (.done (Function.update s x (e.value s)))
  | seq {n a b s s' o} (ha : Run inv n a s (.done s')) (hb : Run inv n b s' o) :
      Run inv n (.seq a b) s o
  | seqFailed {n a b s} (ha : Run inv n a s .failed) : Run inv n (.seq a b) s .failed
  | iteTrue {n c a b s o} (hc : c.Holds s) (ha : Run inv n a s o) : Run inv n (.ite c a b) s o
  | iteFalse {n c a b s o} (hc : ¬ c.Holds s) (hb : Run inv n b s o) : Run inv n (.ite c a b) s o
  | stepTrue {n c a b s o} (hi : inv s) (hc : c.Holds s) (ha : Run inv n a s o) :
      Run inv n (.step c a b) s o
  | stepFalse {n c a b s o} (hi : inv s) (hc : ¬ c.Holds s) (hb : Run inv n b s o) :
      Run inv n (.step c a b) s o
  | stepFailed {n c a b s} (hi : ¬ inv s) : Run inv n (.step c a b) s .failed
  | loopDone {n c body s} (hc : ¬ c.Holds s) : Run inv n (.loop c body) s (.done s)
  | loopNext {m n c body s s' o} (hn : m + 1 ≤ n) (hc : c.Holds s)
      (hbody : Run inv ⊤ body s (.done s')) (hrest : Run inv m (.loop c body) s' o) :
      Run inv n (.loop c body) s o
  | loopFailed {n c body s} (hn : 1 ≤ n) (hc : c.Holds s) (hbody : Run inv ⊤ body s .failed) :
      Run inv n (.loop c body) s .failed
  | assert {n c s} (hc : c.Holds s) : Run inv n (.assert c) s (.done s)
  | assertFailed {n c s} (hc : ¬ c.Holds s) : Run inv n (.assert c) s .failed
  | exit {n c s} (hc : ¬ c.Holds s) : Run inv n (.exit c) s (.done s)
  | exitFailed {n c s} (hc : c.Holds s) : Run inv n (.exit c) s .failed

namespace Run

variable {inv inv' : State → Prop} {m n : ℕ∞} {c : Stmt} {s s' : State} {o o' : Outcome}

theorem mono (hmn : m ≤ n) (h : Run inv m c s o) : Run inv n c s o := by
  induction h generalizing n with
  | skip => exact .skip
  | assign => exact .assign
  | seq _ _ iha ihb => exact .seq (iha hmn) (ihb hmn)
  | seqFailed _ iha => exact .seqFailed (iha hmn)
  | iteTrue hc _ ih => exact .iteTrue hc (ih hmn)
  | iteFalse hc _ ih => exact .iteFalse hc (ih hmn)
  | stepTrue hi hc _ ih => exact .stepTrue hi hc (ih hmn)
  | stepFalse hi hc _ ih => exact .stepFalse hi hc (ih hmn)
  | stepFailed hi => exact .stepFailed hi
  | loopDone hc => exact .loopDone hc
  | loopNext hn hc hbody hrest _ _ => exact .loopNext (hn.trans hmn) hc hbody hrest
  | loopFailed hn hc hbody _ => exact .loopFailed (hn.trans hmn) hc hbody
  | assert hc => exact .assert hc
  | assertFailed hc => exact .assertFailed hc
  | exit hc => exact .exit hc
  | exitFailed hc => exact .exitFailed hc

/-- A run that ends in a state stays one when less is asked of conditional steps. -/
theorem weaken (hinv : ∀ s, inv s → inv' s) (h : Run inv n c s (.done s')) :
    Run inv' n c s (.done s') := by
  generalize ho : Outcome.done s' = o at h
  induction h generalizing s' with
  | skip => cases ho; exact .skip
  | assign => cases ho; exact .assign
  | seq _ _ iha ihb => exact .seq (iha rfl) (ho ▸ ihb ho)
  | seqFailed | stepFailed | loopFailed | assertFailed | exitFailed => cases ho
  | iteTrue hc _ ih => exact .iteTrue hc (ho ▸ ih ho)
  | iteFalse hc _ ih => exact .iteFalse hc (ho ▸ ih ho)
  | stepTrue hi hc _ ih => exact .stepTrue (hinv _ hi) hc (ho ▸ ih ho)
  | stepFalse hi hc _ ih => exact .stepFalse (hinv _ hi) hc (ho ▸ ih ho)
  | loopDone hc => cases ho; exact .loopDone hc
  | loopNext hn hc _ _ ihb ihr => exact .loopNext hn hc (ihb rfl) (ho ▸ ihr ho)
  | assert hc => cases ho; exact .assert hc
  | exit hc => cases ho; exact .exit hc

/-- Two runs of a statement from a state end alike, however many rounds each is allowed. -/
theorem deterministic (h : Run inv m c s o) (h' : Run inv n c s o') : o = o' := by
  induction h generalizing n o' with
  | skip => cases h'; rfl
  | assign => cases h'; rfl
  | seq _ _ iha ihb =>
    cases h' with
    | seq ha' hb' => cases iha ha'; exact ihb hb'
    | seqFailed ha' => cases iha ha'
  | seqFailed _ iha =>
    cases h' with
    | seq ha' _ => cases iha ha'
    | seqFailed _ => rfl
  | iteTrue hc _ ih =>
    cases h' with
    | iteTrue _ ha' => exact ih ha'
    | iteFalse hc' _ => exact absurd hc hc'
  | iteFalse hc _ ih =>
    cases h' with
    | iteTrue hc' _ => exact absurd hc' hc
    | iteFalse _ hb' => exact ih hb'
  | stepTrue hi hc _ ih =>
    cases h' with
    | stepTrue _ _ ha' => exact ih ha'
    | stepFalse _ hc' _ => exact absurd hc hc'
    | stepFailed hi' => exact absurd hi hi'
  | stepFalse hi hc _ ih =>
    cases h' with
    | stepTrue _ hc' _ => exact absurd hc' hc
    | stepFalse _ _ hb' => exact ih hb'
    | stepFailed hi' => exact absurd hi hi'
  | stepFailed hi =>
    cases h' with
    | stepTrue hi' _ _ | stepFalse hi' _ _ => exact absurd hi' hi
    | stepFailed _ => rfl
  | loopDone hc =>
    cases h' with
    | loopDone _ => rfl
    | loopNext _ hc' _ _ | loopFailed _ hc' _ => exact absurd hc' hc
  | loopNext _ hc _ _ ihb ihr =>
    cases h' with
    | loopDone hc' => exact absurd hc hc'
    | loopNext _ _ hb' hr' => cases ihb hb'; exact ihr hr'
    | loopFailed _ _ hb' => cases ihb hb'
  | loopFailed _ hc _ ihb =>
    cases h' with
    | loopDone hc' => exact absurd hc hc'
    | loopNext _ _ hb' _ => cases ihb hb'
    | loopFailed _ _ _ => rfl
  | assert hc =>
    cases h' with
    | assert _ => rfl
    | assertFailed hc' => exact absurd hc hc'
  | assertFailed hc =>
    cases h' with
    | assert hc' => exact absurd hc' hc
    | assertFailed _ => rfl
  | exit hc =>
    cases h' with
    | exit _ => rfl
    | exitFailed hc' => exact absurd hc' hc
  | exitFailed hc =>
    cases h' with
    | exit hc' => exact absurd hc hc'
    | exitFailed _ => rfl

/-- A run changes only variables that its statement assigns. -/
theorem frame (h : Run inv n c s (.done s')) {x : String} (hx : x ∉ c.assigned) :
    s' x = s x := by
  generalize ho : Outcome.done s' = o at h
  induction h generalizing s' with
  | skip | loopDone | assert | exit => cases ho; rfl
  | assign =>
    cases ho
    exact Function.update_of_ne (by simpa [Stmt.assigned] using hx) _ _
  | seq _ _ iha ihb =>
    simp only [Stmt.assigned, List.mem_append, not_or] at hx
    exact (ihb hx.2 ho).trans (iha hx.1 rfl)
  | seqFailed | stepFailed | loopFailed | assertFailed | exitFailed => cases ho
  | iteTrue _ _ ih | stepTrue _ _ _ ih =>
    simp only [Stmt.assigned, List.mem_append, not_or] at hx
    exact ih hx.1 ho
  | iteFalse _ _ ih | stepFalse _ _ _ ih =>
    simp only [Stmt.assigned, List.mem_append, not_or] at hx
    exact ih hx.2 ho
  | loopNext _ _ _ _ ihb ihr => exact (ihr hx ho).trans (ihb hx rfl)

/-- A run looks only at the variables of its statement. -/
theorem transfer (h : Run inv n c s (.done s')) {names : List String}
    (hvars : ∀ x ∈ c.vars, x ∈ names)
    (hinv : ∀ {s t : State}, (∀ x ∈ names, s x = t x) → inv s → inv t) {t : State}
    (hs : ∀ x ∈ names, s x = t x) :
    ∃ t', Run inv n c t (.done t') ∧ ∀ x ∈ names, s' x = t' x := by
  have htest : ∀ {c : Expr} {s t : State}, (∀ x ∈ c.vars, x ∈ names) →
      (∀ x ∈ names, s x = t x) → (c.Holds s ↔ c.Holds t) :=
    fun hc hs => Expr.holds_congr fun x hx => hs x (hc x hx)
  generalize ho : Outcome.done s' = o at h
  induction h generalizing s' t with
  | skip => cases ho; exact ⟨t, .skip, hs⟩
  | @assign _ y e s =>
    cases ho
    simp only [Stmt.vars, List.forall_mem_cons] at hvars
    have hvalue : e.value s = e.value t := Expr.value_congr fun x hx => hs x (hvars.2 x hx)
    refine ⟨_, .assign, fun x hx => ?_⟩
    rw [hvalue]
    by_cases hxy : x = y
    · rw [hxy, Function.update_self, Function.update_self]
    · rw [Function.update_of_ne hxy, Function.update_of_ne hxy, hs x hx]
  | seq _ _ iha ihb =>
    simp only [Stmt.vars, List.forall_mem_append] at hvars
    obtain ⟨t₁, ha, h₁⟩ := iha hvars.1 hs rfl
    obtain ⟨t₂, hb, h₂⟩ := ihb hvars.2 h₁ ho
    exact ⟨t₂, .seq ha hb, h₂⟩
  | seqFailed | stepFailed | loopFailed | assertFailed | exitFailed => cases ho
  | iteTrue hc _ ih =>
    simp only [Stmt.vars, List.forall_mem_append] at hvars
    obtain ⟨t', hr, h'⟩ := ih hvars.2.1 hs ho
    exact ⟨t', .iteTrue ((htest hvars.1 hs).mp hc) hr, h'⟩
  | iteFalse hc _ ih =>
    simp only [Stmt.vars, List.forall_mem_append] at hvars
    obtain ⟨t', hr, h'⟩ := ih hvars.2.2 hs ho
    exact ⟨t', .iteFalse (mt (htest hvars.1 hs).mpr hc) hr, h'⟩
  | stepTrue hi hc _ ih =>
    simp only [Stmt.vars, List.forall_mem_append] at hvars
    obtain ⟨t', hr, h'⟩ := ih hvars.2.1 hs ho
    exact ⟨t', .stepTrue (hinv hs hi) ((htest hvars.1 hs).mp hc) hr, h'⟩
  | stepFalse hi hc _ ih =>
    simp only [Stmt.vars, List.forall_mem_append] at hvars
    obtain ⟨t', hr, h'⟩ := ih hvars.2.2 hs ho
    exact ⟨t', .stepFalse (hinv hs hi) (mt (htest hvars.1 hs).mpr hc) hr, h'⟩
  | loopDone hc =>
    cases ho
    simp only [Stmt.vars, List.forall_mem_append] at hvars
    exact ⟨t, .loopDone (mt (htest hvars.1 hs).mpr hc), hs⟩
  | loopNext hn hc _ _ ihb ihr =>
    have hparts := hvars
    simp only [Stmt.vars, List.forall_mem_append] at hparts
    obtain ⟨t₁, hb, h₁⟩ := ihb hparts.2 hs rfl
    obtain ⟨t₂, hr, h₂⟩ := ihr hvars h₁ ho
    exact ⟨t₂, .loopNext hn ((htest hparts.1 hs).mp hc) hb hr, h₂⟩
  | assert hc =>
    cases ho
    exact ⟨t, .assert ((htest hvars hs).mp hc), hs⟩
  | exit hc =>
    cases ho
    exact ⟨t, .exit (mt (htest hvars hs).mpr hc), hs⟩

end Run

end WhileSketch.While
