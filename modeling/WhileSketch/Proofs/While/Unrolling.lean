import Mathlib
import WhileSketch.While.Programs
import WhileSketch.Proofs.While.Programs
import WhileSketch.Proofs.While.Tokens

/-! Unrolled programs run as the given ones do within a bounded number of rounds. -/

namespace WhileSketch.While

namespace Stmt

/-- Conditional steps of a loop, one more than the given number. -/
@[simp] def steps (c : Expr) (body : Stmt) : Nat → Stmt
  | 0 => step c body skip
  | n + 1 => seq (steps c body n) (step c body skip)

@[simp] def unrolled (limit : Int) : Stmt → Stmt
  | loop c body => seq (steps c body (limit - 1).toNat) (exit c)
  | seq a b => seq (a.unrolled limit) (b.unrolled limit)
  | ite c a b => ite c (a.unrolled limit) (b.unrolled limit)
  | step c a b => step c (a.unrolled limit) (b.unrolled limit)
  | c => c

variable {limit : Int}

theorem isSorted_steps (c : Expr) (body : Stmt) (n : Nat) :
    (steps c body n).isSorted = (c.isTest && body.isSorted) := by
  induction n with
  | zero => simp [steps, isSorted]
  | succ n ih => simp [steps, isSorted, ih]

theorem isSorted_unrolled (c : Stmt) : (c.unrolled limit).isSorted = c.isSorted := by
  induction c with
  | seq a b iha ihb => rw [unrolled, isSorted, iha, ihb, isSorted]
  | ite c a b iha ihb | step c a b iha ihb => rw [unrolled, isSorted, iha, ihb, isSorted]
  | loop c body _ =>
    rw [unrolled, isSorted, isSorted_steps, isSorted, isSorted]
    cases c.isTest <;> simp
  | _ => rfl

theorem isLoopFree_steps (c : Expr) {body : Stmt} (hbody : body.isLoopFree = true) (n : Nat) :
    (steps c body n).isLoopFree = true := by
  induction n with
  | zero => simp [steps, isLoopFree, hbody]
  | succ n ih => simp [steps, isLoopFree, ih, hbody]

theorem isLoopFree_unrolled {c : Stmt} (hc : c.isFlat = true) :
    (c.unrolled limit).isLoopFree = true := by
  induction c with
  | seq a b iha ihb | ite c a b iha ihb | step c a b iha ihb =>
    simp only [isFlat, Bool.and_eq_true] at hc
    rw [unrolled, isLoopFree, iha hc.1, ihb hc.2]
    rfl
  | loop c body _ =>
    rw [unrolled, isLoopFree, isLoopFree_steps c hc]
    rfl
  | _ => rfl

theorem mem_vars_steps {c : Expr} {body : Stmt} {x : String} {n : Nat} :
    x ∈ (steps c body n).vars ↔ x ∈ c.vars ∨ x ∈ body.vars := by
  induction n with
  | zero => simp [steps, vars]
  | succ n ih => simp [steps, vars, ih]

theorem mem_vars_unrolled {c : Stmt} {x : String} : x ∈ (c.unrolled limit).vars ↔ x ∈ c.vars := by
  induction c with
  | seq a b iha ihb | ite c a b iha ihb | step c a b iha ihb => simp [unrolled, vars, iha, ihb]
  | loop c body _ =>
    simp only [unrolled, vars, List.mem_append, mem_vars_steps]
    tauto
  | _ => rfl

theorem mem_assigned_steps {c : Expr} {body : Stmt} {x : String} {n : Nat} :
    x ∈ (steps c body n).assigned ↔ x ∈ body.assigned := by
  induction n with
  | zero => simp [steps, assigned]
  | succ n ih => simp [steps, assigned, ih]

theorem mem_assigned_unrolled {c : Stmt} {x : String} :
    x ∈ (c.unrolled limit).assigned ↔ x ∈ c.assigned := by
  induction c with
  | seq a b iha ihb | ite c a b iha ihb | step c a b iha ihb => simp [unrolled, assigned, iha, ihb]
  | loop c body _ => simp [unrolled, assigned, mem_assigned_steps]
  | _ => rfl

end Stmt

section Trees

variable {limit : Int}

theorem unroll_word {w : String} (hw : w ≠ "while") (ts : List (Tree Label)) :
    unroll limit (Tree.word w ts) = do return Tree.word w (← unrollEach limit ts) := by
  have hloop : Label.isWord (.word w) "while" = false := by simpa [Label.isWord, Label.text?] using hw
  rw [Tree.word, unroll, hloop]
  rfl

/-- In an expression there is nothing to unroll, unless a variable is called like a loop. -/
theorem ExprTree.unroll_eq {e : Expr} {t : Tree Label} (h : ExprTree e t) (limit : Int)
    (hvars : ∀ x ∈ e.vars, x ≠ "while") : unroll limit t = .ok t := by
  induction h with
  | var x =>
    have hx : x ≠ "while" := hvars x (by simp [Expr.vars])
    rw [unroll_word (by decide), unrollEach, unroll_word hx]
    rfl
  | num n => rfl
  | hole => rfl
  | operate op _ _ iha ihb =>
    have ha := iha fun x hx => hvars x (by simp [Expr.vars, hx])
    have hb := ihb fun x hx => hvars x (by simp [Expr.vars, hx])
    rw [unroll_word (programSign_not_word op "while" (by simp)), unrollEach, ha, unrollEach, hb]
    rfl

theorem StmtTree.steps {c : Expr} {body : Stmt} {r t : Tree Label} (hc : ExprTree c r)
    (hb : StmtTree body t) (n : Nat) :
    StmtTree (.steps c body n) ((List.replicate n (unrolledStep r t)).foldl
      (fun t u => Tree.word ";" [t, u]) (unrolledStep r t)) := by
  have hstep : StmtTree (.step c body .skip) (unrolledStep r t) := .step hc hb .skip
  induction n with
  | zero => exact hstep
  | succ n ih =>
    rw [List.replicate_succ', List.foldl_append]
    exact .seq ih hstep

/-- The tree of a statement is unrolled as the statement is. -/
theorem StmtTree.unroll {c : Stmt} {t : Tree Label} (h : StmtTree c t)
    (hvars : ∀ x ∈ c.vars, x ≠ "while") :
    ∃ u, While.unroll limit t = .ok u ∧ StmtTree (c.unrolled limit) u := by
  induction h with
  | skip => exact ⟨_, rfl, .skip⟩
  | skipWritten => exact ⟨_, rfl, .skipWritten⟩
  | @assign e t x he =>
    have hx := (ExprTree.var x).unroll_eq limit fun y hy => hvars y (by
      simp_all [Expr.vars, Stmt.vars])
    have ht := he.unroll_eq limit fun y hy => hvars y (by simp [Stmt.vars, hy])
    refine ⟨_, ?_, .assign x he⟩
    rw [unroll_word (by decide), unrollEach, hx, unrollEach, ht]
    rfl
  | seq _ _ iha ihb =>
    obtain ⟨u, hu, hut⟩ := iha fun x hx => hvars x (by simp [Stmt.vars, hx])
    obtain ⟨v, hv, hvt⟩ := ihb fun x hx => hvars x (by simp [Stmt.vars, hx])
    refine ⟨_, ?_, .seq hut hvt⟩
    rw [unroll_word (by decide), unrollEach, hu, unrollEach, hv]
    rfl
  | ite hc _ _ iha ihb =>
    have hr := hc.unroll_eq limit fun x hx => hvars x (by simp [Stmt.vars, hx])
    obtain ⟨u, hu, hut⟩ := iha fun x hx => hvars x (by simp [Stmt.vars, hx])
    obtain ⟨v, hv, hvt⟩ := ihb fun x hx => hvars x (by simp [Stmt.vars, hx])
    refine ⟨_, ?_, .ite hc hut hvt⟩
    rw [unroll_word (by decide), unrollEach, hr, unrollEach, hu, unrollEach, hv]
    rfl
  | step hc _ _ iha ihb =>
    have hr := hc.unroll_eq limit fun x hx => hvars x (by simp [Stmt.vars, hx])
    obtain ⟨u, hu, hut⟩ := iha fun x hx => hvars x (by simp [Stmt.vars, hx])
    obtain ⟨v, hv, hvt⟩ := ihb fun x hx => hvars x (by simp [Stmt.vars, hx])
    refine ⟨_, ?_, .step hc hut hvt⟩
    rw [unroll_word (by decide), unrollEach, hr, unrollEach, hu, unrollEach, hv]
    rfl
  | loop hc hb _ => exact ⟨_, rfl, .seq (.steps hc hb _) (.exit hc)⟩
  | assert hc =>
    have hr := hc.unroll_eq limit hvars
    refine ⟨_, ?_, .assert hc⟩
    rw [unroll_word (by decide), unrollEach, hr]
    rfl
  | exit hc =>
    have hr := hc.unroll_eq limit hvars
    refine ⟨_, ?_, .exit hc⟩
    rw [unroll_word (by decide), unrollEach, hr]
    rfl

end Trees

section Runs

variable {V : Type*}

/-- What expressions stand for: the value of an expression in a state and the truth of a condition,
where they have one. -/
structure Reading (V : Type*) where
  value : Expr → (String → V) → Option V
  truth : Expr → (String → V) → Option Bool

def Reading.integers : Reading Int where
  value e s := some (e.value s)
  truth c s := some (decide (c.Holds s))

/-- A statement takes one state to another: no condition on the way is without truth, no claim is
false, and each loop that is not inside another makes at most the given number of rounds. -/
inductive Ends (r : Reading V) : ℕ∞ → Stmt → (String → V) → (String → V) → Prop
  | skip {n s} : Ends r n .skip s s
  | assign {n x e s v} (hv : r.value e s = some v) :
      Ends r n (.assign x e) s (Function.update s x v)
  | seq {n a b s s' s''} (ha : Ends r n a s s') (hb : Ends r n b s' s'') :
      Ends r n (.seq a b) s s''
  | iteTrue {n c a b s s'} (hc : r.truth c s = some true) (ha : Ends r n a s s') :
      Ends r n (.ite c a b) s s'
  | iteFalse {n c a b s s'} (hc : r.truth c s = some false) (hb : Ends r n b s s') :
      Ends r n (.ite c a b) s s'
  | stepTrue {n c a b s s'} (hc : r.truth c s = some true) (ha : Ends r n a s s') :
      Ends r n (.step c a b) s s'
  | stepFalse {n c a b s s'} (hc : r.truth c s = some false) (hb : Ends r n b s s') :
      Ends r n (.step c a b) s s'
  | loopDone {n c body s} (hc : r.truth c s = some false) : Ends r n (.loop c body) s s
  | loopNext {m n c body s s' s''} (hn : m + 1 ≤ n) (hc : r.truth c s = some true)
      (hbody : Ends r ⊤ body s s') (hrest : Ends r m (.loop c body) s' s'') :
      Ends r n (.loop c body) s s''
  | assert {n c s} (hc : r.truth c s = some true) : Ends r n (.assert c) s s
  | exit {n c s} (hc : r.truth c s = some false) : Ends r n (.exit c) s s

inductive Rounds (r : Reading V) (c : Expr) (body : Stmt) :
    Nat → (String → V) → (String → V) → Prop
  | none {s} : Rounds r c body 0 s s
  | next {n s s' s''} (hc : r.truth c s = some true) (hbody : Ends r ⊤ body s s')
      (hrest : Rounds r c body n s' s'') : Rounds r c body (n + 1) s s''

variable {r : Reading V} {c : Expr} {body : Stmt} {n : Nat} {s s' : String → V}

theorem rounds_succ : Rounds r c body (n + 1) s s' ↔
    ∃ t, Rounds r c body n s t ∧ r.truth c t = some true ∧ Ends r ⊤ body t s' := by
  constructor
  · intro h
    generalize hm : n + 1 = m at h
    induction h generalizing n with
    | none => cases hm
    | @next m s s₁ s₂ hc hbody hrest ih =>
      cases hm
      cases m with
      | zero =>
        cases hrest
        exact ⟨s, .none, hc, hbody⟩
      | succ m =>
        obtain ⟨t, ht, hct, hbt⟩ := ih rfl
        exact ⟨t, .next hc hbody ht, hct, hbt⟩
  · rintro ⟨t, ht, hct, hbt⟩
    induction ht with
    | none => exact .next hct hbt .none
    | next hc hbody _ ih => exact .next hc hbody (ih hct hbt)

/-- The steps of an unrolled loop make its rounds, and stop early where the condition is false. -/
theorem ends_steps_iff : Ends r ⊤ (.steps c body n) s s' ↔
    ∃ m ≤ n + 1, Rounds r c body m s s' ∧ (m = n + 1 ∨ r.truth c s' = some false) := by
  induction n generalizing s' with
  | zero =>
    rw [Stmt.steps]
    constructor
    · intro h
      cases h with
      | stepTrue hc hbody => exact ⟨1, le_rfl, .next hc hbody .none, .inl rfl⟩
      | stepFalse hc hskip =>
        cases hskip
        exact ⟨0, by omega, .none, .inr hc⟩
    · rintro ⟨m, hm, hrounds, hend⟩
      cases hrounds with
      | none => exact .stepFalse (hend.resolve_left (by omega)) .skip
      | next hc hbody hrest =>
        obtain ⟨rfl⟩ : _ = 0 := Nat.le_zero.mp (Nat.le_of_succ_le_succ hm)
        cases hrest
        exact .stepTrue hc hbody
  | succ n ih =>
    rw [Stmt.steps]
    constructor
    · intro h
      cases h with
      | @seq _ _ _ _ t _ hsteps hlast =>
        obtain ⟨m, hm, hrounds, hend⟩ := ih.mp hsteps
        cases hlast with
        | stepTrue hc hbody =>
          have hall : m = n + 1 := hend.resolve_right (by simp [hc])
          subst hall
          exact ⟨n + 2, le_rfl, rounds_succ.mpr ⟨t, hrounds, hc, hbody⟩, .inl rfl⟩
        | stepFalse hc hskip =>
          cases hskip
          exact ⟨m, by omega, hrounds, .inr hc⟩
    · rintro ⟨m, hm, hrounds, hend⟩
      by_cases hall : m = n + 2
      · subst hall
        obtain ⟨t, ht, hc, hbody⟩ := rounds_succ.mp hrounds
        exact .seq (ih.mpr ⟨n + 1, le_rfl, ht, .inl rfl⟩) (.stepTrue hc hbody)
      · have hc := hend.resolve_left hall
        exact .seq (ih.mpr ⟨m, by omega, hrounds, .inr hc⟩) (.stepFalse hc .skip)

theorem ends_loop_iff : Ends r n (.loop c body) s s' ↔
    ∃ m ≤ n, Rounds r c body m s s' ∧ r.truth c s' = some false := by
  constructor
  · intro h
    generalize hk : (n : ℕ∞) = k at h
    generalize hl : Stmt.loop c body = l at h
    induction h generalizing n with
    | loopDone hc =>
      cases hl
      exact ⟨0, Nat.zero_le n, .none, hc⟩
    | @loopNext j _ _ _ _ _ _ hn hc hbody _ _ ih =>
      cases hl
      subst hk
      obtain ⟨i, rfl⟩ : ∃ i : ℕ, j = i :=
        ENat.ne_top_iff_exists.mp (ne_top_of_le_ne_top (ENat.natCast_ne_top n)
          (le_self_add.trans hn)) |>.imp fun _ h => h.symm
      obtain ⟨m, hm, hrounds, hend⟩ := ih rfl rfl
      have hi : i + 1 ≤ n := by exact_mod_cast hn
      exact ⟨m + 1, by omega, .next hc hbody hrounds, hend⟩
    | _ => cases hl
  · rintro ⟨m, hm, hrounds, hend⟩
    induction hrounds generalizing n with
    | none => exact .loopDone hend
    | @next m _ _ _ hc hbody _ ih =>
      have hn : (m : ℕ∞) + 1 ≤ n := by exact_mod_cast hm
      exact .loopNext hn hc hbody (ih le_rfl hend)

/-- An unrolled program ends in a state just when the program does so without more rounds of any
outermost loop than there are steps. -/
theorem ends_unrolled_iff {a : Stmt} {limit : Int} {s s' : String → V} :
    Ends r ⊤ (a.unrolled limit) s s' ↔ Ends r (max limit 1).toNat a s s' := by
  induction a generalizing s s' with
  | seq a b iha ihb =>
    rw [Stmt.unrolled]
    constructor
    · intro h
      cases h with
      | seq ha hb => exact .seq (iha.mp ha) (ihb.mp hb)
    · intro h
      cases h with
      | seq ha hb => exact .seq (iha.mpr ha) (ihb.mpr hb)
  | ite c a b iha ihb =>
    rw [Stmt.unrolled]
    constructor
    · intro h
      cases h with
      | iteTrue hc ha => exact .iteTrue hc (iha.mp ha)
      | iteFalse hc hb => exact .iteFalse hc (ihb.mp hb)
    · intro h
      cases h with
      | iteTrue hc ha => exact .iteTrue hc (iha.mpr ha)
      | iteFalse hc hb => exact .iteFalse hc (ihb.mpr hb)
  | step c a b iha ihb =>
    rw [Stmt.unrolled]
    constructor
    · intro h
      cases h with
      | stepTrue hc ha => exact .stepTrue hc (iha.mp ha)
      | stepFalse hc hb => exact .stepFalse hc (ihb.mp hb)
    · intro h
      cases h with
      | stepTrue hc ha => exact .stepTrue hc (iha.mpr ha)
      | stepFalse hc hb => exact .stepFalse hc (ihb.mpr hb)
  | loop c body _ =>
    have hlimit : (max limit 1).toNat = (limit - 1).toNat + 1 := by omega
    rw [Stmt.unrolled, hlimit, ends_loop_iff]
    constructor
    · intro h
      cases h with
      | seq hsteps hexit =>
        cases hexit with
        | exit hc =>
          obtain ⟨m, hm, hrounds, -⟩ := ends_steps_iff.mp hsteps
          exact ⟨m, hm, hrounds, hc⟩
    · rintro ⟨m, hm, hrounds, hc⟩
      exact .seq (ends_steps_iff.mpr ⟨m, hm, hrounds, .inr hc⟩) (.exit hc)
  | skip =>
    constructor <;> intro h <;> cases h <;> exact .skip
  | assign x e =>
    constructor <;> intro h <;> cases h <;> exact .assign ‹_›
  | assert c =>
    constructor <;> intro h <;> cases h <;> exact .assert ‹_›
  | exit c =>
    constructor <;> intro h <;> cases h <;> exact .exit ‹_›
  | invalid fault =>
    constructor <;> intro h <;> cases h

/-- Among numbers, to end is to have a run without a false claim. -/
theorem ends_integers_iff {n : ℕ∞} {a : Stmt} {s s' : State} :
    Ends .integers n a s s' ↔ Run (fun _ => True) n a s (.done s') := by
  constructor
  · intro h
    induction h with
    | skip => exact .skip
    | assign hv =>
      cases hv
      exact .assign
    | seq _ _ iha ihb => exact .seq iha ihb
    | iteTrue hc _ ih => exact .iteTrue (by simpa [Reading.integers] using hc) ih
    | iteFalse hc _ ih => exact .iteFalse (by simpa [Reading.integers] using hc) ih
    | stepTrue hc _ ih => exact .stepTrue trivial (by simpa [Reading.integers] using hc) ih
    | stepFalse hc _ ih => exact .stepFalse trivial (by simpa [Reading.integers] using hc) ih
    | loopDone hc => exact .loopDone (by simpa [Reading.integers] using hc)
    | loopNext hn hc _ _ ihb ihr =>
      exact .loopNext hn (by simpa [Reading.integers] using hc) ihb ihr
    | assert hc => exact .assert (by simpa [Reading.integers] using hc)
    | exit hc => exact .exit (by simpa [Reading.integers] using hc)
  · intro h
    generalize ho : Outcome.done s' = o at h
    induction h generalizing s' with
    | skip =>
      cases ho
      exact .skip
    | assign =>
      cases ho
      exact .assign rfl
    | seq _ _ iha ihb => exact .seq (iha rfl) (ihb ho)
    | iteTrue hc _ ih => exact .iteTrue (by simpa [Reading.integers] using hc) (ih ho)
    | iteFalse hc _ ih => exact .iteFalse (by simpa [Reading.integers] using hc) (ih ho)
    | stepTrue _ hc _ ih => exact .stepTrue (by simpa [Reading.integers] using hc) (ih ho)
    | stepFalse _ hc _ ih => exact .stepFalse (by simpa [Reading.integers] using hc) (ih ho)
    | loopDone hc =>
      cases ho
      exact .loopDone (by simpa [Reading.integers] using hc)
    | loopNext hn hc _ _ ihb ihr =>
      exact .loopNext hn (by simpa [Reading.integers] using hc) (ihb rfl) (ihr ho)
    | assert hc =>
      cases ho
      exact .assert (by simpa [Reading.integers] using hc)
    | exit hc =>
      cases ho
      exact .exit (by simpa [Reading.integers] using hc)
    | seqFailed | stepFailed | loopFailed | assertFailed | exitFailed => cases ho

theorem run_unrolled_iff {a : Stmt} {limit : Int} {s s' : State} :
    Run (fun _ => True) ⊤ (a.unrolled limit) s (.done s') ↔
      Run (fun _ => True) (max limit 1).toNat a s (.done s') := by
  rw [← ends_integers_iff, ends_unrolled_iff, ends_integers_iff]

/-- The unrolled tree of a program ends in a state just when the program does so without more than
the given number of rounds, and always room for one, of any loop that is not inside another. -/
theorem unroll_ends_iff {a : Stmt} {t : Tree Label} (ht : StmtTree a t)
    (hnames : ∀ x ∈ a.vars, isName x = true) (limit : Int) :
    ∃ u, unroll limit t = .ok u ∧ ∀ (r : Reading V) (s s' : String → V),
      Ends r ⊤ (Stmt.ofTree u) s s' ↔ Ends r (max limit 1).toNat (Stmt.ofTree t) s s' := by
  have hvars : ∀ x ∈ a.vars, x ≠ "while" := by
    rintro x hx rfl
    exact absurd (hnames _ hx) (by decide)
  obtain ⟨u, hu, hut⟩ : ∃ u, unroll limit t = .ok u ∧ StmtTree (a.unrolled limit) u :=
    ht.unroll hvars
  refine ⟨u, hu, fun r s s' => ?_⟩
  rw [hut.ofTree_eq, ht.ofTree_eq]
  exact ends_unrolled_iff

/-- `while x > 0 do x := x - 1`. -/
def countdown : Stmt :=
  .loop (.operate .gt (.var "x") (.num 0)) (.assign "x" (.operate .sub (.var "x") (.num 1)))

def countdownTree : Tree Label :=
  Tree.word "while" [
    Tree.word ">" [Tree.word "id" [Tree.word "x" []], Tree.word "num" [Tree.leaf (.num 0)]],
    Tree.word ":=" [Tree.word "id" [Tree.word "x" []],
      Tree.word "-" [Tree.word "id" [Tree.word "x" []], Tree.word "num" [Tree.leaf (.num 1)]]]]

theorem stmtTree_countdown : StmtTree countdown countdownTree :=
  .loop (.operate .gt (.var "x") (.num 0)) (.assign "x" (.operate .sub (.var "x") (.num 1)))

/-- Unrolled with room for no round, the loop still makes one: it ends from one and not from two. -/
theorem unroll_ends_iff_countdown : ∃ u, unroll 0 countdownTree = .ok u ∧
    Ends .integers ⊤ (Stmt.ofTree u) (fun _ => 1) (Function.update (fun _ => 1) "x" 0) ∧
    ¬ ∃ s', Ends .integers ⊤ (Stmt.ofTree u) (fun _ => 2) s' := by
  obtain ⟨u, hu, hends⟩ := unroll_ends_iff stmtTree_countdown (V := Int)
    (by decide : ∀ x ∈ countdown.vars, isName x = true) 0
  refine ⟨u, hu, ?_, ?_⟩
  · rw [hends, stmtTree_countdown.ofTree_eq]
    exact .loopNext (m := 0) le_rfl (by decide) (.assign rfl) (.loopDone (by decide))
  · rintro ⟨s', h⟩
    rw [hends, stmtTree_countdown.ofTree_eq, countdown, ends_loop_iff] at h
    obtain ⟨m, hm, hrounds, hend⟩ := h
    cases hrounds with
    | none => exact absurd hend (by decide)
    | next _ hbody hrest =>
      obtain ⟨rfl⟩ : _ = 0 := Nat.le_zero.mp (Nat.le_of_succ_le_succ hm)
      cases hbody with
      | assign hv =>
        cases hv
        cases hrest
        exact absurd hend (by decide)

end Runs

end WhileSketch.While
