import Mathlib
import WhileSketch.While.WeakestPrecondition
import WhileSketch.Proofs.While.Execution

/-! Weakest preconditions as statements about states: what the built formulas say, and how it
relates to runs. -/

namespace WhileSketch.While

variable {names : List String} {env : Env}

namespace Expr

theorem eval_denotes (henv : env.Numeric names) {e : Expr} (hs : e.isNumber = true)
    (hvars : ∀ x ∈ e.vars, x ∈ names) :
    ∃ v, e.eval env = .ok v ∧ v.Denotes names fun s => e.value (env.state s) := by
  induction e with
  | var x => exact Env.get_denotes henv (hvars x (by simp [vars]))
  | num n => exact ⟨.int n, rfl, Value.denotes_int n⟩
  | operate op a b iha ihb =>
    simp only [isNumber, Bool.and_eq_true] at hs
    obtain ⟨v, hv, hvd⟩ := iha hs.1.2 fun x hx => hvars x (by simp [vars, hx])
    obtain ⟨w, hw, hwd⟩ := ihb hs.2 fun x hx => hvars x (by simp [vars, hx])
    obtain ⟨u, hu, hud⟩ := Value.operate_denotes hs.1.1 hvd hwd
    refine ⟨u, ?_, hud⟩
    rw [eval, hv, hw]
    exact hu
  | invalid fault => simp [isNumber] at hs

theorem eval_asserts (henv : env.Numeric names) {c : Expr} (hs : c.isTest = true)
    (hvars : ∀ x ∈ c.vars, x ∈ names) :
    ∃ v, c.eval env = .ok v ∧ v.Asserts names fun s => c.Holds (env.state s) := by
  cases c with
  | var _ | num _ | invalid _ => simp [isTest] at hs
  | operate op a b =>
    simp only [isTest, Bool.and_eq_true] at hs
    obtain ⟨v, hv, hvd⟩ := eval_denotes henv hs.1.2 fun x hx => hvars x (by simp [vars, hx])
    obtain ⟨w, hw, hwd⟩ := eval_denotes henv hs.2 fun x hx => hvars x (by simp [vars, hx])
    obtain ⟨u, hu, hua⟩ := Value.operate_asserts hs.1.1 hvd hwd
    refine ⟨u, ?_, hua⟩
    rw [eval, hv, hw]
    exact hu

end Expr

/-- What must be true of a state so that a statement started in it meets its claims and leads to
`post`, where `inv` has to be an invariant of each loop, whatever values the given variables have
when it is reached. -/
def Stmt.Weakest (names : List String) (inv : State → Prop) :
    Stmt → (State → Prop) → State → Prop
  | .skip, post, s => post s
  | .assign x e, post, s => post (Function.update s x (e.value s))
  | .seq a b, post, s => Weakest names inv a (Weakest names inv b post) s
  | .ite c a b, post, s =>
    c.Holds s ∧ Weakest names inv a post s ∨ ¬ c.Holds s ∧ Weakest names inv b post s
  | .step c a b, post, s =>
    inv s ∧ (c.Holds s ∧ Weakest names inv a post s ∨ ¬ c.Holds s ∧ Weakest names inv b post s)
  | .loop c body, post, s =>
    inv s ∧ ∀ s', s.AgreeOutside names s' →
      (inv s' ∧ c.Holds s' → Weakest names inv body inv s') ∧ (inv s' ∧ ¬ c.Holds s' → post s')
  | .assert c, post, s => c.Holds s ∧ post s
  | .exit c, post, s => ¬ c.Holds s ∧ post s
  | .invalid _, _, _ => False

/-- The assertion of a loop with the given condition under an invariant, where `body` has to be true
before each round: the invariant is true at first, and for all values of the variables it leads to
`body` as long as the condition is true, and to `post` as soon as it is false. -/
def loopRule (names : List String) (invariant : Assertion) (c : Expr) (body post : Assertion) :
    Assertion := fun env => do
  let kept ← invariant env
  let all := Env.symbolic names
  let entered ← Value.conj [← invariant all, ← c.eval all]
  let preserved ← entered.implies (← body all)
  let left ← Value.conj [← invariant all, ← (← c.eval all).negate]
  let sufficient ← left.implies (← post all)
  Value.conj [kept, ← Value.forAll names (← Value.conj [preserved, sufficient])]

theorem wp_loop (names : List String) (invariant : Assertion) (c : Expr) (body : Stmt)
    (post : Assertion) :
    wp names invariant (.loop c body) post = .ok (loopRule names invariant c
      (fun env => do (← wp names invariant body invariant) env) post) := by
  rw [wp]
  refine congrArg Except.ok (funext fun env => ?_)
  simp only [loopRule, bind_assoc]

section Expression

variable {c : Expr} {yes no post invariant : Assertion} {p q inv : State → Prop}

theorem branch_expresses (hc : c.isTest = true) (hvars : ∀ x ∈ c.vars, x ∈ names)
    (hyes : yes.Expresses names p) (hno : no.Expresses names q) :
    (branch c yes no).Expresses names fun s => c.Holds s ∧ p s ∨ ¬ c.Holds s ∧ q s := by
  intro env henv
  obtain ⟨v, hv, hva⟩ := Expr.eval_asserts henv hc hvars
  obtain ⟨vy, hy, hya⟩ := hyes env henv
  obtain ⟨vn, hn, hna⟩ := hno env henv
  obtain ⟨l, hl, hla⟩ := Value.conj_pair hva hya
  obtain ⟨nv, hnv, hnva⟩ := Value.negate_asserts hva
  obtain ⟨r, hr, hra⟩ := Value.conj_pair hnva hna
  obtain ⟨u, hu, hua⟩ := Value.disj_pair hla hra
  refine ⟨u, ?_, hua⟩
  rw [branch, hv, hy, hn]
  change ((Value.conj [v, vy]).bind fun left => v.negate.bind fun w =>
    (Value.conj [w, vn]).bind fun right => Value.disj [left, right]) = _
  rw [hl, hnv]
  change ((Value.conj [nv, vn]).bind fun right => Value.disj [l, right]) = _
  rw [hr]
  exact hu

theorem conj_expresses {first second : Assertion} (hf : first.Expresses names p)
    (hs : second.Expresses names q) :
    Assertion.Expresses names (fun env => do
      let v ← first env
      Value.conj [v, ← second env]) fun s => p s ∧ q s := by
  intro env henv
  obtain ⟨v, hv, hva⟩ := hf env henv
  obtain ⟨w, hw, hwa⟩ := hs env henv
  obtain ⟨u, hu, hua⟩ := Value.conj_pair hva hwa
  refine ⟨u, ?_, hua⟩
  beta_reduce
  rw [hv, hw]
  exact hu

theorem test_expresses (hc : c.isTest = true) (hvars : ∀ x ∈ c.vars, x ∈ names) :
    Assertion.Expresses names (fun env => c.eval env) fun s => c.Holds s :=
  fun _ henv => Expr.eval_asserts henv hc hvars

theorem exit_expresses (hc : c.isTest = true) (hvars : ∀ x ∈ c.vars, x ∈ names)
    (hpost : post.Expresses names p) :
    Assertion.Expresses names (fun env => do
      Value.conj [← (← c.eval env).negate, ← post env]) fun s => ¬ c.Holds s ∧ p s := by
  intro env henv
  obtain ⟨v, hv, hva⟩ := Expr.eval_asserts henv hc hvars
  obtain ⟨w, hw, hwa⟩ := Value.negate_asserts hva
  obtain ⟨x, hx, hxa⟩ := hpost env henv
  obtain ⟨u, hu, hua⟩ := Value.conj_pair hwa hxa
  refine ⟨u, ?_, hua⟩
  simp only [hv, hw, hx, bind, Except.bind, hu]

/-- The two obligations of a loop, over all values of the variables. -/
theorem loop_expresses {body : Assertion} {b : State → Prop} (hnames : names ≠ [])
    (hc : c.isTest = true) (hvars : ∀ x ∈ c.vars, x ∈ names)
    (hinv : invariant.Expresses names inv) (hbody : body.Expresses names b)
    (hpost : post.Expresses names p) :
    (loopRule names invariant c body post).Expresses names
      fun s => inv s ∧ ∀ s', s.AgreeOutside names s' →
        (inv s' ∧ c.Holds s' → b s') ∧ (inv s' ∧ ¬ c.Holds s' → p s') := by
  intro env henv
  have hall := Env.symbolic_numeric names
  obtain ⟨kept, hkept, hkepta⟩ := hinv env henv
  obtain ⟨i, hi, hia⟩ := hinv _ hall
  obtain ⟨t, ht, hta⟩ := Expr.eval_asserts hall hc hvars
  obtain ⟨v, hv, hva⟩ := hbody _ hall
  obtain ⟨w, hw, hwa⟩ := hpost _ hall
  obtain ⟨entered, hentered, hentereda⟩ := Value.conj_pair hia hta
  obtain ⟨preserved, hpreserved, hpreserveda⟩ := Value.implies_asserts hentereda hva
  obtain ⟨nt, hnt, hnta⟩ := Value.negate_asserts hta
  obtain ⟨left, hleft, hlefta⟩ := Value.conj_pair hia hnta
  obtain ⟨sufficient, hsufficient, hsufficienta⟩ := Value.implies_asserts hlefta hwa
  obtain ⟨both, hboth, hbotha⟩ := Value.conj_pair hpreserveda hsufficienta
  obtain ⟨closed, hclosed, hcloseda⟩ := Value.forAll_asserts hnames hbotha
  obtain ⟨u, hu, hua⟩ := Value.conj_pair hkepta hcloseda
  refine ⟨u, ?_, hua.congr fun s => and_congr_right fun _ => ?_⟩
  · simp only [loopRule, hkept, hi, ht, hv, hw, bind, Except.bind, hentered, hpreserved, hnt, hleft,
      hsufficient, hboth, hclosed, hu]
  · have hagree : ∀ s', s.AgreeOutside names s' ↔ (env.state s).AgreeOutside names s' := by
      refine fun s' => forall₂_congr fun x hx => ?_
      rw [Env.state_of_not_mem henv s hx]
    simp only [hagree, Env.state_symbolic]

end Expression

/-- The formula that is built for a sorted statement says of a state that it satisfies the weakest
precondition. -/
theorem wp_expresses {c : Stmt} (hs : c.isSorted = true) (hvars : ∀ x ∈ c.vars, x ∈ names)
    (hloop : c.isLoopFree = true ∨ names ≠ []) {invariant post : Assertion}
    {inv p : State → Prop} (hinv : invariant.Expresses names inv)
    (hpost : post.Expresses names p) :
    ∃ a, wp names invariant c post = .ok a ∧ a.Expresses names (c.Weakest names inv p) := by
  induction c generalizing post p with
  | skip => exact ⟨post, rfl, hpost⟩
  | assign x e =>
    refine ⟨_, rfl, fun env henv => ?_⟩
    obtain ⟨v, hv, hvd⟩ := Expr.eval_denotes henv hs fun y hy => hvars y (by simp [Stmt.vars, hy])
    have hx : x ∈ names := hvars x (by simp [Stmt.vars])
    obtain ⟨u, hu, hua⟩ := hpost _ (Env.numeric_set henv hx hvd.isNumber)
    refine ⟨u, ?_, hua.congr fun s => ?_⟩
    · rw [hv]
      exact hu
    · rw [Env.state_set, hvd.number_eq, Stmt.Weakest]
  | seq a b iha ihb =>
    simp only [Stmt.isSorted, Bool.and_eq_true] at hs
    simp only [Stmt.vars, List.mem_append] at hvars
    simp only [Stmt.isLoopFree, Bool.and_eq_true] at hloop
    obtain ⟨ab, hab, habe⟩ := ihb hs.2 (fun x hx => hvars x (.inr hx)) (hloop.imp_left And.right)
      hpost
    obtain ⟨aa, haa, haae⟩ := iha hs.1 (fun x hx => hvars x (.inl hx)) (hloop.imp_left And.left)
      habe
    refine ⟨aa, ?_, haae⟩
    rw [wp, hab]
    exact haa
  | ite c a b iha ihb =>
    simp only [Stmt.isSorted, Bool.and_eq_true] at hs
    simp only [Stmt.vars, List.mem_append] at hvars
    simp only [Stmt.isLoopFree, Bool.and_eq_true] at hloop
    obtain ⟨aa, haa, haae⟩ := iha hs.1.2 (fun x hx => hvars x (.inr (.inl hx)))
      (hloop.imp_left And.left) hpost
    obtain ⟨ab, hab, habe⟩ := ihb hs.2 (fun x hx => hvars x (.inr (.inr hx)))
      (hloop.imp_left And.right) hpost
    refine ⟨_, rfl, ?_⟩
    rw [haa, hab]
    exact branch_expresses hs.1.1 (fun x hx => hvars x (.inl hx)) haae habe
  | step c a b iha ihb =>
    simp only [Stmt.isSorted, Bool.and_eq_true] at hs
    simp only [Stmt.vars, List.mem_append] at hvars
    simp only [Stmt.isLoopFree, Bool.and_eq_true] at hloop
    obtain ⟨aa, haa, haae⟩ := iha hs.1.2 (fun x hx => hvars x (.inr (.inl hx)))
      (hloop.imp_left And.left) hpost
    obtain ⟨ab, hab, habe⟩ := ihb hs.2 (fun x hx => hvars x (.inr (.inr hx)))
      (hloop.imp_left And.right) hpost
    refine ⟨_, rfl, ?_⟩
    rw [haa, hab]
    exact conj_expresses hinv
      (branch_expresses hs.1.1 (fun x hx => hvars x (.inl hx)) haae habe)
  | loop c body ih =>
    simp only [Stmt.isSorted, Bool.and_eq_true] at hs
    simp only [Stmt.vars, List.mem_append] at hvars
    have hnames : names ≠ [] := hloop.resolve_left (by simp [Stmt.isLoopFree])
    obtain ⟨ab, hab, habe⟩ := ih hs.2 (fun x hx => hvars x (.inr hx)) (.inr hnames) hinv
    refine ⟨_, wp_loop names invariant c body post, ?_⟩
    rw [hab]
    exact loop_expresses hnames hs.1 (fun x hx => hvars x (.inl hx)) hinv habe hpost
  | assert c => exact ⟨_, rfl, conj_expresses (test_expresses hs hvars) hpost⟩
  | exit c => exact ⟨_, rfl, exit_expresses hs hvars hpost⟩
  | invalid fault => simp [Stmt.isSorted] at hs

namespace Stmt

variable {c : Stmt} {inv inv' post : State → Prop} {n : ℕ∞} {s : State} {o : Outcome}

/-- From a state that satisfies the weakest precondition each run that ends does so in a state that
satisfies the postcondition, and none ends at a false claim. -/
theorem Weakest.sound (hinv : ∀ s, inv s → inv' s) (hassigned : ∀ x ∈ c.assigned, x ∈ names)
    (hr : Run inv' n c s o) (h : c.Weakest names inv post s) : ∃ s', o = .done s' ∧ post s' := by
  induction hr generalizing post with
  | skip => exact ⟨_, rfl, h⟩
  | assign => exact ⟨_, rfl, h⟩
  | seq _ _ iha ihb =>
    simp only [assigned, List.mem_append] at hassigned
    obtain ⟨t, ht, hb⟩ := iha (fun x hx => hassigned x (.inl hx)) h
    cases ht
    exact ihb (fun x hx => hassigned x (.inr hx)) hb
  | seqFailed _ iha =>
    simp only [assigned, List.mem_append] at hassigned
    obtain ⟨t, ht, -⟩ := iha (fun x hx => hassigned x (.inl hx)) h
    cases ht
  | iteTrue hc _ ih =>
    simp only [assigned, List.mem_append] at hassigned
    obtain ⟨-, ha⟩ | ⟨hc', -⟩ := h
    · exact ih (fun x hx => hassigned x (.inl hx)) ha
    · exact absurd hc hc'
  | iteFalse hc _ ih =>
    simp only [assigned, List.mem_append] at hassigned
    obtain ⟨hc', -⟩ | ⟨-, hb⟩ := h
    · exact absurd hc' hc
    · exact ih (fun x hx => hassigned x (.inr hx)) hb
  | stepTrue _ hc _ ih =>
    simp only [assigned, List.mem_append] at hassigned
    obtain ⟨-, ⟨-, ha⟩ | ⟨hc', -⟩⟩ := h
    · exact ih (fun x hx => hassigned x (.inl hx)) ha
    · exact absurd hc hc'
  | stepFalse _ hc _ ih =>
    simp only [assigned, List.mem_append] at hassigned
    obtain ⟨-, ⟨hc', -⟩ | ⟨-, hb⟩⟩ := h
    · exact absurd hc' hc
    · exact ih (fun x hx => hassigned x (.inr hx)) hb
  | stepFailed hi => exact absurd (hinv _ h.1) hi
  | loopDone hc =>
    obtain ⟨hi, hall⟩ := h
    exact ⟨_, rfl, (hall _ fun _ _ => rfl).2 ⟨hi, hc⟩⟩
  | loopNext _ hc hbody _ ihb ihr =>
    obtain ⟨hi, hall⟩ := h
    obtain ⟨t, ht, hit⟩ := ihb hassigned ((hall _ fun _ _ => rfl).1 ⟨hi, hc⟩)
    cases ht
    refine ihr hassigned ⟨hit, fun u hu => hall u fun x hx => ?_⟩
    rw [hu x hx, hbody.frame fun hx' => hx (hassigned x hx')]
  | loopFailed _ hc _ ihb =>
    obtain ⟨hi, hall⟩ := h
    obtain ⟨t, ht, -⟩ := ihb hassigned ((hall _ fun _ _ => rfl).1 ⟨hi, hc⟩)
    cases ht
  | assert hc => exact ⟨_, rfl, h.2⟩
  | assertFailed hc => exact absurd h.1 hc
  | exit hc => exact ⟨_, rfl, h.2⟩
  | exitFailed hc => exact absurd hc h.1

/-- Without loops the weakest precondition says exactly that the run meets all claims and leads to
the postcondition. -/
theorem weakest_iff_run (hc : c.isLoopFree = true) :
    c.Weakest names inv post s ↔ ∃ s', Run inv n c s (.done s') ∧ post s' := by
  induction c generalizing post s with
  | skip =>
    refine ⟨fun h => ⟨s, .skip, h⟩, ?_⟩
    rintro ⟨_, hr, h⟩
    cases hr
    exact h
  | assign x e =>
    refine ⟨fun h => ⟨_, .assign, h⟩, ?_⟩
    rintro ⟨_, hr, h⟩
    cases hr
    exact h
  | seq a b iha ihb =>
    simp only [isLoopFree, Bool.and_eq_true] at hc
    rw [Weakest, iha hc.1]
    simp only [ihb hc.2]
    constructor
    · rintro ⟨t, ha, u, hb, h⟩
      exact ⟨u, .seq ha hb, h⟩
    · rintro ⟨u, hr, h⟩
      cases hr with
      | seq ha hb => exact ⟨_, ha, u, hb, h⟩
  | ite c a b iha ihb =>
    simp only [isLoopFree, Bool.and_eq_true] at hc
    rw [Weakest, iha hc.1, ihb hc.2]
    constructor
    · rintro (⟨ht, u, hr, h⟩ | ⟨ht, u, hr, h⟩)
      · exact ⟨u, .iteTrue ht hr, h⟩
      · exact ⟨u, .iteFalse ht hr, h⟩
    · rintro ⟨u, hr, h⟩
      cases hr with
      | iteTrue ht hr => exact .inl ⟨ht, u, hr, h⟩
      | iteFalse ht hr => exact .inr ⟨ht, u, hr, h⟩
  | step c a b iha ihb =>
    simp only [isLoopFree, Bool.and_eq_true] at hc
    rw [Weakest, iha hc.1, ihb hc.2]
    constructor
    · rintro ⟨hi, ⟨ht, u, hr, h⟩ | ⟨ht, u, hr, h⟩⟩
      · exact ⟨u, .stepTrue hi ht hr, h⟩
      · exact ⟨u, .stepFalse hi ht hr, h⟩
    · rintro ⟨u, hr, h⟩
      cases hr with
      | stepTrue hi ht hr => exact ⟨hi, .inl ⟨ht, u, hr, h⟩⟩
      | stepFalse hi ht hr => exact ⟨hi, .inr ⟨ht, u, hr, h⟩⟩
  | loop c body _ => simp [isLoopFree] at hc
  | assert c =>
    refine ⟨fun h => ⟨s, .assert h.1, h.2⟩, ?_⟩
    rintro ⟨_, hr, h⟩
    cases hr with
    | assert ht => exact ⟨ht, h⟩
  | exit c =>
    refine ⟨fun h => ⟨s, .exit h.1, h.2⟩, ?_⟩
    rintro ⟨_, hr, h⟩
    cases hr with
    | exit ht => exact ⟨ht, h⟩
  | invalid fault =>
    refine ⟨False.elim, ?_⟩
    rintro ⟨_, hr, -⟩
    cases hr

/-- A weakest precondition looks only at the variables of its statement, and it makes no difference
over which other variables loops quantify. -/
theorem Weakest.congr {vars names' : List String} {post' : State → Prop} {s' : State}
    (hvars : ∀ x ∈ c.vars, x ∈ vars) (hnames : ∀ x ∈ vars, x ∈ names) (hinv : LooksAt vars inv)
    (hpost : ∀ s s', (∀ x ∈ vars, s x = s' x) → post s → post' s') (h : c.Weakest names inv post s)
    (hs : ∀ x ∈ vars, s x = s' x) : c.Weakest names' inv post' s' := by
  have htest : ∀ {e : Expr} {s s' : State}, (∀ x ∈ e.vars, x ∈ vars) →
      (∀ x ∈ vars, s x = s' x) → (e.Holds s ↔ e.Holds s') := fun he hs =>
    Expr.holds_congr fun x hx => hs x (he x hx)
  induction c generalizing post post' s s' with
  | skip => exact hpost s s' hs h
  | assign y e =>
    obtain ⟨-, he⟩ := List.forall_mem_cons.mp hvars
    have hvalue : e.value s = e.value s' := Expr.value_congr fun x hx => hs x (he x hx)
    refine hpost _ _ (fun x hx => ?_) h
    rw [hvalue]
    by_cases hxy : x = y
    · rw [hxy, Function.update_self, Function.update_self]
    · rw [Function.update_of_ne hxy, Function.update_of_ne hxy, hs x hx]
  | seq a b iha ihb =>
    obtain ⟨ha, hb⟩ := List.forall_mem_append.mp hvars
    exact iha ha (fun s s' hs h => ihb hb hpost h hs) h hs
  | ite e a b iha ihb =>
    obtain ⟨he, hab⟩ := List.forall_mem_append.mp hvars
    obtain ⟨ha, hb⟩ := List.forall_mem_append.mp hab
    rw [Weakest, htest he hs] at h
    exact h.imp (And.imp_right fun h => iha ha hpost h hs) (And.imp_right fun h => ihb hb hpost h hs)
  | step e a b iha ihb =>
    obtain ⟨he, hab⟩ := List.forall_mem_append.mp hvars
    obtain ⟨ha, hb⟩ := List.forall_mem_append.mp hab
    rw [Weakest, htest he hs] at h
    exact ⟨hinv s s' hs h.1, h.2.imp (And.imp_right fun h => iha ha hpost h hs)
      (And.imp_right fun h => ihb hb hpost h hs)⟩
  | loop e body ih =>
    obtain ⟨he, hbody⟩ := List.forall_mem_append.mp hvars
    refine ⟨hinv s s' hs h.1, fun t _ => ?_⟩
    obtain ⟨hkept, hleft⟩ := h.2 _ (s.agreeOutside_take t names)
    have ht : ∀ x ∈ vars, s.take names t x = t x := fun x hx => State.take_of_mem (hnames x hx)
    have hback : ∀ x ∈ vars, t x = s.take names t x := fun x hx => (ht x hx).symm
    refine ⟨fun hi => ?_, fun hi => ?_⟩
    · exact ih hbody hinv (hkept ⟨hinv _ _ hback hi.1, (htest he ht).mpr hi.2⟩) ht
    · exact hpost _ _ ht (hleft ⟨hinv _ _ hback hi.1, mt (htest he ht).mp hi.2⟩)
  | assert e => exact ⟨(htest hvars hs).mp h.1, hpost s s' hs h.2⟩
  | exit e => exact ⟨mt (htest hvars hs).mpr h.1, hpost s s' hs h.2⟩
  | invalid fault => exact h.elim

end Stmt

end WhileSketch.While
