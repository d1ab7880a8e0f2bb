import Mathlib
import WhileSketch.Proofs.Synthesis.Refinement

/-! If a search reports that nothing can be verified, each filling fails for some input. -/

namespace WhileSketch

open While Holes

section Tells

/-- A computation of a value, not given up with the verdict that nothing can be verified, whose
result says of states what is given. -/
structure Tells (names : List String) (r : Except Fault Value) (p : State → Prop) : Prop where
  quiet : Quiet r
  asserts : ∀ {v}, r = .ok v → v.Asserts names p

variable {names : List String} {r : Except Fault Value} {p q : State → Prop}

theorem tells_of_exists (h : ∃ v, r = .ok v ∧ v.Asserts names p) : Tells names r p := by
  obtain ⟨v, rfl, hv⟩ := h
  refine ⟨quiet_ok v, fun hw => ?_⟩
  cases hw
  exact hv

theorem Tells.bind {f : Value → Except Fault Value} (h : Tells names r p)
    (hf : ∀ v, v.Asserts names p → Tells names (f v) q) : Tells names (r >>= f) q where
  quiet := h.quiet.bind fun v hv => (hf v (h.asserts hv)).quiet
  asserts hw := by
    obtain ⟨v, hv, hw⟩ := bind_eq_ok.mp hw
    exact (hf v (h.asserts hv)).asserts hw

theorem Tells.congr (h : Tells names r p) (hpq : ∀ s, p s ↔ q s) : Tells names r q :=
  ⟨h.quiet, fun hv => (h.asserts hv).congr hpq⟩

theorem tells_get {x : String} {f : Value → Except Fault Value}
    (hf : ∀ v, v.Denotes names (fun s => s x) → Tells names (f v) q) :
    Tells names ((Env.symbolic names).get x >>= f) q := by
  by_cases hx : x ∈ names
  · obtain ⟨v, hv, hvd⟩ := Env.get_denotes (Env.symbolic_numeric names) hx
    simp only [Env.state_symbolic] at hvd
    rw [hv]
    exact hf v hvd
  · have hnone : (Env.symbolic names).get x = .error (.noSuchKey (Text.quoted x)) := by
      rw [Env.get, (Env.symbolic_numeric names).none x hx]
    rw [hnone]
    constructor
    · intro h
      cases h
    · intro v h
      cases h

theorem tells_compare {op : Operator} (hop : op.isComparison = true) {v : Value} {x : String}
    (hv : v.Denotes names fun s => s x) (n : Int) :
    Tells names (Value.operate op v (.int n)) fun s => op.Compares (s x) n :=
  tells_of_exists (Value.operate_asserts hop hv (Value.denotes_int n))

theorem tells_conj {v w : Value} (hv : v.Asserts names p) (hw : w.Asserts names q) :
    Tells names (Value.conj [v, w]) fun s => p s ∧ q s :=
  tells_of_exists (Value.conj_pair hv hw)

theorem tells_foldlM {α : Type} {step : Value → α → Except Fault Value} {q : α → State → Prop}
    (hstep : ∀ (a : α) (v : Value) (p : State → Prop), v.Asserts names p →
      Tells names (step v a) fun s => p s ∧ q a s)
    (l : List α) : Tells names (l.foldlM step (.bool true)) fun s => ∀ a ∈ l, q a s := by
  have hall : ∀ (l : List α) (v : Value) (p : State → Prop), v.Asserts names p →
      Tells names (l.foldlM step v) fun s => p s ∧ ∀ a ∈ l, q a s := by
    intro l
    induction l with
    | nil => exact fun v p hv => tells_of_exists ⟨v, rfl, hv.congr (by simp)⟩
    | cons a l ih =>
      intro v p hv
      rw [List.foldlM_cons]
      refine (hstep a v p hv).bind fun w hw => (ih w _ hw).congr fun s => ?_
      rw [List.forall_mem_cons, and_assoc]
  exact (hall l _ _ (Value.asserts_bool true)).congr (by simp)

theorem exists_foldlM {α : Type} {step : Value → α → Except Fault Value} {q : α → State → Prop}
    {l : List α} (hstep : ∀ a ∈ l, ∀ (v : Value) (p : State → Prop), v.Asserts names p →
      ∃ w, step v a = .ok w ∧ w.Asserts names fun s => p s ∧ q a s) :
    ∃ w, l.foldlM step (.bool true) = .ok w ∧ w.Asserts names fun s => ∀ a ∈ l, q a s := by
  have hall : ∀ (l' : List α) (v : Value) (p : State → Prop), (∀ a ∈ l', a ∈ l) →
      v.Asserts names p → ∃ w, l'.foldlM step v = .ok w ∧
        w.Asserts names fun s => p s ∧ ∀ a ∈ l', q a s := by
    intro l'
    induction l' with
    | nil => exact fun v p _ hv => ⟨v, rfl, hv.congr (by simp)⟩
    | cons a l' ih =>
      intro v p hl hv
      rw [List.forall_mem_cons] at hl
      obtain ⟨u, hu, hua⟩ := hstep a hl.1 v p hv
      obtain ⟨w, hw, hwa⟩ := ih u _ hl.2 hua
      rw [List.foldlM_cons]
      refine ⟨w, bind_eq_ok.mpr ⟨u, hu, hw⟩, hwa.congr fun s => ?_⟩
      rw [List.forall_mem_cons, and_assoc]
  obtain ⟨w, hw, hwa⟩ := hall l _ _ (fun _ ha => ha) (Value.asserts_bool true)
  exact ⟨w, hw, hwa.congr (by simp)⟩

theorem tells_holds (settings : Settings) :
    Tells names (Examples.holds settings (Env.symbolic names))
      fun s => ∀ e ∈ settings, s e.1 = e.2 := by
  refine tells_foldlM (fun e v p hv => ?_) settings
  exact tells_get fun u hu => (tells_compare rfl hu e.2).bind fun w hw => tells_conj hv hw

theorem tells_exclusion (excluded : List Filling) :
    Tells names (Refinement.exclusion excluded (Env.symbolic names))
      fun s => ∀ f ∈ excluded, ¬ ∀ e ∈ f, s e.1 = e.2 := by
  refine tells_foldlM (fun f v p hv => ?_) excluded
  refine (tells_holds f).bind fun u hu => ?_
  exact (tells_of_exists (Value.negate_asserts hu)).bind fun w hw => tells_conj hv hw

theorem tells_bounds (holes : List String) (low high : Int) :
    Tells names (Refinement.bounds holes low high (Env.symbolic names))
      fun s => ∀ x ∈ holes, low ≤ s (holes.getLastD "") ∧ s (holes.getLastD "") ≤ high := by
  refine tells_foldlM (fun x v p hv => ?_) holes
  refine tells_get fun u hu => (tells_compare rfl hu low).bind fun a ha => ?_
  refine (tells_compare rfl hu high).bind fun b hb => (tells_conj ha hb).bind fun w hw => ?_
  exact tells_conj hv hw

end Tells

namespace While

section Preset

/-- A statement with assignments of numbers in front of it. -/
def Stmt.preset (settings : Settings) (c : Stmt) : Stmt :=
  settings.foldr (fun (x, n) d => .seq (.assign x (.num n)) d) c

variable {settings : Settings} {c : Stmt}

theorem Stmt.text_preset : (c.preset settings).text = Sketch.assignments settings ++ c.text := by
  induction settings with
  | nil => rfl
  | cons e settings ih =>
    have hjoin : Sketch.assignments (e :: settings) =
        e.1 ++ " := " ++ toString e.2 ++ " ; " ++ Sketch.assignments settings := by
      simp [Sketch.assignments]
    rw [hjoin, String.append_assoc, ← ih, ← Expr.text_num, ← text_assign, ← text_seq]
    rfl

theorem Stmt.mem_vars_preset {x : String} :
    x ∈ (c.preset settings).vars ↔ (∃ e ∈ settings, x = e.1) ∨ x ∈ c.vars := by
  induction settings with
  | nil => simp [preset]
  | cons e settings ih =>
    have hvars : (c.preset (e :: settings)).vars = e.1 :: (c.preset settings).vars := rfl
    rw [hvars, List.mem_cons, ih, List.exists_mem_cons_iff, or_assoc]

theorem Stmt.isSorted_preset : (c.preset settings).isSorted = c.isSorted := by
  induction settings with
  | nil => rfl
  | cons e settings ih => exact ih

theorem Stmt.isLoopFree_preset : (c.preset settings).isLoopFree = c.isLoopFree := by
  induction settings with
  | nil => rfl
  | cons e settings ih => exact ih

theorem StmtTree.preset {t : Tree Label} (h : StmtTree c t) (settings : Settings) :
    ∃ u, StmtTree (c.preset settings) u := by
  induction settings with
  | nil => exact ⟨t, h⟩
  | cons e settings ih =>
    obtain ⟨u, hu⟩ := ih
    exact ⟨_, .seq (.assign e.1 (.num e.2)) hu⟩

def assignAll (settings : Settings) (s : State) : State :=
  settings.foldl (fun s e => Function.update s e.1 e.2) s

theorem assignAll_eq_self {s : State} (hs : ∀ e ∈ settings, s e.1 = e.2) :
    assignAll settings s = s := by
  induction settings with
  | nil => rfl
  | cons e settings ih =>
    rw [List.forall_mem_cons] at hs
    have hkeep : Function.update s e.1 e.2 = s := by rw [← hs.1, Function.update_eq_self]
    rw [assignAll, List.foldl_cons, hkeep]
    exact ih hs.2

theorem Stmt.weakest_preset {names : List String} {inv post : State → Prop} {s : State} :
    (c.preset settings).Weakest names inv post s ↔
      c.Weakest names inv post (assignAll settings s) := by
  induction settings generalizing s with
  | nil => rfl
  | cons e settings ih => exact ih

end Preset

theorem Task.success_holds {c : Stmt} {t : Tree Label} {pre post invariant : Assertion}
    {p q inv : State → Prop} (ht : StmtTree c t) (hs : c.isSorted = true)
    (hpre : Tells c.names (pre (Env.symbolic c.names)) p) (hpost : post.Expresses c.names q)
    (hinv : invariant.Expresses c.names inv) {f : Formula}
    (hf : success ⟨t, pre, post, invariant⟩ = .ok f) (s : State) :
    f.Holds s ↔ p s ∧ c.Weakest c.names inv q s := by
  obtain ⟨hid, hloop⟩ := of_success_ok ht hf
  obtain ⟨a, ha, -⟩ := weakest_expresses pre ht hs hid hloop hpost hinv
  obtain ⟨v, hv⟩ : ∃ v, pre (Env.symbolic c.names) = .ok v := by
    obtain ⟨w, hw, hf⟩ := bind_eq_ok.mp hf
    rw [ha] at hw
    cases hw
    obtain ⟨v, hv, -⟩ := bind_eq_ok.mp hf
    exact ⟨v, hv⟩
  obtain ⟨g, hg, hiff⟩ := success_iff ht hs hid hloop hv (hpre.asserts hv) hpost hinv
  rw [hf] at hg
  cases hg
  exact hiff s

end While

namespace Refinement

section Queries

variable {p : Problem} {limit : Int} {c : Stmt} {P Q I : Condition}

theorem quiet_counterexample (hpre : p.spec.pre.Quiet) (hpost : p.spec.post.Quiet)
    (hinv : p.spec.invariant.Quiet) (f : Filling) : Quiet (p.counterexample? f) := by
  refine (quiet_parse _).bind fun t? ht => ?_
  cases t? with
  | none => exact nofun
  | some t =>
    obtain ⟨c, -, -, -, htree, -⟩ := parse_sound ht
    refine (quiet_ok _).bind fun task htask => ?_
    cases htask
    have hfailure := Task.quiet_failure htree hpre hpost hinv
    exact (hfailure.bind fun _ _ => quiet_ok _).bind fun _ _ => quiet_ok _

theorem quiet_candidate (hpre : p.spec.pre.Quiet) (hpost : p.spec.post.Quiet)
    (hinv : p.spec.invariant.Quiet) (s : State) (bounded : Bool) : Quiet (p.candidate? s bounded) := by
  have hquery : ∀ names, Quiet (p.query s bounded (Env.symbolic names)) := by
    intro names
    refine (hpre _).bind fun v _ => (tells_exclusion s.excluded).quiet.bind fun e _ => .ite ?_ ?_
    · exact (tells_bounds _ _ _).quiet.bind fun b _ => Value.quiet_conj _
    · exact Value.quiet_conj _
  refine (quiet_parse _).bind fun t? ht => ?_
  cases t? with
  | none => exact nofun
  | some t =>
    obtain ⟨c, -, -, -, htree, -⟩ := parse_sound ht
    refine (quiet_ok _).bind fun task htask => ?_
    cases htask
    have hsuccess := Task.quiet_success htree hquery hpost hinv
    exact (hsuccess.bind fun _ _ => quiet_ok _).bind fun _ _ => quiet_ok _

/-- The conditions of a posed problem never give the verdict that nothing can be verified. -/
theorem Posed.quiet (h : Posed p limit c P Q I) :
    p.spec.pre.Quiet ∧ p.spec.post.Quiet ∧ p.spec.invariant.Quiet := by
  rw [h.spec]
  exact ⟨P.quiet_eval, Q.quiet_eval, I.quiet_eval⟩

/-- What is asked of a new filling. -/
def Asked (p : Problem) (s : State) (bounded : Bool) (P : Condition) (σ : WhileSketch.State) : Prop :=
  P.Holds σ ∧ (∀ f ∈ s.excluded, ¬ ∀ e ∈ f, σ e.1 = e.2) ∧ (bounded = true →
    ∀ x ∈ p.sketch.holes, s.low ≤ σ (p.sketch.holes.getLastD "") ∧
      σ (p.sketch.holes.getLastD "") ≤ s.high)

theorem Posed.tells_query (h : Posed p limit c P Q I) {names : List String}
    (hnames : ∀ x ∈ programVars c, x ∈ names) (s : State) (bounded : Bool) :
    Tells names (p.query s bounded (Env.symbolic names)) (Asked p s bounded P) := by
  have hP : p.spec.pre = P.eval := by rw [h.spec]
  have hpre := tells_of_exists (Condition.eval_expresses (h.pre.mono hnames) _ (Env.symbolic_numeric names))
  rw [← hP] at hpre
  refine hpre.bind fun v hv => (tells_exclusion s.excluded).bind fun e he => ?_
  cases bounded with
  | false => exact (tells_conj hv he).congr (by simp [Asked])
  | true =>
    refine (tells_bounds p.sketch.holes s.low s.high).bind fun b hb => tells_of_exists ?_
    have htruth : ∀ u ∈ [v, e, b], u.IsTruth names := by
      simpa using ⟨hv.isTruth, he.isTruth, hb.isTruth⟩
    obtain ⟨u, hu, hua⟩ := Value.conj_asserts htruth
    exact ⟨u, hu, hua.congr fun σ => by simp [Asked, hv.holds_iff, he.holds_iff, hb.holds_iff]⟩

def presetOnce (limit : Int) (c : Stmt) (counterexample : Settings) : Stmt :=
  ((c.unrolled limit).preset counterexample).chained

theorem mem_vars_presetOnce {m : Settings} {x : String} (hx : x ∈ c.vars) :
    x ∈ (presetOnce limit c m).vars := by
  rw [presetOnce, Stmt.vars_chained, Stmt.mem_vars_preset, Stmt.mem_vars_unrolled]
  exact .inr hx

theorem Posed.isSorted_presetOnce (h : Posed p limit c P Q I) {m : Settings} :
    (presetOnce limit c m).isSorted = true := by
  rw [presetOnce, Stmt.isSorted_chained, Stmt.isSorted_preset, Stmt.isSorted_unrolled, h.isSorted]

theorem Posed.isLoopFree_presetOnce (h : Posed p limit c P Q I) {m : Settings} :
    (presetOnce limit c m).isLoopFree = true := by
  rw [presetOnce, Stmt.isLoopFree_chained, Stmt.isLoopFree_preset, Stmt.isLoopFree_unrolled h.isFlat]

theorem Posed.tree_of_assignments (h : Posed p limit c P Q I) {m : Settings}
    (hm : ∀ e ∈ m, While.isName e.1 = true) {u : Tree Label}
    (hu : parse (Sketch.assignments m ++ p.sketch.unrolled) = .ok (some u)) :
    StmtTree (presetOnce limit c m) u := by
  obtain ⟨v, hv⟩ := h.shows.tree
  obtain ⟨w, hw⟩ := hv.preset m
  have hname : ∀ x ∈ ((c.unrolled limit).preset m).vars, While.isName x = true := by
    intro x hx
    obtain ⟨e, he, rfl⟩ | hx := Stmt.mem_vars_preset.mp hx
    · exact hm e he
    · exact h.shows.isName x (Stmt.mem_vars_unrolled.mp hx)
  rw [h.shows.unrolled, ← Stmt.text_preset] at hu
  exact hw.of_parse_text hname hu

/-- What the formula for a new filling says. -/
theorem Posed.asked_iff (h : Posed p limit c P Q I) {s : State} {u : Tree Label}
    (hu : StmtTree (presetOnce limit c s.counterexample) u) {bounded : Bool} {f : Formula}
    (hf : Task.success ⟨u, p.query s bounded, p.spec.post, p.spec.invariant⟩ = .ok f)
    (σ : WhileSketch.State) :
    f.Holds σ ↔ Asked p s bounded P σ ∧ (presetOnce limit c s.counterexample).Weakest
      (presetOnce limit c s.counterexample).names I.Holds Q.Holds σ := by
  have hvars : ∀ x ∈ programVars c, x ∈ (presetOnce limit c s.counterexample).vars :=
    fun x hx => mem_vars_presetOnce (List.mem_filter.mp hx).1
  rw [h.spec] at hf
  exact Task.success_holds hu h.isSorted_presetOnce
    (h.tells_query (fun x hx => Stmt.mem_names.mpr (hvars x hx)) s bounded)
    (Stmt.eval_expresses (h.post.mono hvars)) (Stmt.eval_expresses (h.invariant.mono hvars)) hf σ

theorem Posed.answered (h : Posed p limit c P Q I) {s : State}
    (hm : ∀ e ∈ s.counterexample, While.isName e.1 = true) {bounded : Bool} {r : Option Filling}
    (hr : p.candidate? s bounded = .ok r) :
    ∃ u f, StmtTree (presetOnce limit c s.counterexample) u ∧
      Task.success ⟨u, p.query s bounded, p.spec.post, p.spec.invariant⟩ = .ok f ∧
      (r = none → p.solver.model? f = none) := by
  obtain ⟨t?, ht, hr⟩ := bind_eq_ok.mp hr
  obtain ⟨task, htask, hr⟩ := bind_eq_ok.mp hr
  obtain ⟨m?, hm?, hr⟩ := bind_eq_ok.mp hr
  cases t? with
  | none => cases htask
  | some u =>
    cases htask
    obtain ⟨f, hf, hmodel⟩ := bind_eq_ok.mp hm?
    refine ⟨u, f, h.tree_of_assignments hm ht, hf, ?_⟩
    rintro rfl
    cases m? with
    | none => exact Except.ok.inj hmodel
    | some m => cases hr

/-- If there is no further filling, the program fails wherever one is asked for. -/
theorem Posed.of_candidate_none (h : Posed p limit c P Q I) (hsolver : p.solver.Sound) {s : State}
    (hm : ∀ e ∈ s.counterexample, While.isName e.1 = true) {bounded : Bool}
    (hnone : p.candidate? s bounded = .ok none) {σ : WhileSketch.State} (hσ : Asked p s bounded P σ)
    (hmatch : ∀ e ∈ s.counterexample, σ e.1 = e.2) :
    ¬ (c.unrolled limit).Weakest c.names I.Holds Q.Holds σ := by
  obtain ⟨u, f, hu, hf, hmodel⟩ := h.answered hm hnone
  have hiff := h.asked_iff hu hf σ
  have hloop : (c.unrolled limit).isLoopFree = true := Stmt.isLoopFree_unrolled h.isFlat
  intro hw
  refine hsolver f (hmodel rfl) σ (hiff.mpr ⟨hσ, ?_⟩)
  rw [presetOnce, Stmt.weakest_chained, Stmt.weakest_preset, assignAll_eq_self hmatch,
    Stmt.weakest_iff_run (n := ⊤) hloop]
  rwa [Stmt.weakest_iff_run (n := ⊤) hloop] at hw

end Queries

section Refuted

variable {p : Problem} {limit : Int} {c : Stmt} {P Q I : Condition}

/-- A filling fails: from a state that agrees with it and satisfies the precondition, the program
with its loops unrolled does not lead to the postcondition. -/
def Refuted (limit : Int) (c : Stmt) (P Q I : Condition) (f : Filling) : Prop :=
  ∃ σ, P.Holds σ ∧ f.Agrees σ ∧ ¬ (c.unrolled limit).Weakest c.names I.Holds Q.Holds σ

/-- What has been learned from an input for which a filling failed: it is an input, and the holes
are not assigned to. -/
structure Learned (p : Problem) (c : Stmt) (P : Condition) (m : Settings) : Prop where
  unassigned : ∀ x ∈ c.assigned, x ∉ p.sketch.holes
  isName : ∀ e ∈ m, While.isName e.1 = true
  notHole : ∀ e ∈ m, isHole e.1 = false
  input : ∃ σ, P.Holds σ ∧ ∀ e ∈ m, σ e.1 = e.2

def overwrite (f : Filling) (σ : WhileSketch.State) : WhileSketch.State :=
  fun x => (f.lookup x).getD (σ x)

theorem agrees_overwrite (f : Filling) (σ : WhileSketch.State) : f.Agrees (overwrite f σ) := by
  intro x n hx
  rw [overwrite, hx, Option.getD_some]

theorem overwrite_of_none {f : Filling} {x : String} (hx : f.lookup x = none)
    (σ : WhileSketch.State) : overwrite f σ x = σ x := by
  rw [overwrite, hx, Option.getD_none]

theorem Fills.lookup_eq_none {f : Filling} {holes : List String} (hf : Fills f holes) {x : String}
    (hx : Holes.isHole x = false) : f.lookup x = none := by
  cases h : f.lookup x with
  | none => rfl
  | some n =>
    rw [hf.isHole x n h] at hx
    cases hx

theorem lookup_of_mem {m : Model} (hm : (m.map Prod.fst).Nodup) {e : String × Int} (he : e ∈ m) :
    m.lookup e.1 = some e.2 := by
  induction m with
  | nil => cases he
  | cons d m ih =>
    rw [List.map_cons, List.nodup_cons] at hm
    obtain rfl | he := List.mem_cons.mp he
    · simp [List.lookup]
    · have hne : (e.1 == d.1) = false := by
        simp only [beq_eq_false_iff_ne]
        rintro heq
        exact hm.1 (heq ▸ List.mem_map_of_mem he)
      rw [List.lookup, hne]
      exact ih hm.2 he

theorem value_of_mem {m : Model} (hm : (m.map Prod.fst).Nodup) {e : String × Int} (he : e ∈ m) :
    m.value e.1 = e.2 := by
  rw [Model.value, lookup_of_mem hm he, Option.getD_some]

/-- A counterexample that is found for a filling gives values to variables that are no holes, and in
some state with these values the program fails. -/
theorem Posed.failed (h : Posed p limit c P Q I) (hsolver : p.solver.Faithful) {f : Filling}
    (hf : Fills f p.sketch.holes) {m : Settings} (hr : p.counterexample? f = .ok (some m)) :
    (∃ σ, P.Holds σ ∧ f.Agrees σ ∧ (∀ e ∈ m, σ e.1 = e.2) ∧
        ¬ (c.unrolled limit).Weakest c.names I.Holds Q.Holds σ) ∧
      (∀ x ∈ c.assigned, f.lookup x = none) ∧ ∀ e ∈ m, e.1 ∈ c.vars ∧ isHole e.1 = false := by
  obtain ⟨ha, u, m?, hu, hm?, heq⟩ := h.tried hf.isHole hr
  obtain ⟨model, rfl, rfl⟩ := Option.map_eq_some_iff.mp heq.symm
  obtain ⟨formula, hformula, hmodel⟩ := bind_eq_ok.mp hm?
  have hmodel : p.solver.model? formula = some model := Except.ok.inj hmodel
  obtain ⟨hvars, hiff⟩ := Task.failure_holds hu h.isSorted_filledOnce
    (Stmt.eval_expresses (isTruth_filledOnce h.pre hf.isHole ha))
    (Stmt.eval_expresses (isTruth_filledOnce h.post hf.isHole ha))
    (Stmt.eval_expresses (isTruth_filledOnce h.invariant hf.isHole ha)) hformula
  have ha' : ∀ x ∈ (c.unrolled limit).assigned, f.lookup x = none :=
    fun x hx => ha x (Stmt.mem_assigned_unrolled.mp hx)
  have hleft : ∀ x ∈ formula.vars, x ∈ c.vars ∧ f.lookup x = none := by
    intro x hx
    have hx := hvars x hx
    rw [filledOnce, Stmt.vars_chained, Stmt.vars_fill ha', List.mem_filter] at hx
    exact ⟨Stmt.mem_vars_unrolled.mp hx.1, Option.isNone_iff_eq_none.mp hx.2⟩
  have hholds : formula.Holds (overwrite f model.value) :=
    (formula.holds_congr fun x hx => (overwrite_of_none (hleft x hx).2 _).symm).mp
      (hsolver.satisfies hmodel)
  obtain ⟨hpre, hweakest⟩ := (hiff _).mp hholds
  have hloop : (c.unrolled limit).isLoopFree = true := Stmt.isLoopFree_unrolled h.isFlat
  have hsorted : (c.unrolled limit).isSorted = true := by rw [Stmt.isSorted_unrolled, h.isSorted]
  rw [filledOnce, Stmt.weakest_chained,
    Stmt.weakest_fill hsorted hloop ha' (fun _ _ => Iff.rfl) (agrees_overwrite f _)] at hweakest
  refine ⟨⟨_, hpre, agrees_overwrite f _, fun e he => ?_, hweakest⟩, ha, fun e he => ?_⟩
  · obtain ⟨he, hnot⟩ := List.mem_filter.mp he
    rw [overwrite_of_none (hf.lookup_eq_none (by simpa using hnot))]
    exact value_of_mem (hsolver.once hmodel) he
  · obtain ⟨he, hnot⟩ := List.mem_filter.mp he
    have hmem := (hsolver.assigns hmodel _).mp (List.mem_map_of_mem (f := Prod.fst) he)
    exact ⟨(hleft _ hmem).1, by simpa using hnot⟩

/-- A filling for which a counterexample is found fails. -/
theorem Posed.refuted (h : Posed p limit c P Q I) (hsolver : p.solver.Faithful) {f : Filling}
    (hf : Fills f p.sketch.holes) {m : Settings} (hr : p.counterexample? f = .ok (some m)) :
    Refuted limit c P Q I f ∧ Learned p c P m := by
  obtain ⟨⟨σ, hpre, hagree, hmatch, hweakest⟩, ha, hm⟩ := h.failed hsolver hf hr
  refine ⟨⟨σ, hpre, hagree, hweakest⟩, ?_, ?_, fun e he => (hm e he).2, σ, hpre, hmatch⟩
  · intro x hx hhole
    obtain ⟨n, hn⟩ := hf.covers x hhole
    rw [ha x hx] at hn
    cases hn
  · intro e he
    exact h.shows.isName _ (hm e he).1

/-- What is known in each round: the filling is one of the holes, and the excluded ones fail. -/
structure Known (p : Problem) (limit : Int) (c : Stmt) (P Q I : Condition) (s : State) : Prop where
  filling : Fills s.filling p.sketch.holes
  excluded : ∀ f ∈ s.excluded, Fills f p.sketch.holes ∧ Refuted limit c P Q I f

theorem Posed.known_tried (h : Posed p limit c P Q I) (hsolver : p.solver.Exact) {retry : Bool}
    {s s' : State} (hs : Tried p retry s s') (hknown : Known p limit c P Q I s)
    (hlearned : retry = true → Learned p c P s.counterexample) :
    Known p limit c P Q I s' ∧ Learned p c P s'.counterexample := by
  cases hs with
  | again => exact ⟨hknown, hlearned rfl⟩
  | @learned _ m hr =>
    obtain ⟨hrefuted, hm⟩ := h.refuted hsolver.faithful hknown.filling hr
    refine ⟨⟨hknown.filling, fun f hf => ?_⟩, hm⟩
    obtain hf | hf := List.mem_append.mp hf
    · exact hknown.excluded f hf
    · rw [List.mem_singleton.mp hf]
      exact ⟨hknown.filling, hrefuted⟩

/-- A search that reports that nothing can be verified has come to a state with no further
filling. -/
theorem Posed.exhausted (h : Posed p limit c P Q I) (hsolver : p.solver.Exact) {fuel : Nat}
    {retry : Bool} {s : State} (hknown : Known p limit c P Q I s)
    (hlearned : retry = true → Learned p c P s.counterexample)
    (hr : p.runWithin fuel retry s = .error .notVerified) :
    ∃ s', Known p limit c P Q I s' ∧ Learned p c P s'.counterexample ∧
      p.candidate? s' false = .ok none := by
  obtain ⟨hpre, hpost, hinv⟩ := h.quiet
  induction fuel generalizing retry s with
  | zero => cases hr
  | succ fuel ih =>
    have hround := round p fuel retry s
    rw [hr] at hround
    generalize hr' : Except.error Fault.notVerified = r at hround
    cases hround with
    | found => cases hr'
    | refuted hnone => exact ⟨s, hknown, hlearned rfl, hnone⟩
    | stuck herror =>
      cases hr'
      exact absurd herror (quiet_counterexample hpre hpost hinv _)
    | stumped htried herror =>
      cases hr'
      exact absurd herror (quiet_candidate hpre hpost hinv _ _)
    | widened htried _ =>
      obtain ⟨hknown', hm⟩ := h.known_tried hsolver htried hknown hlearned
      refine ih ?_ (fun _ => ?_) hr'.symm
      · exact ⟨hknown'.filling, hknown'.excluded⟩
      · exact hm
    | refilled htried hsome =>
      obtain ⟨hknown', hm⟩ := h.known_tried hsolver htried hknown hlearned
      refine ih ?_ (fun _ => ?_) hr'.symm
      · exact ⟨candidate_fills h.shows.isHole hsome, hknown'.excluded⟩
      · exact hm

/-- Where there is no further filling, each filling of the holes fails: one that did not would
satisfy what is asked, or give the holes the values of an excluded one. -/
theorem Posed.refuted_of_exhausted (h : Posed p limit c P Q I) (hsolver : p.solver.Sound) {s : State}
    (hknown : Known p limit c P Q I s) (hlearned : Learned p c P s.counterexample)
    (hnone : p.candidate? s false = .ok none) {g : Filling}
    (hg : ∀ x n, g.lookup x = some n → x ∈ p.sketch.holes) : Refuted limit c P Q I g := by
  obtain ⟨σ, hpre, hmatch⟩ := hlearned.input
  have hkeep : ∀ x, isHole x = false → overwrite g σ x = σ x := by
    intro x hx
    refine overwrite_of_none ?_ σ
    cases hn : g.lookup x with
    | none => rfl
    | some n =>
      rw [h.shows.isHole x (hg x n hn)] at hx
      cases hx
  have hpre' : P.Holds (overwrite g σ) := by
    refine (h.pre.holds_congr fun x hx => (hkeep x ?_).symm).mp hpre
    simpa using (List.mem_filter.mp hx).2
  by_cases hold : ∃ f ∈ s.excluded, ∀ e ∈ f, overwrite g σ e.1 = e.2
  · obtain ⟨f, hf, hall⟩ := hold
    obtain ⟨hfills, τ, hτ, hagree, hweakest⟩ := hknown.excluded f hf
    refine ⟨τ, hτ, fun x n hx => ?_, hweakest⟩
    obtain ⟨k, hk⟩ := hfills.covers x (hg x n hx)
    rw [hagree x k hk, ← agrees_overwrite g σ x n hx]
    exact (hall _ (mem_of_lookup hk)).symm
  · have hasked : Asked p s false P (overwrite g σ) :=
      ⟨hpre', fun f hf hall => hold ⟨f, hf, hall⟩, nofun⟩
    refine ⟨overwrite g σ, hpre', agrees_overwrite g σ, ?_⟩
    refine h.of_candidate_none hsolver hlearned.isName hnone hasked fun e he => ?_
    rw [hkeep _ (hlearned.notHole e he)]
    exact hmatch e he

/-- With a filling that fails, the weakest precondition of the program is not satisfied where the
precondition is. -/
theorem Posed.not_weakest (h : Posed p limit c P Q I) (hid : "id" ∉ c.vars) {u : Tree Label}
    (hu : StmtTree (c.unrolled limit) u) {g : Filling}
    (hg : ∀ x n, g.lookup x = some n → isHole x = true) (ha : ∀ x ∈ c.assigned, g.lookup x = none)
    (hrefuted : Refuted limit c P Q I g) :
    ∃ s, P.Holds s ∧ ∃ names a v,
      Task.weakest ⟨fillTree g u, P.eval, Q.eval, I.eval⟩ = .ok (names, a) ∧
        a (Env.symbolic names) = .ok v ∧ ¬ v.Holds s := by
  obtain ⟨σ, hpre, hagree, hweakest⟩ := hrefuted
  have ha' : ∀ x ∈ (c.unrolled limit).assigned, g.lookup x = none :=
    fun x hx => ha x (Stmt.mem_assigned_unrolled.mp hx)
  have hsorted : (c.unrolled limit).isSorted = true := by rw [Stmt.isSorted_unrolled, h.isSorted]
  have hloop : (c.unrolled limit).isLoopFree = true := Stmt.isLoopFree_unrolled h.isFlat
  have hid' : "id" ∉ ((c.unrolled limit).fill g).vars := by
    rw [Stmt.vars_fill ha', List.mem_filter, Stmt.mem_vars_unrolled]
    exact fun hmem => hid hmem.1
  have htruth : ∀ X : Condition, X.IsTruth (programVars c) →
      X.IsTruth ((c.unrolled limit).fill g).vars := by
    intro X hX
    rw [← Stmt.vars_chained]
    exact isTruth_filledOnce hX hg ha
  obtain ⟨a, hw, hae⟩ := Task.weakest_expresses P.eval (hu.fill ha')
    (by rw [Stmt.isSorted_fill, hsorted]) hid' (.inl (by rw [Stmt.isLoopFree_fill, hloop]))
    (Stmt.eval_expresses (htruth Q h.post)) (Stmt.eval_expresses (htruth I h.invariant))
  obtain ⟨v, hv, hva⟩ := hae _ (Env.symbolic_numeric _)
  refine ⟨σ, hpre, _, a, v, hw, hv, ?_⟩
  rw [hva.holds_iff, Env.state_symbolic,
    Stmt.weakest_fill hsorted hloop ha' (fun _ _ => Iff.rfl) hagree]
  exact hweakest

end Refuted

/-- If a search reports that nothing can be verified, then for all values of the holes there is a
state that satisfies the precondition but not the weakest precondition of the program with its loops
unrolled and these values in the tree. -/
theorem notVerified_refuted {solver : Solver} (hsolver : solver.Exact) {rounds : Nat}
    {session : Session} {limit : Int} {program : String} {t : Tree Label}
    (ht : parse (nameAll program).1 = .ok (some t)) (hs : (Stmt.ofTree t).isSorted = true)
    (hflat : (Stmt.ofTree t).isFlat = true) {P Q I : Condition}
    (hP : P.IsTruth (programVars (Stmt.ofTree t))) (hQ : Q.IsTruth (programVars (Stmt.ofTree t)))
    (hI : I.IsTruth (programVars (Stmt.ofTree t)))
    (hr : synthesizeWithin rounds solver session ⟨P.eval, Q.eval, I.eval⟩ limit program =
      .error .notVerified) :
    ∃ u, unroll limit t = .ok u ∧ ∀ h : String → Int,
      ∃ s, P.Holds s ∧ ∃ names a v,
        Task.weakest ⟨fillTree ((nameAll program).2.map fun x => (x, h x)) u, P.eval, Q.eval, I.eval⟩ =
          .ok (names, a) ∧ a (Env.symbolic names) = .ok v ∧ ¬ v.Holds s := by
  obtain hprepare | ⟨sketch, hsketch, hrun⟩ := bind_eq_error.mp hr
  · exact absurd hprepare (Sketch.quiet_prepare session limit program).result
  obtain ⟨hholes, htext, t', u, ht', hu, htree, hutree, hshows⟩ := Sketch.shows_of_prepare hsketch
  rw [htext, ht] at ht'
  cases ht'
  refine ⟨u, hu, fun h => ?_⟩
  have hposed : Posed ⟨solver, ⟨P.eval, Q.eval, I.eval⟩, sketch⟩ limit (Stmt.ofTree t) P Q I :=
    ⟨hshows, hs, hflat, rfl, hP, hQ, hI⟩
  have hinitial : Known ⟨solver, ⟨P.eval, Q.eval, I.eval⟩, sketch⟩ limit (Stmt.ofTree t) P Q I
      (.initial sketch.holes) := ⟨fills_zeros hshows.isHole, fun f hf => by cases hf⟩
  obtain ⟨s', hknown, hlearned, hnone⟩ := hposed.exhausted hsolver hinitial (by simp) hrun
  rw [← hholes]
  have hkeys : ∀ x n, (sketch.holes.map fun x => (x, h x)).lookup x = some n → x ∈ sketch.holes := by
    intro x n hx
    obtain ⟨y, hy, heq⟩ := List.mem_map.mp (mem_of_lookup hx)
    cases heq
    exact hy
  have hassigned : ∀ x ∈ (Stmt.ofTree t).assigned,
      (sketch.holes.map fun x => (x, h x)).lookup x = none := by
    intro x hx
    refine Option.eq_none_iff_forall_ne_some.mpr fun n hn => ?_
    exact hlearned.unassigned x hx (hkeys x n hn)
  obtain ⟨_, _, hpreset, hsuccess, -⟩ := hposed.answered hlearned.isName hnone
  have hid : "id" ∉ (Stmt.ofTree t).vars :=
    fun hid => (Task.of_success_ok hpreset hsuccess).1 (mem_vars_presetOnce hid)
  exact hposed.not_weakest hid hutree (fun x n hx => hshows.isHole x (hkeys x n hx)) hassigned
    (hposed.refuted_of_exhausted hsolver.sound hknown hlearned hnone hkeys)

/-- A loop without an end, whatever its hole is filled with. -/
def stuckLoop : Stmt :=
  .loop (.operate .lt (.num 0) (.num 1))
    (.seq .skip (.assert (.operate .eq (.var "hole_0") (.num 1))))

def anySpec : Specification :=
  ⟨Condition.eval (.bool true), Condition.eval (.bool true), Condition.eval (.bool true)⟩

theorem nameAll_stuckLoop :
    nameAll "while (0 < 1) do (skip ; assert (?? = 1))" = (stuckLoop.text, ["hole_0"]) := by
  decide

def stuckOnce (e : Expr) : Stmt :=
  .seq (.step (.operate .lt (.num 0) (.num 1)) (.seq .skip (.assert (.operate .eq e (.num 1)))) .skip)
    (.exit (.operate .lt (.num 0) (.num 1)))

theorem parse_stuckOnce {e : Expr} (he : e.Legible) (hs : e.isNumber = true)
    (hnames : ∀ x ∈ e.vars, isName x = true) : ∃ t, parse (stuckOnce e).text = .ok (some t) := by
  have hone : (Expr.num 1).Legible := Expr.legible_num.mpr (by decide)
  have htest : (Expr.operate .lt (.num 0) (.num 1)).Legible :=
    Expr.legible_operate.mpr ⟨Expr.legible_num.mpr (by decide), hone⟩
  have hbody : (Stmt.seq .skip (.assert (.operate .eq e (.num 1)))).Legible :=
    Stmt.legible_seq.mpr ⟨Stmt.legible_skip,
      Stmt.legible_assert.mpr (Expr.legible_operate.mpr ⟨he, hone⟩)⟩
  have hlegible : (stuckOnce e).Legible :=
    Stmt.legible_seq.mpr ⟨Stmt.legible_step.mpr ⟨htest, hbody, Stmt.legible_skip⟩,
      Stmt.legible_exit.mpr htest⟩
  refine hlegible.exists_parse ?_ ?_
  · simp [stuckOnce, Stmt.isSorted, Expr.isTest, Expr.isNumber, Operator.isComparison, hs]
  · simpa [stuckOnce, Stmt.vars, Expr.vars] using hnames

theorem posed_stuckLoop : ∃ sketch t,
    (Sketch.prepare skipSession 1 "while (0 < 1) do (skip ; assert (?? = 1))").result =
        .ok sketch ∧
      sketch.holes = ["hole_0"] ∧ parse stuckLoop.text = .ok (some t) ∧ StmtTree stuckLoop t ∧
      Posed ⟨Solver.ideal, anySpec, sketch⟩ 1 stuckLoop (.bool true) (.bool true) (.bool true) := by
  obtain ⟨sketch, hsketch⟩ : ∃ sketch,
      (Sketch.prepare skipSession 1 "while (0 < 1) do (skip ; assert (?? = 1))").result =
        .ok sketch := by
    have htest : ExprTree (.operate .lt (.num 0) (.num 1)) _ := .operate .lt (.num 0) (.num 1)
    have htree : ∀ {e : Expr} {t : Tree Label}, ExprTree e t →
        StmtTree (.loop (.operate .lt (.num 0) (.num 1))
          (.seq .skip (.assert (.operate .eq e (.num 1))))) _ :=
      fun he => .loop htest (.seq .skipWritten (.assert (.operate .eq he (.num 1))))
    have hlegible : ∀ {e : Expr}, e.Legible → (Stmt.loop (.operate .lt (.num 0) (.num 1))
        (.seq .skip (.assert (.operate .eq e (.num 1))))).Legible := fun he =>
      Stmt.legible_loop.mpr ⟨Expr.legible_operate.mpr
        ⟨Expr.legible_num.mpr (by decide), Expr.legible_num.mpr (by decide)⟩,
        Stmt.legible_seq.mpr ⟨Stmt.legible_skip, Stmt.legible_assert.mpr
          (Expr.legible_operate.mpr ⟨he, Expr.legible_num.mpr (by decide)⟩)⟩⟩
    have hbare : (Stmt.loop (.operate .lt (.num 0) (.num 1)) .skip).Legible :=
      Stmt.legible_loop.mpr ⟨Expr.legible_operate.mpr
        ⟨Expr.legible_num.mpr (by decide), Expr.legible_num.mpr (by decide)⟩, Stmt.legible_skip⟩
    exact Sketch.exists_prepare (by simp [skipSession]) (htree .hole) (.loop htest .skipWritten)
      (htree (.var "hole_0")) rfl (by decide)
      ⟨hlegible OperandText.hole.legible_expr, hbare, hlegible (Expr.legible_var.mpr (by decide))⟩
      rfl (by decide) nameAll_stuckLoop (by decide) 1
  have hnames : ∀ x ∈ stuckLoop.vars, isName x = true := by decide
  obtain ⟨hholes, hshows, t, ht, htree⟩ :=
    Sketch.prepare_text hsketch rfl hnames rfl (congrArg Prod.fst nameAll_stuckLoop)
  refine ⟨sketch, t, hsketch, ?_, ht, htree, hshows, rfl, rfl, rfl, .bool true, .bool true, .bool true⟩
  rw [hholes, nameAll_stuckLoop]

theorem counterexample_stuckLoop {sketch : Sketch}
    (hposed : Posed ⟨Solver.ideal, anySpec, sketch⟩ 1 stuckLoop (.bool true) (.bool true)
      (.bool true)) :
    Problem.counterexample? ⟨Solver.ideal, anySpec, sketch⟩ (zeros ["hole_0"]) = .ok (some []) := by
  have hf : ∀ x n, (zeros ["hole_0"]).lookup x = some n → isHole x = true :=
    (fills_zeros (by decide)).isHole
  have ha : ∀ x ∈ stuckLoop.assigned, (zeros ["hole_0"]).lookup x = none := by decide
  obtain ⟨u, hu⟩ := parse_stuckOnce (Expr.legible_num.mpr (by decide)) rfl nofun (e := .num 0)
  obtain ⟨htree, htry⟩ := hposed.counterexample_eq hf ha hu
  obtain ⟨formula, hformula, hvars, hiff⟩ := Task.failure_iff htree rfl (by decide) (.inl rfl)
    (Stmt.eval_expresses (isTruth_filledOnce hposed.pre hf ha))
    (Stmt.eval_expresses (isTruth_filledOnce hposed.post hf ha))
    (Stmt.eval_expresses (isTruth_filledOnce hposed.invariant hf ha))
  have hstmt : filledOnce 1 stuckLoop (zeros ["hole_0"]) = stuckOnce (.num 0) := rfl
  have hfails : formula.Holds fun _ => 0 := by
    rw [hiff, hstmt]
    refine ⟨rfl, fun hw => ?_⟩
    simp [stuckOnce, Stmt.Weakest, Expr.Holds, Expr.value, Operator.Compares] at hw
  cases hmodel : Solver.ideal.model? formula with
  | none => exact absurd hfails (Solver.ideal_exact.sound formula hmodel _)
  | some m =>
    have hempty : m = [] := by
      refine List.eq_nil_iff_forall_not_mem.mpr fun e he => ?_
      have hx := hvars _ ((Solver.ideal_exact.assigns hmodel e.1).mp (List.mem_map_of_mem he))
      rw [hstmt] at hx
      cases hx
    rw [htry, Task.counterexample?, hformula]
    simp [bind, Except.bind, pure, Except.pure, hmodel, hempty]

def triedZeros (low high : Int) : State :=
  ⟨zeros ["hole_0"], [zeros ["hole_0"]], [], low, high⟩

/-- Nothing else is found for the hole, as the loop has no end. -/
theorem candidate_stuckLoop {sketch : Sketch}
    (hposed : Posed ⟨Solver.ideal, anySpec, sketch⟩ 1 stuckLoop (.bool true) (.bool true)
      (.bool true)) (hholes : sketch.holes = ["hole_0"]) (low high : Int) (bounded : Bool) :
    Problem.candidate? ⟨Solver.ideal, anySpec, sketch⟩
      (triedZeros low high) bounded = .ok none := by
  obtain ⟨u, hu⟩ : ∃ u, parse (Sketch.assignments [] ++ (stuckLoop.unrolled 1).text) =
      .ok (some u) := by
    rw [show Sketch.assignments [] = "" from rfl, String.empty_append]
    exact parse_stuckOnce (Expr.legible_var.mpr (by decide)) rfl (by decide)
  rw [← hposed.shows.unrolled] at hu
  have htree := hposed.tree_of_assignments (m := []) (by simp) hu
  have hstmt : presetOnce 1 stuckLoop [] = stuckOnce (.var "hole_0") := rfl
  obtain ⟨v, hv⟩ : ∃ v, Problem.query ⟨Solver.ideal, anySpec, sketch⟩
      (triedZeros low high) bounded
      (Env.symbolic (presetOnce 1 stuckLoop []).names) = .ok v := by
    simp only [Problem.query, hholes]
    cases bounded <;> exact ⟨_, rfl⟩
  obtain ⟨f, hf, hiff⟩ := Task.success_iff htree rfl (by decide) (.inl rfl) hv
    ((hposed.tells_query (by decide) _ _).asserts hv) (Stmt.eval_expresses (.bool true))
    (Stmt.eval_expresses (.bool true))
  have hnone : Solver.ideal.model? f = none := by
    apply Solver.ideal_eq_none
    intro s hs
    obtain ⟨-, hw⟩ := (hiff s).mp hs
    rw [hstmt] at hw
    simp [stuckOnce, Stmt.Weakest, Expr.Holds, Expr.value, Operator.Compares] at hw
  have hf : Task.success ⟨u, Problem.query ⟨Solver.ideal, anySpec, sketch⟩
      (triedZeros low high) bounded, anySpec.post,
      anySpec.invariant⟩ = .ok f := hf
  have hsatisfying : Task.satisfying? Solver.ideal ⟨u, Problem.query ⟨Solver.ideal, anySpec, sketch⟩
      (triedZeros low high) bounded, anySpec.post,
      anySpec.invariant⟩ = .ok none := by
    rw [Task.satisfying?, hf]
    exact congrArg Except.ok hnone
  have hu : parse (Sketch.assignments (triedZeros low high).counterexample ++ sketch.unrolled) =
      .ok (some u) := hu
  rw [Problem.candidate?, hu]
  change (do return (← Task.satisfying? _ ⟨_, _, _, _⟩).map _) = _
  rw [hsatisfying]
  rfl

theorem synthesize_stuckLoop :
    synthesizeWithin 2 Solver.ideal skipSession anySpec 1
      "while (0 < 1) do (skip ; assert (?? = 1))" = .error .notVerified := by
  obtain ⟨sketch, -, hsketch, hholes, -, -, hposed⟩ := posed_stuckLoop
  have hfirst := counterexample_stuckLoop hposed
  have hlater := candidate_stuckLoop hposed hholes
  simp only [triedZeros] at hlater
  rw [synthesizeWithin, hsketch]
  change Problem.runWithin _ 2 false (.initial sketch.holes) = _
  rw [hholes]
  simp [Problem.runWithin, State.initial, State.widen, Problem.learn, hfirst, hlater, bind,
    Except.bind, pure, Except.pure, throw, throwThe, MonadExceptOf.throw]

theorem notVerified_refuted_stuckLoop :
    ∃ t u, parse stuckLoop.text = .ok (some t) ∧ unroll 1 t = .ok u ∧ ∀ n : Int,
      ∃ s names a v, Task.weakest ⟨fillTree [("hole_0", n)] u, Condition.eval (.bool true),
          Condition.eval (.bool true), Condition.eval (.bool true)⟩ = .ok (names, a) ∧
        a (Env.symbolic names) = .ok v ∧ ¬ v.Holds s := by
  obtain ⟨sketch, t, -, -, ht, htree, hposed⟩ := posed_stuckLoop
  rw [← htree.ofTree_eq] at hposed
  have hrefuted := notVerified_refuted Solver.ideal_exact (by rw [nameAll_stuckLoop]; exact ht)
    hposed.isSorted hposed.isFlat hposed.pre hposed.post hposed.invariant synthesize_stuckLoop
  rw [nameAll_stuckLoop] at hrefuted
  obtain ⟨u, hu, hall⟩ := hrefuted
  refine ⟨t, u, ht, hu, fun n => ?_⟩
  obtain ⟨s, -, hs⟩ := hall fun _ => n
  exact ⟨s, hs⟩

end Refinement

end WhileSketch
