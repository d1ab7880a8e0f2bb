import Mathlib
import WhileSketch.While.Parsing
import WhileSketch.While.Printing
import WhileSketch.While.Programs
import WhileSketch.Proofs.Failure
import WhileSketch.Proofs.While.Programs

/-! Reading, printing and unrolling programs never gives the verdict that nothing can be verified, nor
does a weakest precondition, unless the conditions it is made from do. -/

namespace WhileSketch

namespace Value

theorem quiet_operate (op : Operator) (v w : Value) : Quiet (operate op v w) := by
  have hknown : ∀ m n, Quiet (operateKnown m n op) := by
    intro m n
    cases op with
    | div => exact .ite nofun (quiet_ok _)
    | _ => exact quiet_ok _
  have hmultiply : Quiet (multiply v w) := by
    unfold multiply
    split <;> exact nofun
  have hequal : ∀ equal, Quiet (compareEqual equal v w) := by
    intro equal
    unfold compareEqual
    cases v <;> cases w <;> exact nofun
  unfold operate
  split
  · exact hknown _ _
  · cases op with
    | mul => exact hmultiply
    | eq | ne => exact hequal _
    | div => exact nofun
    | add | sub | lt | le | gt | ge => cases v <;> cases w <;> exact nofun

theorem quiet_toFormula (v : Value) : Quiet v.toFormula := by
  cases v <;> exact nofun

theorem quiet_parts (connective : String) (vs : List Value) : Quiet (parts connective vs) :=
  .ite nofun (.mapM fun v _ => quiet_toFormula v)

theorem quiet_conj (vs : List Value) : Quiet (conj vs) :=
  (quiet_parts _ vs).bind fun _ _ => quiet_ok _

theorem quiet_disj (vs : List Value) : Quiet (disj vs) :=
  (quiet_parts _ vs).bind fun _ _ => quiet_ok _

theorem quiet_negate (v : Value) : Quiet v.negate :=
  (quiet_toFormula v).bind fun _ _ => quiet_ok _

theorem quiet_implies (v w : Value) : Quiet (v.implies w) :=
  (quiet_toFormula v).bind fun _ _ => (quiet_toFormula w).bind fun _ _ => quiet_ok _

theorem quiet_forAll (names : List String) (v : Value) : Quiet (forAll names v) :=
  .ite nofun ((quiet_toFormula v).bind fun _ _ => quiet_ok _)

end Value

theorem Env.quiet_get (env : Env) (x : String) : Quiet (env.get x) := by
  unfold Env.get
  cases env x <;> exact nofun

/-- An assertion never gives the verdict that nothing can be verified. -/
def Assertion.Quiet (a : Assertion) : Prop :=
  ∀ env, WhileSketch.Quiet (a env)

namespace Condition

mutual

theorem quiet_eval (c : Condition) : Assertion.Quiet c.eval := by
  intro env
  cases c with
  | bool b => exact quiet_ok _
  | int n => exact quiet_ok _
  | var name => exact env.quiet_get name
  | all cs => exact (quiet_evalEach cs env).bind fun vs _ => Value.quiet_conj vs
  | any cs => exact (quiet_evalEach cs env).bind fun vs _ => Value.quiet_disj vs
  | not c => exact (quiet_eval c env).bind fun v _ => v.quiet_negate
  | implies a b =>
    exact (quiet_eval a env).bind fun v _ => (quiet_eval b env).bind fun w _ => v.quiet_implies w
  | operate op a b =>
    exact (quiet_eval a env).bind fun v _ => (quiet_eval b env).bind fun w _ =>
      Value.quiet_operate op v w

theorem quiet_evalEach (cs : List Condition) (env : Env) : Quiet (evalEach cs env) := by
  cases cs with
  | nil => exact quiet_ok _
  | cons c cs =>
    exact (quiet_eval c env).bind fun v _ => (quiet_evalEach cs env).bind fun vs _ => quiet_ok _

end

end Condition

namespace While

theorem mem_of_mem_alternate {α : Type} {x : α} {xs : List α} (h : x ∈ alternate xs) : x ∈ xs := by
  fun_induction alternate xs with
  | case1 a b rest ih =>
    obtain rfl | h := List.mem_cons.mp h
    · simp
    · simp [ih h]
  | case2 => cases h

theorem quiet_readNumber (r : Label) : Quiet (readNumber r) := by
  have htext : ∀ s, Quiet ((Text.readInt s).mapError (Fault.ofNumeral s)) := by
    intro s
    cases Text.readInt s with
    | ok n => exact quiet_ok n
    | error e => cases e <;> exact nofun
  cases r with
  | word s | pinned s => exact htext s
  | num n => exact quiet_ok n
  | splice => exact nofun

theorem condenseEach_eq (ds : List (Tree Label)) : condenseEach ds = ds.map condense := by
  induction ds with
  | nil => rfl
  | cons d ds ih => rw [condenseEach, ih, List.map_cons]

/-- There are no other causes why nothing is left of a node than that something is missing below it,
that a numeral below it cannot be read, and those of its parts. -/
theorem failsOnly_condense {P : Fault → Prop} (hP : P .noSuchItem) {r : Label}
    {ts : List (Tree Label)}
    (hnum : r.isWord "num" = true → ∀ t ∈ ts, FailsOnly P (readNumber t.root))
    (hts : ∀ t ∈ ts, FailsOnly P (condense t)) : FailsOnly P (condense (.node r ts)) := by
  have hat : ∀ {α : Type} (xs : List α) (i : Nat), FailsOnly P (itemAt xs i) := failsOnly_itemAt hP
  have hparts : ∀ x ∈ condenseEach ts, FailsOnly P x := by
    rw [condenseEach_eq, List.forall_mem_map]
    exact hts
  have hinner : ∀ x ∈ alternate (condenseEach ts), FailsOnly P x :=
    fun x hx => hparts x (mem_of_mem_alternate hx)
  rw [condense]
  refine .ite (fun _ => ?_) fun _ => .ite (fun _ => ?_) fun _ => .ite (fun _ => ?_) fun _ =>
    .ite (fun _ => ?_) fun _ => .ite (fun hr => ?_) fun _ => .ite (fun _ => ?_) fun _ => ?_
  · exact (hat _ _).bind fun x hx => .item hparts hx
  · refine (hat _ _).bind fun d _ => (hat _ _).bind fun sign _ => ?_
    refine (hat _ _).bind fun x hx => (FailsOnly.item hparts hx).bind fun t _ => ?_
    exact (hat _ _).bind fun y hy => (FailsOnly.item hparts hy).bind fun u _ => failsOnly_ok _
  · exact (hat _ _).bind fun x hx => .item hparts hx
  · refine (hat _ _).bind fun k _ => .ite (fun _ => .ite (fun _ => ?_) fun _ => ?_) fun _ => ?_
    · exact (hat _ _).bind fun x hx => .item hinner hx
    · exact (FailsOnly.mapM hinner).bind fun us _ => failsOnly_ok _
    · exact (FailsOnly.mapM hparts).bind fun us _ => failsOnly_ok _
  · refine (hat _ _).bind fun d hd => FailsOnly.bind ?_ fun n _ => failsOnly_ok _
    exact hnum hr d (List.mem_of_getElem? (itemAt_eq_ok.mp hd))
  · exact (hat _ _).bind fun d _ => failsOnly_ok _
  · exact (FailsOnly.mapM hparts).bind fun us _ => failsOnly_ok _

mutual

theorem quiet_condense : (t : Tree Label) → Quiet (condense t)
  | .node r ts => by
    have hts := quiet_condenseEach ts
    refine quiet_iff.mpr (failsOnly_condense (by simp) (fun _ t _ => ?_) fun t ht => ?_)
    · exact quiet_iff.mp (quiet_readNumber t.root)
    · exact quiet_iff.mp (hts t ht)

theorem quiet_condenseEach : (ts : List (Tree Label)) → ∀ t ∈ ts, Quiet (condense t)
  | [] => by simp
  | t :: ts => by
    have ht := quiet_condense t
    have hts := quiet_condenseEach ts
    simpa using ⟨ht, hts⟩

end

theorem quiet_parse (text : String) : Quiet (parse text) := by
  rw [parse]
  cases language.derive? text with
  | none => exact quiet_ok none
  | some d => exact (quiet_condense d).bind fun t _ => quiet_ok (some t)

theorem quiet_printedPart {parts : List (Except Fault Label)} (h : ∀ x ∈ parts, Quiet x) (i : Nat) :
    Quiet (printedPart parts i) :=
  (quiet_itemAt _ _).bind fun _ hx => (Quiet.item h hx).bind fun _ _ => quiet_ok _

theorem quiet_printedTexts (i : Nat) (ls : List Label) : Quiet (printedTexts i ls) := by
  fun_induction printedTexts i ls with
  | case1 => exact quiet_ok []
  | case2 | case3 => exact nofun
  | case4 _ _ _ ih | case5 _ _ _ ih => exact ih.bind fun _ _ => quiet_ok _

mutual

theorem quiet_print : (t : Tree Label) → Quiet (print t)
  | .node r ts => by
    have hparts := quiet_printEach ts
    have hpart := quiet_printedPart hparts
    rw [print]
    refine .ite ?_ (.ite ?_ (.ite ?_ (.ite ?_ (.ite ?_ (.ite ?_ (.ite ?_ (.ite ?_ (.ite ?_
      (.ite ?_ ?_)))))))))
    · exact (hpart 0).bind fun _ _ => (hpart 1).bind fun _ _ => quiet_ok _
    · exact (hpart 0).bind fun _ _ => (hpart 1).bind fun _ _ => (hpart 2).bind fun _ _ => quiet_ok _
    · exact (hpart 0).bind fun _ _ => (hpart 1).bind fun _ _ => quiet_ok _
    · exact (hpart 0).bind fun _ _ => quiet_ok _
    · exact (hpart 0).bind fun _ _ => (hpart 1).bind fun _ _ => quiet_ok _
    · exact (quiet_itemAt ts 0).bind fun _ _ => quiet_ok _
    · exact (quiet_itemAt ts 0).bind fun _ _ => quiet_ok _
    · exact quiet_ok _
    · exact quiet_ok _
    · exact (hpart 0).bind fun _ _ => (hpart 1).bind fun _ _ => quiet_ok _
    · exact (Quiet.mapM hparts).bind fun ls _ => (quiet_printedTexts 0 ls).bind fun _ _ => quiet_ok _

theorem quiet_printEach : (ts : List (Tree Label)) → ∀ x ∈ printEach ts, Quiet x
  | [] => by simp [printEach]
  | t :: ts => by
    have ht := quiet_print t
    have hts := quiet_printEach ts
    simpa [printEach] using ⟨ht, hts⟩

end

mutual

theorem quiet_occurrences : (t : Tree Label) → Quiet (occurrences t)
  | .node r ts => by
    have hts := quiet_occurrencesEach ts
    rw [occurrences]
    refine .ite ((quiet_itemAt ts 0).bind fun d _ => ?_) (hts.bind fun _ _ => quiet_ok _)
    split
    · exact nofun
    · exact hts.bind fun _ _ => quiet_ok _

theorem quiet_occurrencesEach : (ts : List (Tree Label)) → Quiet (occurrencesEach ts)
  | [] => quiet_ok []
  | t :: ts => by
    have ht := quiet_occurrences t
    have hts := quiet_occurrencesEach ts
    exact ht.bind fun _ _ => hts.bind fun _ _ => quiet_ok _

end

theorem quiet_variableNames (t : Tree Label) : Quiet (variableNames t) :=
  ((quiet_occurrences t).bind fun _ _ => quiet_ok _).bind fun _ _ => quiet_ok _

mutual

theorem quiet_unroll (limit : Int) : (t : Tree Label) → Quiet (unroll limit t)
  | .node r ts => by
    have hts := quiet_unrollEach limit ts
    rw [unroll]
    refine .ite ?_ ?_
    · exact (quiet_itemAt ts 0).bind fun _ _ => (quiet_itemAt ts 1).bind fun _ _ => quiet_ok _
    · exact hts.bind fun _ _ => quiet_ok _

theorem quiet_unrollEach (limit : Int) : (ts : List (Tree Label)) → Quiet (unrollEach limit ts)
  | [] => quiet_ok []
  | t :: ts => by
    have ht := quiet_unroll limit t
    have hts := quiet_unrollEach limit ts
    exact ht.bind fun _ _ => hts.bind fun _ _ => quiet_ok _

end

section Weakest

theorem ExprTree.quiet_eval {e : Expr} {t : Tree Label} (h : ExprTree e t) (env : Env) :
    Quiet (e.eval env) := by
  induction h with
  | var x => exact env.quiet_get x
  | num n => exact quiet_ok _
  | hole => exact nofun
  | operate op _ _ iha ihb => exact iha.bind fun v _ => ihb.bind fun w _ => Value.quiet_operate op v w

theorem ExprTree.quiet_branch {e : Expr} {t : Tree Label} (h : ExprTree e t) {yes no : Assertion}
    (hyes : yes.Quiet) (hno : no.Quiet) : (branch e yes no).Quiet := by
  intro env
  refine (h.quiet_eval env).bind fun v _ => (hyes env).bind fun w _ => ?_
  refine (Value.quiet_conj _).bind fun left _ => (h.quiet_eval env).bind fun v _ => ?_
  refine (Value.quiet_negate v).bind fun u _ => (hno env).bind fun w _ => ?_
  exact (Value.quiet_conj _).bind fun right _ => Value.quiet_disj _

theorem quiet_delayed {r : Except Fault Assertion}
    (h : Quiet r ∧ ∀ a, r = .ok a → Assertion.Quiet a) : Assertion.Quiet (fun env => do (← r) env) :=
  fun env => h.1.bind fun a ha => h.2 a ha env

/-- The weakest precondition of a program is given up only where its conditions are. -/
theorem StmtTree.quiet_wp {c : Stmt} {t : Tree Label} (h : StmtTree c t) (names : List String)
    {invariant post : Assertion} (hinv : invariant.Quiet) (hpost : post.Quiet) :
    Quiet (wp names invariant c post) ∧ ∀ a, wp names invariant c post = .ok a → a.Quiet := by
  have hok : ∀ {b : Assertion}, b.Quiet → Quiet (Except.ok b : Except Fault Assertion) ∧
      ∀ a, Except.ok b = (.ok a : Except Fault Assertion) → a.Quiet := by
    intro b hb
    refine ⟨quiet_ok b, fun a ha => ?_⟩
    cases ha
    exact hb
  induction h generalizing post with
  | skip | skipWritten => exact hok hpost
  | assign x he => exact hok fun env => (he.quiet_eval env).bind fun v _ => hpost _
  | seq _ _ iha ihb =>
    obtain ⟨hb, hbpost⟩ := ihb hpost
    refine ⟨hb.bind fun a ha => (iha (hbpost a ha)).1, fun a ha => ?_⟩
    obtain ⟨b, hb, ha⟩ := bind_eq_ok.mp ha
    exact (iha (hbpost b hb)).2 a ha
  | ite hc _ _ iha ihb =>
    exact hok (hc.quiet_branch (quiet_delayed (iha hpost)) (quiet_delayed (ihb hpost)))
  | step hc _ _ iha ihb =>
    refine hok fun env => (hinv env).bind fun kept _ => ?_
    refine (hc.quiet_branch (quiet_delayed (iha hpost)) (quiet_delayed (ihb hpost)) env).bind ?_
    exact fun w _ => Value.quiet_conj _
  | loop hc _ ih =>
    refine hok fun env => (hinv env).bind fun kept _ => (hinv _).bind fun v _ => ?_
    refine (hc.quiet_eval _).bind fun w _ => (Value.quiet_conj _).bind fun entered _ => ?_
    refine (ih hinv).1.bind fun a ha => ((ih hinv).2 a ha _).bind fun u _ => ?_
    refine (Value.quiet_implies _ _).bind fun preserved _ => (hinv _).bind fun v _ => ?_
    refine (hc.quiet_eval _).bind fun w _ => (Value.quiet_negate _).bind fun w _ => ?_
    refine (Value.quiet_conj _).bind fun left _ => (hpost _).bind fun u _ => ?_
    refine (Value.quiet_implies _ _).bind fun sufficient _ => (Value.quiet_conj _).bind fun u _ => ?_
    exact (Value.quiet_forAll _ _).bind fun u _ => Value.quiet_conj _
  | assert hc =>
    refine hok fun env => (hc.quiet_eval env).bind fun v _ => (hpost env).bind fun w _ => ?_
    exact Value.quiet_conj _
  | exit hc =>
    refine hok fun env => (hc.quiet_eval env).bind fun v _ => (Value.quiet_negate v).bind fun u _ => ?_
    exact (hpost env).bind fun w _ => Value.quiet_conj _

namespace Task

variable {c : Stmt} {t : Tree Label} {pre post invariant : Assertion}

theorem quiet_weakest (pre : Assertion) (ht : StmtTree c t) (hpost : post.Quiet) (hinv : invariant.Quiet) :
    Quiet (weakest ⟨t, pre, post, invariant⟩) ∧
      ∀ w, weakest ⟨t, pre, post, invariant⟩ = .ok w → w.2.Quiet := by
  have hwp := fun names => ht.quiet_wp names hinv hpost
  rw [← ht.ofTree_eq] at hwp
  constructor
  · exact (quiet_variableNames t).bind fun names _ => (hwp names).1.bind fun a _ => quiet_ok _
  · intro w hw
    obtain ⟨names, -, hw⟩ := bind_eq_ok.mp hw
    obtain ⟨a, ha, hw⟩ := bind_eq_ok.mp hw
    cases hw
    exact (hwp names).2 a ha

theorem quiet_failure (ht : StmtTree c t) (hpre : pre.Quiet) (hpost : post.Quiet)
    (hinv : invariant.Quiet) : Quiet (failure ⟨t, pre, post, invariant⟩) := by
  obtain ⟨hw, ha⟩ := quiet_weakest pre ht hpost hinv
  refine hw.bind fun w hw => (hpre _).bind fun v _ => (ha w hw _).bind fun u _ => ?_
  refine (Value.quiet_implies _ _).bind fun u _ => (Value.quiet_negate u).bind fun u _ => ?_
  exact Value.quiet_toFormula u

theorem quiet_success (ht : StmtTree c t) (hpre : ∀ names, Quiet (pre (Env.symbolic names)))
    (hpost : post.Quiet) (hinv : invariant.Quiet) : Quiet (success ⟨t, pre, post, invariant⟩) := by
  obtain ⟨hw, ha⟩ := quiet_weakest pre ht hpost hinv
  refine hw.bind fun w hw => (hpre _).bind fun v _ => (ha w hw _).bind fun u _ => ?_
  exact (Value.quiet_conj _).bind fun u _ => Value.quiet_toFormula u

end Task

end Weakest

end While

end WhileSketch
