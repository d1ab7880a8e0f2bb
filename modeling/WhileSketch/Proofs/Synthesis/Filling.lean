import Mathlib
import WhileSketch.Synthesis.Holes
import WhileSketch.Proofs.While.Unrolling

/-! Statements with numbers in place of some of their variables. -/

namespace WhileSketch

open Holes

/-- The variables that are replaced have the values in a state that replace them. -/
def Holes.Filling.Agrees (f : Filling) (s : State) : Prop :=
  ∀ x n, f.lookup x = some n → s x = n

theorem Holes.Filling.Agrees.update {f : Filling} {s : State} (hs : f.Agrees s) {x : String}
    (hx : f.lookup x = none) (n : Int) : f.Agrees (Function.update s x n) := by
  intro y m hy
  have hne : y ≠ x := by
    rintro rfl
    rw [hx] at hy
    cases hy
  rw [Function.update_of_ne hne]
  exact hs y m hy

namespace While

namespace Expr

@[simp] def fill (f : Filling) : Expr → Expr
  | var x =>
    match f.lookup x with
    | some n => num n
    | none => var x
  | operate op a b => operate op (a.fill f) (b.fill f)
  | e => e

variable {f : Filling} {s : State}

theorem isNumber_fill (e : Expr) : (e.fill f).isNumber = e.isNumber := by
  induction e with
  | var x =>
    rw [fill]
    cases f.lookup x <;> rfl
  | operate op a b iha ihb => rw [fill, isNumber, iha, ihb, isNumber]
  | _ => rfl

theorem isTest_fill (e : Expr) : (e.fill f).isTest = e.isTest := by
  cases e with
  | var x =>
    rw [fill]
    cases f.lookup x <;> rfl
  | operate op a b => rw [fill, isTest, isNumber_fill, isNumber_fill, isTest]
  | _ => rfl

theorem vars_fill (e : Expr) :
    (e.fill f).vars = e.vars.filter fun x => (f.lookup x).isNone := by
  induction e with
  | var x =>
    rw [fill]
    cases h : f.lookup x <;> simp [vars, h]
  | operate op a b iha ihb => rw [fill, vars, iha, ihb, vars, List.filter_append]
  | _ => rfl

theorem value_fill (hs : f.Agrees s) (e : Expr) : (e.fill f).value s = e.value s := by
  induction e with
  | var x =>
    rw [fill]
    cases h : f.lookup x with
    | none => rfl
    | some n => exact (hs x n h).symm
  | operate op a b iha ihb => rw [fill, value, iha, ihb, value]
  | _ => rfl

theorem holds_fill (hs : f.Agrees s) {e : Expr} (he : e.isTest = true) :
    (e.fill f).Holds s ↔ e.Holds s := by
  cases e with
  | var _ | num _ | invalid _ => simp [isTest] at he
  | operate op a b => rw [fill, Holds, value_fill hs, value_fill hs, Holds]

end Expr

namespace Stmt

/-- A statement with numbers in place of the variables that have a value. Assigned variables
stay. -/
@[simp] def fill (f : Filling) : Stmt → Stmt
  | assign x e => assign x (e.fill f)
  | seq a b => seq (a.fill f) (b.fill f)
  | ite c a b => ite (c.fill f) (a.fill f) (b.fill f)
  | step c a b => step (c.fill f) (a.fill f) (b.fill f)
  | loop c body => loop (c.fill f) (body.fill f)
  | assert c => assert (c.fill f)
  | exit c => exit (c.fill f)
  | c => c

variable {f : Filling} {c : Stmt}

theorem isSorted_fill (c : Stmt) : (c.fill f).isSorted = c.isSorted := by
  induction c with
  | assign x e => exact e.isNumber_fill
  | seq a b iha ihb => rw [fill, isSorted, iha, ihb, isSorted]
  | ite c a b iha ihb | step c a b iha ihb =>
    rw [fill, isSorted, c.isTest_fill, iha, ihb, isSorted]
  | loop c body ih => rw [fill, isSorted, c.isTest_fill, ih, isSorted]
  | assert c | exit c => exact c.isTest_fill
  | _ => rfl

theorem isLoopFree_fill (c : Stmt) : (c.fill f).isLoopFree = c.isLoopFree := by
  induction c with
  | seq a b iha ihb | ite c a b iha ihb | step c a b iha ihb =>
    rw [fill, isLoopFree, iha, ihb, isLoopFree]
  | _ => rfl

theorem vars_fill (hf : ∀ x ∈ c.assigned, f.lookup x = none) :
    (c.fill f).vars = c.vars.filter fun x => (f.lookup x).isNone := by
  induction c with
  | assign x e =>
    have hx := hf x (by simp [assigned])
    rw [fill, vars, e.vars_fill, vars, List.filter_cons_of_pos (by simp [hx])]
  | seq a b iha ihb =>
    rw [fill, vars, iha fun x hx => hf x (by simp [assigned, hx]),
      ihb fun x hx => hf x (by simp [assigned, hx]), vars, List.filter_append]
  | ite c a b iha ihb | step c a b iha ihb =>
    rw [fill, vars, c.vars_fill, iha fun x hx => hf x (by simp [assigned, hx]),
      ihb fun x hx => hf x (by simp [assigned, hx]), vars, List.filter_append, List.filter_append]
  | loop c body ih => rw [fill, vars, c.vars_fill, ih hf, vars, List.filter_append]
  | assert c | exit c => exact c.vars_fill
  | _ => rfl

section Weakest

variable {names names' : List String} {inv post post' : State → Prop} {s : State}

/-- In a state that agrees with the filling, a filled statement asks for no more than the statement
does: its loops quantify over fewer variables. -/
theorem Weakest.fill (hs : c.isSorted = true) (hf : ∀ x ∈ c.assigned, f.lookup x = none)
    (hloop : c.isLoopFree = true ∨ ∀ x ∈ names', x ∈ names ∧ f.lookup x = none)
    (hpost : ∀ s, f.Agrees s → post s → post' s) (hagree : f.Agrees s)
    (h : c.Weakest names inv post s) : (c.fill f).Weakest names' inv post' s := by
  induction c generalizing post post' s with
  | skip => exact hpost s hagree h
  | assign x e =>
    rw [Stmt.fill, Weakest, e.value_fill hagree]
    exact hpost _ (hagree.update (hf x List.mem_cons_self) _) h
  | seq a b iha ihb =>
    simp only [isSorted, isLoopFree, Bool.and_eq_true] at hs hloop
    obtain ⟨hfa, hfb⟩ := List.forall_mem_append.mp hf
    exact iha hs.1 hfa (hloop.imp_left And.left)
      (fun s' hs' => ihb hs.2 hfb (hloop.imp_left And.right) hpost hs') hagree h
  | ite e a b iha ihb =>
    simp only [isSorted, isLoopFree, Bool.and_eq_true] at hs hloop
    obtain ⟨hfa, hfb⟩ := List.forall_mem_append.mp hf
    rw [Stmt.fill, Weakest, Expr.holds_fill hagree hs.1.1]
    exact h.imp (And.imp_right (iha hs.1.2 hfa (hloop.imp_left And.left) hpost hagree))
      (And.imp_right (ihb hs.2 hfb (hloop.imp_left And.right) hpost hagree))
  | step e a b iha ihb =>
    simp only [isSorted, isLoopFree, Bool.and_eq_true] at hs hloop
    obtain ⟨hfa, hfb⟩ := List.forall_mem_append.mp hf
    rw [Stmt.fill, Weakest, Expr.holds_fill hagree hs.1.1]
    exact h.imp_right (Or.imp
      (And.imp_right (iha hs.1.2 hfa (hloop.imp_left And.left) hpost hagree))
      (And.imp_right (ihb hs.2 hfb (hloop.imp_left And.right) hpost hagree)))
  | loop e body ih =>
    simp only [isSorted, Bool.and_eq_true] at hs
    have hnames := hloop.resolve_left (by simp [isLoopFree])
    refine ⟨h.1, fun t ht => ?_⟩
    have ht' : s.AgreeOutside names t := fun x hx => ht x fun hx' => hx (hnames x hx').1
    have hagree' : f.Agrees t := fun x n hx => by
      rw [ht x fun hx' => by simp [(hnames x hx').2] at hx]
      exact hagree x n hx
    rw [Expr.holds_fill hagree' hs.1]
    obtain ⟨hkept, hleft⟩ := h.2 t ht'
    exact ⟨fun hi => ih hs.2 hf (.inr hnames) (fun _ _ hi => hi) hagree' (hkept hi),
      fun hi => hpost t hagree' (hleft hi)⟩
  | assert e | exit e =>
    rw [Stmt.fill, Weakest, Expr.holds_fill hagree hs]
    exact h.imp_right (hpost s hagree)
  | invalid fault => exact h.elim

theorem fill_eq_self (h : ∀ x ∈ c.vars, f.lookup x = none) : c.fill f = c := by
  have hexpr : ∀ e : Expr, (∀ x ∈ e.vars, f.lookup x = none) → e.fill f = e := by
    intro e he
    induction e with
    | var x => rw [Expr.fill, he x List.mem_cons_self]
    | operate op a b iha ihb =>
      obtain ⟨ha, hb⟩ := List.forall_mem_append.mp he
      rw [Expr.fill, iha ha, ihb hb]
    | _ => rfl
  induction c with
  | assign x e => rw [fill, hexpr e (List.forall_mem_cons.mp h).2]
  | seq a b iha ihb =>
    obtain ⟨ha, hb⟩ := List.forall_mem_append.mp h
    rw [fill, iha ha, ihb hb]
  | ite e a b iha ihb | step e a b iha ihb =>
    obtain ⟨he, hab⟩ := List.forall_mem_append.mp h
    obtain ⟨ha, hb⟩ := List.forall_mem_append.mp hab
    rw [fill, hexpr e he, iha ha, ihb hb]
  | loop e body ih =>
    obtain ⟨he, hbody⟩ := List.forall_mem_append.mp h
    rw [fill, hexpr e he, ih hbody]
  | assert e | exit e => rw [fill, hexpr e h]
  | _ => rfl

/-- No variable that is replaced stands in a loop or behind one. -/
def holesFirst (f : Filling) : Stmt → Bool
  | loop e body => (loop e body).vars.all fun x => (f.lookup x).isNone
  | seq a b => a.holesFirst f && b.holesFirst f &&
      (a.isLoopFree || b.vars.all fun x => (f.lookup x).isNone)
  | ite _ a b | step _ a b => a.holesFirst f && b.holesFirst f
  | _ => true

theorem holesFirst_of_isLoopFree (h : c.isLoopFree = true) : c.holesFirst f = true := by
  induction c with
  | seq a b iha ihb | ite _ a b iha ihb | step _ a b iha ihb =>
    simp only [isLoopFree, Bool.and_eq_true] at h
    simp [holesFirst, iha h.1, ihb h.2, h.1]
  | loop e body _ => simp [isLoopFree] at h
  | _ => rfl

/-- Where holes come before loops, a statement asks for no more than the filled one does. -/
theorem Weakest.of_fill (hs : c.isSorted = true) (hf : ∀ x ∈ c.assigned, f.lookup x = none)
    (hfirst : c.holesFirst f = true)
    (hloop : c.isLoopFree = true ∨ (∀ x ∈ c.vars, f.lookup x = none → x ∈ names') ∧
      LooksAt names' inv ∧ ∀ s s', (∀ x ∈ names', s x = s' x) → post s → post' s')
    (hpost : ∀ s, f.Agrees s → post s → post' s) (hagree : f.Agrees s)
    (h : (c.fill f).Weakest names' inv post s) : c.Weakest names inv post' s := by
  induction c generalizing post post' s with
  | skip => exact hpost s hagree h
  | assign x e =>
    rw [Stmt.fill, Weakest, e.value_fill hagree] at h
    exact hpost _ (hagree.update (hf x List.mem_cons_self) _) h
  | seq a b iha ihb =>
    simp only [isSorted, isLoopFree, holesFirst, Bool.and_eq_true, Bool.or_eq_true, List.all_eq_true,
      Option.isNone_iff_eq_none] at hs hloop hfirst
    obtain ⟨hfa, hfb⟩ := List.forall_mem_append.mp hf
    obtain ⟨⟨hfirsta, hfirstb⟩, hrest⟩ := hfirst
    refine iha hs.1 hfa hfirsta ?_ (fun s' hs' => ihb hs.2 hfb hfirstb ?_ hpost hs') hagree h
    · obtain hfree | hrest := hrest
      · exact .inl hfree
      · refine hloop.imp And.left ?_
        rintro ⟨hvars, hinv, hlooks⟩
        obtain ⟨ha, hb⟩ := List.forall_mem_append.mp hvars
        refine ⟨ha, hinv, fun s s' hs hw => ?_⟩
        rw [fill_eq_self hrest] at hw
        exact hw.congr (fun x hx => hb x hx (hrest x hx)) (fun _ hx => hx) hinv hlooks hs
    · exact hloop.imp And.right (And.imp_left fun hvars => (List.forall_mem_append.mp hvars).2)
  | ite e a b iha ihb =>
    simp only [isSorted, isLoopFree, holesFirst, Bool.and_eq_true] at hs hloop hfirst
    obtain ⟨hfa, hfb⟩ := List.forall_mem_append.mp hf
    rw [Stmt.fill, Weakest, Expr.holds_fill hagree hs.1.1] at h
    refine h.imp (And.imp_right (iha hs.1.2 hfa hfirst.1 ?_ hpost hagree))
      (And.imp_right (ihb hs.2 hfb hfirst.2 ?_ hpost hagree))
    · exact hloop.imp And.left (And.imp_left fun hvars x hx => hvars x (by simp [vars, hx]))
    · exact hloop.imp And.right (And.imp_left fun hvars x hx => hvars x (by simp [vars, hx]))
  | step e a b iha ihb =>
    simp only [isSorted, isLoopFree, holesFirst, Bool.and_eq_true] at hs hloop hfirst
    obtain ⟨hfa, hfb⟩ := List.forall_mem_append.mp hf
    rw [Stmt.fill, Weakest, Expr.holds_fill hagree hs.1.1] at h
    refine h.imp_right (Or.imp (And.imp_right (iha hs.1.2 hfa hfirst.1 ?_ hpost hagree))
      (And.imp_right (ihb hs.2 hfb hfirst.2 ?_ hpost hagree)))
    · exact hloop.imp And.left (And.imp_left fun hvars x hx => hvars x (by simp [vars, hx]))
    · exact hloop.imp And.right (And.imp_left fun hvars x hx => hvars x (by simp [vars, hx]))
  | loop e body _ =>
    have hnone : ∀ x ∈ (loop e body).vars, f.lookup x = none := by
      simpa [holesFirst, Option.isNone_iff_eq_none] using hfirst
    obtain ⟨hvars, hinv, hlooks⟩ := hloop.resolve_left (by simp [isLoopFree])
    rw [fill_eq_self hnone] at h
    exact h.congr (fun x hx => hvars x hx (hnone x hx)) (fun _ hx => hx) hinv hlooks fun _ _ => rfl
  | assert e | exit e =>
    rw [Stmt.fill, Weakest, Expr.holds_fill hagree hs] at h
    exact h.imp_right (hpost s hagree)
  | invalid fault => exact h.elim

/-- In a state that agrees with it, a filling makes no difference to the weakest precondition of a
statement without loops. -/
theorem weakest_fill (hs : c.isSorted = true) (hc : c.isLoopFree = true)
    (hf : ∀ x ∈ c.assigned, f.lookup x = none) (hpost : ∀ s, f.Agrees s → (post s ↔ post' s))
    (hagree : f.Agrees s) :
    (c.fill f).Weakest names inv post s ↔ c.Weakest names' inv post' s :=
  ⟨Weakest.of_fill hs hf (holesFirst_of_isLoopFree hc) (.inl hc) (fun s hs => (hpost s hs).mp) hagree,
    Weakest.fill hs hf (.inl hc) (fun s hs => (hpost s hs).mpr) hagree⟩

end Weakest

theorem fill_steps (f : Filling) (c : Expr) (body : Stmt) (n : Nat) :
    (steps c body n).fill f = steps (c.fill f) (body.fill f) n := by
  induction n with
  | zero => rfl
  | succ n ih => rw [steps, fill, ih, steps]; rfl

/-- It makes no difference whether loops are unrolled or variables replaced first. -/
theorem fill_unrolled (f : Filling) (limit : Int) (c : Stmt) :
    (c.unrolled limit).fill f = (c.fill f).unrolled limit := by
  induction c with
  | seq a b iha ihb | ite c a b iha ihb | step c a b iha ihb =>
    rw [unrolled, fill, iha, ihb, fill, unrolled]
  | loop c body _ =>
    rw [unrolled, fill, fill_steps, fill, unrolled]
    rfl
  | _ => rfl

end Stmt

section Trees

variable {f : Filling}

theorem fillTree_word {w : String} (hw : w ≠ "id") (ts : List (Tree Label)) :
    fillTree f (Tree.word w ts) = Tree.word w (fillTrees f ts) := by
  have hid : Label.isWord (.word w) "id" = false := by simpa [Label.isWord, Label.text?] using hw
  simp [Tree.word, fillTree, hid]

theorem ExprTree.fill {e : Expr} {t : Tree Label} (h : ExprTree e t) :
    ExprTree (e.fill f) (fillTree f t) := by
  induction h with
  | var x =>
    rw [Expr.fill]
    cases hx : f.lookup x with
    | none =>
      have hkeep : fillTree f (Tree.word "id" [Tree.word x []]) = Tree.word "id" [Tree.word x []] := by
        simp [Tree.word, fillTree, Label.isWord, Label.text?, hx]
      rw [hkeep]
      exact .var x
    | some n =>
      have hput : fillTree f (Tree.word "id" [Tree.word x []]) =
          Tree.word "num" [Tree.leaf (.num n)] := by
        simp [Tree.word, Tree.leaf, fillTree, Label.isWord, Label.text?, hx]
      rw [hput]
      exact .num n
  | num n => exact .num n
  | hole => exact .hole
  | operate op _ _ iha ihb =>
    rw [fillTree_word (programSign_not_word op "id" (by simp))]
    exact .operate op iha ihb

theorem StmtTree.fill {c : Stmt} {t : Tree Label} (h : StmtTree c t)
    (hf : ∀ x ∈ c.assigned, f.lookup x = none) : StmtTree (c.fill f) (fillTree f t) := by
  induction h with
  | skip => exact .skip
  | skipWritten => exact .skipWritten
  | assign x he =>
    have hx : fillTree f (Tree.word "id" [Tree.word x []]) = Tree.word "id" [Tree.word x []] := by
      simp [Tree.word, fillTree, Label.isWord, Label.text?, hf x (by simp [Stmt.assigned])]
    rw [fillTree_word (by decide), fillTrees, fillTrees, fillTrees, hx]
    exact .assign x he.fill
  | seq _ _ iha ihb =>
    simp only [Stmt.assigned, List.mem_append] at hf
    rw [fillTree_word (by decide)]
    exact .seq (iha fun x hx => hf x (.inl hx)) (ihb fun x hx => hf x (.inr hx))
  | ite hc _ _ iha ihb =>
    simp only [Stmt.assigned, List.mem_append] at hf
    rw [fillTree_word (by decide)]
    exact .ite hc.fill (iha fun x hx => hf x (.inl hx)) (ihb fun x hx => hf x (.inr hx))
  | step hc _ _ iha ihb =>
    simp only [Stmt.assigned, List.mem_append] at hf
    rw [fillTree_word (by decide)]
    exact .step hc.fill (iha fun x hx => hf x (.inl hx)) (ihb fun x hx => hf x (.inr hx))
  | loop hc _ ih =>
    rw [fillTree_word (by decide)]
    exact .loop hc.fill (ih hf)
  | assert hc =>
    rw [fillTree_word (by decide)]
    exact .assert hc.fill
  | exit hc =>
    rw [fillTree_word (by decide)]
    exact .exit hc.fill

end Trees

end While

end WhileSketch
