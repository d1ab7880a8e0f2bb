import Mathlib
import WhileSketch.Synthesis.Session
import WhileSketch.Proofs.While.RemainingLoops

/-! Programs without their assertions run as if each assertion did nothing. Where a branch of a
condition or the body of a loop has nothing but assertions, nothing is left in its place, and the
program cannot be printed. -/

namespace WhileSketch.While

namespace Stmt

/-- One or several assertions and nothing else. -/
def onlyAsserts : Stmt → Bool
  | assert _ => true
  | seq a b => a.onlyAsserts && b.onlyAsserts
  | _ => false

/-- Some branch of a condition or some body of a loop has nothing but assertions. -/
def isHollow : Stmt → Bool
  | seq a b => a.isHollow || b.isHollow
  | ite _ a b | step _ a b => a.onlyAsserts || b.onlyAsserts || a.isHollow || b.isHollow
  | loop _ body => body.onlyAsserts || body.isHollow
  | _ => false

def assertsSkipped : Stmt → Stmt
  | assert _ => skip
  | seq a b => seq a.assertsSkipped b.assertsSkipped
  | ite c a b => ite c a.assertsSkipped b.assertsSkipped
  | step c a b => step c a.assertsSkipped b.assertsSkipped
  | loop c body => loop c body.assertsSkipped
  | a => a

/-- A statement whose assertions are taken out of its sequences. -/
def stripped : Stmt → Stmt
  | assert _ => skip
  | seq a b =>
    if a.onlyAsserts then b.stripped
    else if b.onlyAsserts then a.stripped
    else seq a.stripped b.stripped
  | ite c a b => ite c a.stripped b.stripped
  | step c a b => step c a.stripped b.stripped
  | loop c body => loop c body.stripped
  | a => a

theorem isHollow_of_onlyAsserts {a : Stmt} (h : a.onlyAsserts = true) : a.isHollow = false := by
  induction a with
  | seq a b iha ihb =>
    rw [onlyAsserts, Bool.and_eq_true] at h
    rw [isHollow, iha h.1, ihb h.2]
    rfl
  | assert c => rfl
  | _ => cases h

theorem mem_vars_of_mem_stripped {x : String} {a : Stmt} (h : x ∈ a.stripped.vars) :
    x ∈ a.vars := by
  induction a with
  | seq a b iha ihb =>
    rw [stripped] at h
    rw [vars, List.mem_append]
    split_ifs at h
    · exact .inr (ihb h)
    · exact .inl (iha h)
    · rw [vars, List.mem_append] at h
      exact h.imp iha ihb
  | ite c a b iha ihb | step c a b iha ihb =>
    rw [stripped, vars, List.mem_append, List.mem_append] at h
    rw [vars, List.mem_append, List.mem_append]
    exact h.imp_right (Or.imp iha ihb)
  | loop c body ih =>
    rw [stripped, vars, List.mem_append] at h
    rw [vars, List.mem_append]
    exact h.imp_right ih
  | assert c => cases h
  | _ => exact h

theorem Legible.stripped {a : Stmt} (h : a.Legible) : a.stripped.Legible := by
  induction a with
  | seq a b iha ihb =>
    obtain ⟨ha, hb⟩ := legible_seq.mp h
    rw [Stmt.stripped]
    split_ifs
    · exact ihb hb
    · exact iha ha
    · exact legible_seq.mpr ⟨iha ha, ihb hb⟩
  | ite c a b iha ihb =>
    obtain ⟨hc, ha, hb⟩ := legible_ite.mp h
    exact legible_ite.mpr ⟨hc, iha ha, ihb hb⟩
  | step c a b iha ihb =>
    obtain ⟨hc, ha, hb⟩ := legible_step.mp h
    exact legible_step.mpr ⟨hc, iha ha, ihb hb⟩
  | loop c body ih =>
    obtain ⟨hc, hbody⟩ := legible_loop.mp h
    exact legible_loop.mpr ⟨hc, ih hbody⟩
  | assert c => exact legible_skip
  | _ => exact h

theorem count_assert_stripped (a : Stmt) : a.stripped.heads.count "assert" = 0 := by
  induction a with
  | seq a b iha ihb =>
    rw [stripped]
    split_ifs
    · exact ihb
    · exact iha
    · simp [heads, iha, ihb]
  | ite c a b iha ihb | step c a b iha ihb => simp [stripped, heads, iha, ihb]
  | loop c body ih => simp [stripped, heads, ih]
  | _ => rfl

theorem count_assert_chained (a : Stmt) :
    a.chained.heads.count "assert" = a.heads.count "assert" := by
  have hfollowed : ∀ a b : Stmt, (a.followedBy b).heads.count "assert" =
      a.heads.count "assert" + b.heads.count "assert" :=
    followedBy_eq (f := fun a => a.heads.count "assert") (fun a b => by simp [heads]) Nat.add_assoc
  induction a with
  | seq a b iha ihb => simp [hfollowed, heads, iha, ihb]
  | ite c a b iha ihb | step c a b iha ihb => simp [heads, iha, ihb]
  | loop c body ih => simp [heads, ih]
  | _ => rfl

end Stmt

section Meaning

/-- A meaning of statements that comes from the meanings of their parts, and for which it makes no
difference how sequences hang and whether something in them does nothing. -/
structure Compositional {α : Type*} (f : Stmt → α) : Prop where
  seq : ∀ {a a' b b'}, f a = f a' → f b = f b' → f (.seq a b) = f (.seq a' b')
  ite : ∀ {c a a' b b'}, f a = f a' → f b = f b' → f (.ite c a b) = f (.ite c a' b')
  step : ∀ {c a a' b b'}, f a = f a' → f b = f b' → f (.step c a b) = f (.step c a' b')
  loop : ∀ {c a a'}, f a = f a' → f (.loop c a) = f (.loop c a')
  assoc : ∀ a b d, f (.seq (.seq a b) d) = f (.seq a (.seq b d))
  skip_seq : ∀ a, f (.seq .skip a) = f a
  seq_skip : ∀ a, f (.seq a .skip) = f a

namespace Compositional

variable {α : Type*} {f : Stmt → α}

theorem followedBy_eq (hf : Compositional f) (a b : Stmt) : f (a.followedBy b) = f (.seq a b) := by
  induction a with
  | seq x y _ ih => rw [Stmt.followedBy, hf.seq rfl ih, hf.assoc]
  | _ => rfl

theorem chained_eq (hf : Compositional f) (a : Stmt) : f a.chained = f a := by
  induction a with
  | seq a b iha ihb => rw [Stmt.chained, hf.followedBy_eq, hf.seq iha ihb]
  | ite c a b iha ihb => exact hf.ite iha ihb
  | step c a b iha ihb => exact hf.step iha ihb
  | loop c body ih => exact hf.loop ih
  | _ => rfl

theorem onlyAsserts_eq (hf : Compositional f) {a : Stmt} (ha : a.onlyAsserts = true) :
    f a.assertsSkipped = f .skip := by
  induction a with
  | seq a b iha ihb =>
    rw [Stmt.onlyAsserts, Bool.and_eq_true] at ha
    rw [Stmt.assertsSkipped, hf.seq (iha ha.1) (ihb ha.2), hf.skip_seq]
  | assert c => rfl
  | _ => cases ha

/-- Without its assertions a statement means the same as with assertions that do nothing. -/
theorem stripped_eq (hf : Compositional f) (a : Stmt) : f a.stripped = f a.assertsSkipped := by
  induction a with
  | seq a b iha ihb =>
    rw [Stmt.stripped, Stmt.assertsSkipped]
    split_ifs with ha hb
    · rw [hf.seq (hf.onlyAsserts_eq ha) rfl, hf.skip_seq, ihb]
    · rw [hf.seq rfl (hf.onlyAsserts_eq hb), hf.seq_skip, iha]
    · exact hf.seq iha ihb
  | ite c a b iha ihb => exact hf.ite iha ihb
  | step c a b iha ihb => exact hf.step iha ihb
  | loop c body ih => exact hf.loop ih
  | _ => rfl

end Compositional

variable {V : Type*}

theorem Ends.loop_mono {r : Reading V} {c : Expr} {a a' : Stmt} {n : ℕ∞} {s s' : String → V}
    (ha : ∀ n s s', Ends r n a s s' → Ends r n a' s s') (h : Ends r n (.loop c a) s s') :
    Ends r n (.loop c a') s s' := by
  generalize hb : Stmt.loop c a = b at h
  induction h with
  | loopDone hc =>
    cases hb
    exact .loopDone hc
  | loopNext hn hc hbody _ _ ih =>
    cases hb
    exact .loopNext hn hc (ha _ _ _ hbody) (ih rfl)
  | _ => cases hb

theorem Run.loop_mono {inv : State → Prop} {c : Expr} {a a' : Stmt} {n : ℕ∞} {s : State}
    {o : Outcome} (ha : ∀ n s o, Run inv n a s o → Run inv n a' s o)
    (h : Run inv n (.loop c a) s o) : Run inv n (.loop c a') s o := by
  generalize hb : Stmt.loop c a = b at h
  induction h with
  | loopDone hc =>
    cases hb
    exact .loopDone hc
  | loopNext hn hc hbody _ _ ih =>
    cases hb
    exact .loopNext hn hc (ha _ _ _ hbody) (ih rfl)
  | loopFailed hn hc hbody =>
    cases hb
    exact .loopFailed hn hc (ha _ _ _ hbody)
  | _ => cases hb

/-- In an order, it is enough that a statement means more when its parts do. -/
theorem Compositional.of_le {α : Type*} [PartialOrder α] {f : Stmt → α}
    (hseq : ∀ {a a' b b'}, f a ≤ f a' → f b ≤ f b' → f (.seq a b) ≤ f (.seq a' b'))
    (hite : ∀ {c a a' b b'}, f a ≤ f a' → f b ≤ f b' → f (.ite c a b) ≤ f (.ite c a' b'))
    (hstep : ∀ {c a a' b b'}, f a ≤ f a' → f b ≤ f b' → f (.step c a b) ≤ f (.step c a' b'))
    (hloop : ∀ {c a a'}, f a ≤ f a' → f (.loop c a) ≤ f (.loop c a'))
    (hassoc : ∀ a b d, f (.seq (.seq a b) d) = f (.seq a (.seq b d)))
    (hskip : ∀ a, f (.seq .skip a) = f a) (hskip' : ∀ a, f (.seq a .skip) = f a) :
    Compositional f where
  seq ha hb := (hseq ha.le hb.le).antisymm (hseq ha.ge hb.ge)
  ite ha hb := (hite ha.le hb.le).antisymm (hite ha.ge hb.ge)
  step ha hb := (hstep ha.le hb.le).antisymm (hstep ha.ge hb.ge)
  loop ha := (hloop ha.le).antisymm (hloop ha.ge)
  assoc := hassoc
  skip_seq := hskip
  seq_skip := hskip'

theorem compositional_ends (r : Reading V) : Compositional fun a n s s' => Ends r n a s s' := by
  refine .of_le ?_ ?_ ?_ ?_ (fun a b d => ?_) (fun a => ?_) fun a => ?_
  · intro a a' b b' ha hb n s s' h
    cases h with
    | seq h h' => exact .seq (ha _ _ _ h) (hb _ _ _ h')
  · intro c a a' b b' ha hb n s s' h
    cases h with
    | iteTrue hc h => exact .iteTrue hc (ha _ _ _ h)
    | iteFalse hc h => exact .iteFalse hc (hb _ _ _ h)
  · intro c a a' b b' ha hb n s s' h
    cases h with
    | stepTrue hc h => exact .stepTrue hc (ha _ _ _ h)
    | stepFalse hc h => exact .stepFalse hc (hb _ _ _ h)
  · exact fun ha n s s' h => h.loop_mono ha
  · funext n s s'
    refine propext ⟨fun h => ?_, fun h => ?_⟩
    · cases h with
      | seq hab hd =>
        cases hab with
        | seq ha hb => exact .seq ha (.seq hb hd)
    · cases h with
      | seq ha hbd =>
        cases hbd with
        | seq hb hd => exact .seq (.seq ha hb) hd
  · funext n s s'
    refine propext ⟨fun h => ?_, fun h => .seq .skip h⟩
    cases h with
    | seq hskip ha =>
      cases hskip
      exact ha
  · funext n s s'
    refine propext ⟨fun h => ?_, fun h => .seq h .skip⟩
    cases h with
    | seq ha hskip =>
      cases hskip
      exact ha

theorem compositional_run (inv : State → Prop) :
    Compositional fun a n s o => Run inv n a s o := by
  refine .of_le ?_ ?_ ?_ ?_ (fun a b d => ?_) (fun a => ?_) fun a => ?_
  · intro a a' b b' ha hb n s o h
    cases h with
    | seq h h' => exact .seq (ha _ _ _ h) (hb _ _ _ h')
    | seqFailed h => exact .seqFailed (ha _ _ _ h)
  · intro c a a' b b' ha hb n s o h
    cases h with
    | iteTrue hc h => exact .iteTrue hc (ha _ _ _ h)
    | iteFalse hc h => exact .iteFalse hc (hb _ _ _ h)
  · intro c a a' b b' ha hb n s o h
    cases h with
    | stepTrue hi hc h => exact .stepTrue hi hc (ha _ _ _ h)
    | stepFalse hi hc h => exact .stepFalse hi hc (hb _ _ _ h)
    | stepFailed hi => exact .stepFailed hi
  · exact fun ha n s o h => h.loop_mono ha
  · funext n s o
    refine propext ⟨fun h => ?_, fun h => ?_⟩
    · cases h with
      | seq hab hd =>
        cases hab with
        | seq ha hb => exact .seq ha (.seq hb hd)
      | seqFailed hab =>
        cases hab with
        | seq ha hb => exact .seq ha (.seqFailed hb)
        | seqFailed ha => exact .seqFailed ha
    · cases h with
      | seq ha hbd =>
        cases hbd with
        | seq hb hd => exact .seq (.seq ha hb) hd
        | seqFailed hb => exact .seqFailed (.seq ha hb)
      | seqFailed ha => exact .seqFailed (.seqFailed ha)
  · funext n s o
    refine propext ⟨fun h => ?_, fun h => .seq .skip h⟩
    cases h with
    | seq hskip ha =>
      cases hskip
      exact ha
    | seqFailed hskip => cases hskip
  · funext n s o
    refine propext ⟨fun h => ?_, fun h => ?_⟩
    · cases h with
      | seq ha hskip =>
        cases hskip
        exact ha
      | seqFailed ha => exact ha
    · cases o with
      | done s' => exact .seq h .skip
      | failed => exact .seqFailed h

end Meaning

section Printing

theorem bind_noSuchItem {α β : Type} {x : Except Fault α} {f : α → Except Fault β}
    (hx : FailsOnly (Eq .noSuchItem) x) (hf : ∀ a, x = .ok a → f a = .error .noSuchItem) :
    x >>= f = .error .noSuchItem := by
  cases x with
  | error e =>
    rw [← hx e rfl]
    rfl
  | ok a => exact hf a rfl

theorem printEach_eq (ts : List (Tree Label)) : printEach ts = ts.map print := by
  induction ts with
  | nil => rfl
  | cons t ts ih => rw [printEach, ih, List.map_cons]

/-- A program of which a part is not there, or cannot be printed for that reason, cannot be
printed. -/
theorem print_noSuchItem {w : String} {k : Nat} {ts : List (Tree Label)}
    (hw : (w, k) ∈ [(";", 2), ("if", 3), ("if_unrolled", 3), ("while", 2)])
    (hts : ∀ t ∈ ts, FailsOnly (Eq .noSuchItem) (print t))
    (hlack : ¬ ∀ i < k, ∃ t l, ts[i]? = some t ∧ print t = .ok l) :
    print (Tree.word w ts) = .error .noSuchItem := by
  have hparts : ∀ x ∈ ts.map print, FailsOnly (Eq .noSuchItem) x := by simpa using hts
  rw [← printEach_eq] at hparts
  have hpart : ∀ i, FailsOnly (Eq .noSuchItem) (printedPart (printEach ts) i) := fun i =>
    (failsOnly_itemAt rfl _ i).bind fun x hx => (FailsOnly.item hparts hx).bind fun l _ =>
      failsOnly_ok _
  have hthere : ∀ {i s}, printedPart (printEach ts) i = .ok s →
      ∃ t l, ts[i]? = some t ∧ print t = .ok l := by
    intro i s h
    obtain ⟨x, hx, h⟩ := bind_eq_ok.mp h
    obtain ⟨l, rfl, -⟩ := bind_eq_ok.mp h
    rw [itemAt_eq_ok, printEach_eq, List.getElem?_map, Option.map_eq_some_iff] at hx
    obtain ⟨t, ht, htl⟩ := hx
    exact ⟨t, l, ht, htl⟩
  have htwo : ∀ g : String → String → Label, k = 2 → (do
      return g (← printedPart (printEach ts) 0) (← printedPart (printEach ts) 1)) =
        .error .noSuchItem := by
    rintro g rfl
    refine bind_noSuchItem (hpart 0) fun x hx => bind_noSuchItem (hpart 1) fun y hy => ?_
    exact (hlack fun i hi => by interval_cases i; exacts [hthere hx, hthere hy]).elim
  have hthree : ∀ g : String → String → String → Label, k = 3 → (do
      return g (← printedPart (printEach ts) 0) (← printedPart (printEach ts) 1)
        (← printedPart (printEach ts) 2)) = .error .noSuchItem := by
    rintro g rfl
    refine bind_noSuchItem (hpart 0) fun x hx => bind_noSuchItem (hpart 1) fun y hy =>
      bind_noSuchItem (hpart 2) fun z hz => ?_
    exact (hlack fun i hi => by interval_cases i; exacts [hthere hx, hthere hy, hthere hz]).elim
  simp only [List.mem_cons, Prod.mk.injEq, List.not_mem_nil, or_false] at hw
  obtain ⟨rfl, hk⟩ | ⟨rfl, hk⟩ | ⟨rfl, hk⟩ | ⟨rfl, hk⟩ := hw
  · exact htwo (fun x y => .word (x ++ " ; " ++ y)) hk
  · exact hthree (fun x y z => .word ("if " ++ x ++ " then (" ++ y ++ ") else (" ++ z ++ ")")) hk
  · exact hthree (fun x y z =>
      .word ("if_unrolled " ++ x ++ " then (" ++ y ++ ") else (" ++ z ++ ")")) hk
  · exact htwo (fun x y => .word ("while " ++ x ++ " do (" ++ y ++ ")")) hk

end Printing

section Trees

theorem withoutAssertions_word {w : String} (hw : w ≠ "assert") (hseq : w ≠ ";")
    (ts : List (Tree Label)) :
    withoutAssertions (Tree.word w ts) = some (Tree.word w (withoutAssertionsEach ts)) := by
  have hassert : Label.isWord (.word w) "assert" = false := by
    simpa [Label.isWord, Label.text?] using hw
  have hsequence : Label.isWord (.word w) ";" = false := by
    simpa [Label.isWord, Label.text?] using hseq
  rw [Tree.word, withoutAssertions, hassert, hsequence]
  rfl

theorem withoutAssertions_seq (t u : Tree Label) :
    withoutAssertions (Tree.word ";" [t, u]) =
      Option.merge (fun t u => Tree.word ";" [t, u]) (withoutAssertions t)
        (withoutAssertions u) := by
  rw [Tree.word, withoutAssertions]
  simp only [withoutAssertionsEach]
  cases withoutAssertions t <;> cases withoutAssertions u <;> rfl

theorem ExprTree.withoutAssertions_eq {e : Expr} {t : Tree Label} (h : ExprTree e t)
    (hvars : ∀ x ∈ e.vars, isName x = true) : withoutAssertions t = some t := by
  induction h with
  | var x =>
    have hx : isName x = true := hvars x (by simp [Expr.vars])
    have hassert : x ≠ "assert" := by
      rintro rfl
      exact absurd hx (by decide)
    have hseq : x ≠ ";" := by
      rintro rfl
      exact absurd hx (by decide)
    rw [withoutAssertions_word (by decide) (by decide), withoutAssertionsEach,
      withoutAssertions_word hassert hseq]
    rfl
  | num n => rfl
  | hole => rfl
  | operate op _ _ iha ihb =>
    simp only [Expr.vars, List.mem_append, or_imp, forall_and] at hvars
    rw [withoutAssertions_word (programSign_not_word op "assert" (by simp))
      (programSign_not_word op ";" (by simp)), withoutAssertionsEach, iha hvars.1,
      withoutAssertionsEach, ihb hvars.2]
    rfl

theorem withoutAssertionsEach_three {r t u : Tree Label} (hr : withoutAssertions r = some r) :
    withoutAssertionsEach [r, t, u] =
      r :: ((withoutAssertions t).toList ++ (withoutAssertions u).toList) := by
  simp [withoutAssertionsEach, hr]

theorem ExprTree.failsOnly_print {P : Fault → Prop} {e : Expr} {t : Tree Label}
    (h : ExprTree e t) : FailsOnly P (print t) := by
  rw [h.print_eq]
  exact failsOnly_ok _

/-- What is left of a statement: nothing, a tree that lacks a branch or a body, or a program. -/
inductive Remains (a : Stmt) : Option (Tree Label) → Prop
  | nothing (ha : a.onlyAsserts = true) : Remains a none
  | hollow {u : Tree Label} (ha : a.isHollow = true) (hu : print u = .error .noSuchItem) :
      Remains a (some u)
  | program {u : Tree Label} (ha : a.onlyAsserts = false) (hh : a.isHollow = false)
      (hu : StmtTree a.stripped u) : Remains a (some u)

namespace Remains

variable {a b : Stmt} {c : Expr} {o o' : Option (Tree Label)} {r u : Tree Label} {l : Label}

theorem failsOnly_print (h : Remains a (some u)) : FailsOnly (Eq .noSuchItem) (print u) := by
  cases h with
  | hollow _ hu =>
    rw [hu]
    intro e he
    cases he
    rfl
  | program _ _ hu =>
    rw [hu.print_eq]
    exact failsOnly_ok _

theorem of_print (h : Remains a (some u)) (hl : print u = .ok l) :
    a.onlyAsserts = false ∧ a.isHollow = false := by
  cases h with
  | hollow _ hu =>
    rw [hu] at hl
    cases hl
  | program ha hh _ => exact ⟨ha, hh⟩

theorem exists_stmtTree (h : Remains a o) (ha : a.onlyAsserts = false) (hh : a.isHollow = false) :
    ∃ u, o = some u ∧ StmtTree a.stripped u := by
  cases h with
  | nothing ha' => simp [ha] at ha'
  | hollow hh' _ => simp [hh] at hh'
  | program _ _ hu => exact ⟨_, rfl, hu⟩

theorem failsOnly_print_of_mem (h : Remains a o) : ∀ u ∈ o.toList,
    FailsOnly (Eq .noSuchItem) (print u) := by
  intro u hu
  rw [Option.mem_toList] at hu
  exact (hu ▸ h).failsOnly_print

theorem seq (ha : Remains a o) (hb : Remains b o') :
    Remains (.seq a b) (Option.merge (fun t u => Tree.word ";" [t, u]) o o') := by
  have hprint : ∀ {t u}, o = some t → o' = some u → (Stmt.seq a b).isHollow = true →
      print (Tree.word ";" [t, u]) = .error .noSuchItem := by
    rintro t u rfl rfl hhollow
    refine print_noSuchItem (k := 2) (by simp)
      (by simpa using ⟨ha.failsOnly_print, hb.failsOnly_print⟩) fun hall => ?_
    obtain ⟨t', l, ht, hl⟩ := hall 0 (by decide)
    obtain ⟨u', l', hu, hl'⟩ := hall 1 (by decide)
    cases ht
    cases hu
    simp [Stmt.isHollow, ha.of_print hl, hb.of_print hl'] at hhollow
  cases ha with
  | nothing ha =>
    have hstripped : (Stmt.seq a b).stripped = b.stripped := if_pos ha
    cases hb with
    | nothing hb => exact .nothing (by simp [Stmt.onlyAsserts, ha, hb])
    | hollow hb hu => exact .hollow (by simp [Stmt.isHollow, hb]) hu
    | program hb hh hu =>
      have hha := Stmt.isHollow_of_onlyAsserts ha
      exact .program (by simp [Stmt.onlyAsserts, hb]) (by simp [Stmt.isHollow, hha, hh])
        (hstripped ▸ hu)
  | hollow ha hu =>
    have hhollow : (Stmt.seq a b).isHollow = true := by simp [Stmt.isHollow, ha]
    cases hb with
    | nothing hb => exact .hollow hhollow hu
    | hollow _ _ | program _ _ _ => exact .hollow hhollow (hprint rfl rfl hhollow)
  | program ha hh hu =>
    have hnot : ¬ a.onlyAsserts = true := by simp [ha]
    have honly : (Stmt.seq a b).onlyAsserts = false := by simp [Stmt.onlyAsserts, ha]
    cases hb with
    | nothing hb =>
      have hhb := Stmt.isHollow_of_onlyAsserts hb
      have hstripped : (Stmt.seq a b).stripped = a.stripped := by
        rw [Stmt.stripped, if_neg hnot, if_pos hb]
      exact .program honly (by simp [Stmt.isHollow, hh, hhb]) (hstripped ▸ hu)
    | hollow hb _ =>
      have hhollow : (Stmt.seq a b).isHollow = true := by simp [Stmt.isHollow, hb]
      exact .hollow hhollow (hprint rfl rfl hhollow)
    | program hb hh' hu' =>
      have hstripped : (Stmt.seq a b).stripped = .seq a.stripped b.stripped := by
        rw [Stmt.stripped, if_neg hnot, if_neg (by simp [hb])]
      exact .program honly (by simp [Stmt.isHollow, hh, hh']) (hstripped ▸ .seq hu hu')

/-- What has a condition and two branches lacks nothing if both branches are left as programs. -/
theorem conditional {w : String} (hw : w = "if" ∨ w = "if_unrolled") {k : Stmt}
    (hr : ExprTree c r) (ha : Remains a o) (hb : Remains b o') (honly : k.onlyAsserts = false)
    (hhollow : k.isHollow = (a.onlyAsserts || b.onlyAsserts || a.isHollow || b.isHollow))
    (hk : ∀ {t u}, StmtTree a.stripped t → StmtTree b.stripped u →
      StmtTree k.stripped (Tree.word w [r, t, u])) :
    Remains k (some (Tree.word w (r :: (o.toList ++ o'.toList)))) := by
  cases hlacks : k.isHollow with
  | true =>
    refine .hollow hlacks (print_noSuchItem (k := 3) (by simpa using hw)
      (List.forall_mem_cons.mpr ⟨hr.failsOnly_print, List.forall_mem_append.mpr
        ⟨ha.failsOnly_print_of_mem, hb.failsOnly_print_of_mem⟩⟩) fun hall => ?_)
    obtain ⟨t, l, ht, hl⟩ := hall 1 (by decide)
    obtain ⟨u, l', hu, hl'⟩ := hall 2 (by decide)
    obtain ⟨rfl, rfl⟩ : o = some t ∧ o' = some u := by
      cases o <;> cases o' <;> simp_all
    simp [hhollow, ha.of_print hl, hb.of_print hl'] at hlacks
  | false =>
    have hparts := hlacks
    simp only [hhollow, Bool.or_eq_false_iff] at hparts
    obtain ⟨⟨⟨ha', hb'⟩, hha⟩, hhb⟩ := hparts
    obtain ⟨t, rfl, ht⟩ := ha.exists_stmtTree ha' hha
    obtain ⟨u, rfl, hu⟩ := hb.exists_stmtTree hb' hhb
    exact .program honly hlacks (hk ht hu)

theorem loop (hr : ExprTree c r) (ha : Remains a o) :
    Remains (.loop c a) (some (Tree.word "while" (r :: o.toList))) := by
  cases hlacks : (Stmt.loop c a).isHollow with
  | true =>
    refine .hollow hlacks (print_noSuchItem (k := 2) (by simp)
      (List.forall_mem_cons.mpr ⟨hr.failsOnly_print, ha.failsOnly_print_of_mem⟩) fun hall => ?_)
    obtain ⟨t, l, ht, hl⟩ := hall 1 (by decide)
    obtain rfl : o = some t := by
      cases o <;> simp_all
    simp [Stmt.isHollow, ha.of_print hl] at hlacks
  | false =>
    obtain ⟨ha', hha⟩ := Bool.or_eq_false_iff.mp hlacks
    obtain ⟨t, rfl, ht⟩ := ha.exists_stmtTree ha' hha
    exact .program rfl hlacks (.loop hr ht)

end Remains

/-- Without its assertions, the tree of a statement is what is left of the statement. -/
theorem StmtTree.remains {a : Stmt} {t : Tree Label} (h : StmtTree a t)
    (hvars : ∀ x ∈ a.vars, isName x = true) : Remains a (withoutAssertions t) := by
  induction h with
  | skip => exact .program rfl rfl .skip
  | skipWritten => exact .program rfl rfl .skipWritten
  | assign x he =>
    obtain ⟨hx, he'⟩ := List.forall_mem_cons.mp hvars
    have hname := (ExprTree.var x).withoutAssertions_eq (by simpa [Expr.vars] using hx)
    rw [withoutAssertions_word (by decide) (by decide), withoutAssertionsEach, hname,
      withoutAssertionsEach, he.withoutAssertions_eq he']
    exact .program rfl rfl (.assign x he)
  | seq _ _ iha ihb =>
    obtain ⟨ha, hb⟩ := List.forall_mem_append.mp hvars
    rw [withoutAssertions_seq]
    exact (iha ha).seq (ihb hb)
  | ite hc _ _ iha ihb =>
    obtain ⟨hc', hab⟩ := List.forall_mem_append.mp hvars
    obtain ⟨ha, hb⟩ := List.forall_mem_append.mp hab
    rw [withoutAssertions_word (by decide) (by decide), withoutAssertionsEach_three
      (hc.withoutAssertions_eq hc')]
    exact .conditional (.inl rfl) hc (iha ha) (ihb hb) rfl rfl (.ite hc)
  | step hc _ _ iha ihb =>
    obtain ⟨hc', hab⟩ := List.forall_mem_append.mp hvars
    obtain ⟨ha, hb⟩ := List.forall_mem_append.mp hab
    rw [withoutAssertions_word (by decide) (by decide), withoutAssertionsEach_three
      (hc.withoutAssertions_eq hc')]
    exact .conditional (.inr rfl) hc (iha ha) (ihb hb) rfl rfl (.step hc)
  | @loop c body r t hc _ ih =>
    obtain ⟨hc', hbody⟩ := List.forall_mem_append.mp hvars
    have hparts : withoutAssertionsEach [r, t] = r :: (withoutAssertions t).toList := by
      simp [withoutAssertionsEach, hc.withoutAssertions_eq hc']
    rw [withoutAssertions_word (by decide) (by decide), hparts]
    exact .loop hc (ih hbody)
  | assert hc => exact .nothing rfl
  | exit hc =>
    rw [withoutAssertions_word (by decide) (by decide), withoutAssertionsEach,
      hc.withoutAssertions_eq hvars]
    exact .program rfl rfl (.exit hc)

end Trees

theorem result_removeAssertions {text : String} {t : Tree Label} (h : parse text = .ok (some t)) :
    (Sketch.removeAssertions text).result =
      (withoutAssertions t).mapM fun u => do return (← print u).plain := by
  have hread : Sketch.removeAssertions text = (do
      Transcript.say ("ast_old: " ++ t.plain)
      Transcript.say ("ast_new: " ++ ((withoutAssertions t).map Tree.plain).getD "None")
      (withoutAssertions t).mapM fun u => do return (← print u).plain) := by
    rw [Sketch.removeAssertions, h]
    rfl
  rw [hread]
  cases withoutAssertions t with
  | none => rfl
  | some u =>
    rw [Option.mapM_some, Option.mapM_some]
    cases print u <;> rfl

variable {V : Type*}

/-- A program from which the assertions are taken out. Nothing is left of assertions alone. Where a
branch of a condition or the body of a loop has nothing else, the text cannot be made. In all other
cases the text is that of a program without assertions, which runs as the given one does when no
assertion does anything. -/
theorem removeAssertions_runs_iff {text : String} {t : Tree Label}
    (h : parse text = .ok (some t)) :
    ((Stmt.ofTree t).onlyAsserts = true → (Sketch.removeAssertions text).result = .ok none) ∧
    ((Stmt.ofTree t).isHollow = true →
      (Sketch.removeAssertions text).result = .error .noSuchItem) ∧
    ((Stmt.ofTree t).onlyAsserts = false → (Stmt.ofTree t).isHollow = false → ∃ text' u,
      (Sketch.removeAssertions text).result = .ok (some text') ∧ parse text' = .ok (some u) ∧
      (∀ n ∈ u.nodes, n.root.isWord "assert" = false) ∧
      (∀ (r : Reading V) n s s',
        Ends r n (Stmt.ofTree u) s s' ↔ Ends r n (Stmt.ofTree t).assertsSkipped s s') ∧
      ∀ inv n s o,
        Run inv n (Stmt.ofTree u) s o ↔ Run inv n (Stmt.ofTree t).assertsSkipped s o) := by
  obtain ⟨a, ts, -, ha, htree, hts⟩ := parse_sound h
  have hvars : ∀ x ∈ a.vars, isName x = true := fun x hx => hts x ((ha.name_mem_iff x).mpr hx)
  have hremains := htree.remains hvars
  rw [result_removeAssertions h, htree.ofTree_eq]
  generalize withoutAssertions t = o at hremains
  cases hremains with
  | nothing honly =>
    have hhollow := Stmt.isHollow_of_onlyAsserts honly
    exact ⟨fun _ => rfl, by simp [hhollow], by simp [honly]⟩
  | hollow hhollow hu =>
    have honly : a.onlyAsserts = false := by
      by_contra hne
      simp [Stmt.isHollow_of_onlyAsserts (Bool.not_eq_false _ ▸ hne)] at hhollow
    refine ⟨by simp [honly], fun _ => ?_, by simp [hhollow]⟩
    rw [Option.mapM_some, hu]
    rfl
  | @program u honly hhollow hu =>
    have hvars' : ∀ x ∈ a.stripped.vars, isName x = true := fun x hx =>
      hvars x (Stmt.mem_vars_of_mem_stripped hx)
    have hlegible := ha.legible_stmt.stripped
    have hchained := (hu.stmtText hlegible).1.stmtTree
    refine ⟨by simp [honly], by simp [hhollow], fun _ _ =>
      ⟨a.stripped.text, a.stripped.chained.tree, ?_, hu.parse_text hvars' hlegible, ?_, ?_, ?_⟩⟩
    · rw [Option.mapM_some, hu.print_eq]
      rfl
    · rw [← Tree.count_eq_zero_iff, hchained.count_keyword (by rwa [Stmt.vars_chained]) (by decide)
        (by decide), Stmt.count_assert_chained, Stmt.count_assert_stripped]
    · intro r n s s'
      have hsame := ((compositional_ends r).chained_eq a.stripped).trans
        ((compositional_ends r).stripped_eq a)
      rw [hchained.ofTree_eq]
      exact iff_of_eq (congrFun (congrFun (congrFun hsame n) s) s')
    · intro inv n s o
      have hsame := ((compositional_run inv).chained_eq a.stripped).trans
        ((compositional_run inv).stripped_eq a)
      rw [hchained.ofTree_eq]
      exact iff_of_eq (congrFun (congrFun (congrFun hsame n) s) o)

/-- `if x < 1 then assert x = 5 ; x := 1 else skip`. -/
def doubtful : Stmt :=
  .ite (.operate .lt (.var "x") (.num 1))
    (.seq (.assert (.operate .eq (.var "x") (.num 5))) (.assign "x" (.num 1))) .skip

/-- Where the assertion would fail, the program without it goes on. -/
theorem removeAssertions_runs_doubtful : ∃ text u,
    (Sketch.removeAssertions
      "if (x < 1) then (assert (x = 5) ; x := 1) else (skip)").result = .ok (some text) ∧
    parse text = .ok (some u) ∧ (∀ n ∈ u.nodes, n.root.isWord "assert" = false) ∧
    Run (fun _ => True) ⊤ (Stmt.ofTree u) (fun _ => 0)
      (.done (Function.update (fun _ => 0) "x" 1)) := by
  have htree : StmtTree doubtful doubtful.tree := .ite (.operate .lt (.var "x") (.num 1))
    (.seq (.assert (.operate .eq (.var "x") (.num 5))) (.assign "x" (.num 1))) .skipWritten
  have hlegible : doubtful.Legible := Stmt.legible_ite.mpr
    ⟨Expr.legible_operate_var_num (by decide) (by decide), Stmt.legible_seq.mpr
      ⟨Stmt.legible_assert.mpr (Expr.legible_operate_var_num (by decide) (by decide)),
        Stmt.legible_assign.mpr ⟨by decide, Expr.legible_num.mpr (by decide)⟩⟩, Stmt.legible_skip⟩
  have hparse : parse "if (x < 1) then (assert (x = 5) ; x := 1) else (skip)" =
      .ok (some doubtful.tree) := htree.parse_text (by decide) hlegible
  obtain ⟨text, u, hresult, hu, hassert, -, hruns⟩ :=
    (removeAssertions_runs_iff (V := Int) hparse).2.2 (by decide) (by decide)
  refine ⟨text, u, hresult, hu, hassert, (hruns _ _ _ _).mpr ?_⟩
  rw [htree.ofTree_eq]
  exact .iteTrue (by decide) (.seq .skip .assign)

/-- `if x < 1 then assert x = 5 else skip`. -/
def hollowBranch : Stmt :=
  .ite (.operate .lt (.var "x") (.num 1)) (.assert (.operate .eq (.var "x") (.num 5))) .skip

/-- A branch that has nothing but an assertion is not replaced by anything. -/
theorem removeAssertions_hollowBranch :
    parse "if (x < 1) then (assert (x = 5)) else (skip)" = .ok (some hollowBranch.tree) ∧
      hollowBranch.onlyAsserts = false ∧
      (Sketch.removeAssertions "if (x < 1) then (assert (x = 5)) else (skip)").result =
        .error .noSuchItem := by
  have htree : StmtTree hollowBranch hollowBranch.tree := .ite (.operate .lt (.var "x") (.num 1))
    (.assert (.operate .eq (.var "x") (.num 5))) .skipWritten
  have hlegible : hollowBranch.Legible := Stmt.legible_ite.mpr
    ⟨Expr.legible_operate_var_num (by decide) (by decide), Stmt.legible_assert.mpr
      (Expr.legible_operate_var_num (by decide) (by decide)), Stmt.legible_skip⟩
  have hparse : parse "if (x < 1) then (assert (x = 5)) else (skip)" =
      .ok (some hollowBranch.tree) := htree.parse_text (by decide) hlegible
  refine ⟨hparse, rfl, ?_⟩
  rw [result_removeAssertions hparse]
  rfl

end WhileSketch.While
