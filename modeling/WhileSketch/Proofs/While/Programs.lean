import Mathlib
import WhileSketch.Proofs.While.Weakest

/-! Trees of expressions and statements, and their variables. -/

namespace WhileSketch.While

/-- A place in an expression that is left open; it has no value. -/
def Expr.hole : Expr :=
  .invalid (.unknownExpr "hole")

inductive ExprTree : Expr → Tree Label → Prop
  | var (x : String) : ExprTree (.var x) (Tree.word "id" [Tree.word x []])
  | num (n : Int) : ExprTree (.num n) (Tree.word "num" [Tree.leaf (.num n)])
  | hole : ExprTree .hole (Tree.word "hole" [Tree.word "??" []])
  | operate {a b : Expr} {t u : Tree Label} (op : Operator) (ha : ExprTree a t)
      (hb : ExprTree b u) : ExprTree (.operate op a b) (Tree.word op.programSign [t, u])

/-- A tree stands for a statement. What does nothing may be written out below its node or not. -/
inductive StmtTree : Stmt → Tree Label → Prop
  | skip : StmtTree .skip (Tree.word "skip" [])
  | skipWritten : StmtTree .skip (Tree.word "skip" [Tree.word "skip" []])
  | assign {e : Expr} {t : Tree Label} (x : String) (he : ExprTree e t) :
      StmtTree (.assign x e) (Tree.word ":=" [Tree.word "id" [Tree.word x []], t])
  | seq {a b : Stmt} {t u : Tree Label} (ha : StmtTree a t) (hb : StmtTree b u) :
      StmtTree (.seq a b) (Tree.word ";" [t, u])
  | ite {c : Expr} {a b : Stmt} {r t u : Tree Label} (hc : ExprTree c r) (ha : StmtTree a t)
      (hb : StmtTree b u) : StmtTree (.ite c a b) (Tree.word "if" [r, t, u])
  | step {c : Expr} {a b : Stmt} {r t u : Tree Label} (hc : ExprTree c r) (ha : StmtTree a t)
      (hb : StmtTree b u) : StmtTree (.step c a b) (Tree.word "if_unrolled" [r, t, u])
  | loop {c : Expr} {body : Stmt} {r t : Tree Label} (hc : ExprTree c r) (hb : StmtTree body t) :
      StmtTree (.loop c body) (Tree.word "while" [r, t])
  | assert {c : Expr} {r : Tree Label} (hc : ExprTree c r) :
      StmtTree (.assert c) (Tree.word "assert" [r])
  | exit {c : Expr} {r : Tree Label} (hc : ExprTree c r) :
      StmtTree (.exit c) (Tree.word "assert_unrolled" [r])

def Expr.tree : Expr → Tree Label
  | var x => Tree.word "id" [Tree.word x []]
  | num n => Tree.word "num" [Tree.leaf (.num n)]
  | operate op a b => Tree.word op.programSign [a.tree, b.tree]
  | invalid _ => Tree.word "hole" [Tree.word "??" []]

/-- The tree of a statement, in which what does nothing is written out. -/
def Stmt.tree : Stmt → Tree Label
  | skip => Tree.word "skip" [Tree.word "skip" []]
  | assign x e => Tree.word ":=" [Tree.word "id" [Tree.word x []], e.tree]
  | seq a b => Tree.word ";" [a.tree, b.tree]
  | ite c a b => Tree.word "if" [c.tree, a.tree, b.tree]
  | step c a b => Tree.word "if_unrolled" [c.tree, a.tree, b.tree]
  | loop c body => Tree.word "while" [c.tree, body.tree]
  | assert c => Tree.word "assert" [c.tree]
  | exit c => Tree.word "assert_unrolled" [c.tree]
  | invalid _ => Tree.word "skip" []

theorem ExprTree.eq_tree {e : Expr} {t : Tree Label} (h : ExprTree e t) : t = e.tree := by
  induction h with
  | var x => rfl
  | num n => rfl
  | hole => rfl
  | operate op _ _ iha ihb => rw [Expr.tree, iha, ihb]

theorem StmtTree.tree {c : Stmt} {t : Tree Label} (h : StmtTree c t) : StmtTree c c.tree := by
  induction h with
  | skip | skipWritten => exact .skipWritten
  | assign x he => exact .assign x (he.eq_tree ▸ he)
  | seq _ _ iha ihb => exact .seq iha ihb
  | ite hc _ _ iha ihb => exact .ite (hc.eq_tree ▸ hc) iha ihb
  | step hc _ _ iha ihb => exact .step (hc.eq_tree ▸ hc) iha ihb
  | loop hc _ ih => exact .loop (hc.eq_tree ▸ hc) ih
  | assert hc => exact .assert (hc.eq_tree ▸ hc)
  | exit hc => exact .exit (hc.eq_tree ▸ hc)

theorem ofProgramSign?_programSign (op : Operator) :
    Operator.ofProgramSign? op.programSign = some op := by
  cases op <;> decide

theorem programSign_not_word (op : Operator) :
    ∀ w ∈ ["id", "num", "hole", "skip", ":=", ";", "if", "if_unrolled", "while", "assert",
      "assert_unrolled"], op.programSign ≠ w := by
  cases op <;> decide

theorem ExprTree.ofTree_eq {e : Expr} {t : Tree Label} (h : ExprTree e t) :
    Expr.ofTree t = e := by
  induction h with
  | var x => simp [Expr.ofTree, Tree.word, Expr.ofParts, Label.isWord, Label.text?, Tree.root,
      Label.plain]
  | num n => simp [Expr.ofTree, Tree.word, Tree.leaf, Expr.ofParts, Label.isWord, Label.text?,
      Tree.root]
  | hole => rfl
  | operate op _ _ iha ihb =>
    have hid := programSign_not_word op "id" (by simp)
    have hnum := programSign_not_word op "num" (by simp)
    simp [Expr.ofTree, Tree.word, Expr.ofTrees, Expr.ofParts, Label.isWord, Label.text?, hid, hnum,
      ofProgramSign?_programSign, iha, ihb]

theorem StmtTree.ofTree_eq {c : Stmt} {t : Tree Label} (h : StmtTree c t) :
    Stmt.ofTree t = c := by
  induction h with
  | skip => rfl
  | skipWritten => rfl
  | assign x he =>
    simp [Stmt.ofTree, Tree.word, Stmt.ofParts, Label.isWord, Label.text?, Tree.root, Label.plain,
      he.ofTree_eq]
  | seq _ _ iha ihb =>
    simp [Stmt.ofTree, Tree.word, Stmt.ofTrees, Stmt.ofParts, Label.isWord, Label.text?, iha, ihb]
  | ite hc _ _ iha ihb | step hc _ _ iha ihb =>
    simp [Stmt.ofTree, Tree.word, Stmt.ofTrees, Stmt.ofParts, Label.isWord, Label.text?,
      hc.ofTree_eq, iha, ihb]
  | loop hc _ ih =>
    simp [Stmt.ofTree, Tree.word, Stmt.ofTrees, Stmt.ofParts, Label.isWord, Label.text?,
      hc.ofTree_eq, ih]
  | assert hc | exit hc =>
    simp [Stmt.ofTree, Tree.word, Stmt.ofParts, Label.isWord, Label.text?, hc.ofTree_eq]

theorem Expr.exists_tree {e : Expr} (he : e.isNumber = true) : ∃ t, ExprTree e t := by
  induction e with
  | var x => exact ⟨_, .var x⟩
  | num n => exact ⟨_, .num n⟩
  | operate op a b iha ihb =>
    simp only [isNumber, Bool.and_eq_true] at he
    obtain ⟨t, ht⟩ := iha he.1.2
    obtain ⟨u, hu⟩ := ihb he.2
    exact ⟨_, .operate op ht hu⟩
  | invalid fault => simp [isNumber] at he

theorem Expr.exists_tree_of_isTest {c : Expr} (hc : c.isTest = true) : ∃ t, ExprTree c t := by
  cases c with
  | var _ | num _ | invalid _ => simp [isTest] at hc
  | operate op a b =>
    simp only [isTest, Bool.and_eq_true] at hc
    obtain ⟨t, ht⟩ := exists_tree hc.1.2
    obtain ⟨u, hu⟩ := exists_tree hc.2
    exact ⟨_, .operate op ht hu⟩

/-- Each sorted statement can be written down. -/
theorem Stmt.exists_tree {c : Stmt} (hc : c.isSorted = true) : ∃ t, StmtTree c t := by
  induction c with
  | skip => exact ⟨_, .skip⟩
  | assign x e =>
    obtain ⟨t, ht⟩ := Expr.exists_tree hc
    exact ⟨_, .assign x ht⟩
  | seq a b iha ihb =>
    simp only [isSorted, Bool.and_eq_true] at hc
    obtain ⟨t, ht⟩ := iha hc.1
    obtain ⟨u, hu⟩ := ihb hc.2
    exact ⟨_, .seq ht hu⟩
  | ite c a b iha ihb =>
    simp only [isSorted, Bool.and_eq_true] at hc
    obtain ⟨r, hr⟩ := Expr.exists_tree_of_isTest hc.1.1
    obtain ⟨t, ht⟩ := iha hc.1.2
    obtain ⟨u, hu⟩ := ihb hc.2
    exact ⟨_, .ite hr ht hu⟩
  | step c a b iha ihb =>
    simp only [isSorted, Bool.and_eq_true] at hc
    obtain ⟨r, hr⟩ := Expr.exists_tree_of_isTest hc.1.1
    obtain ⟨t, ht⟩ := iha hc.1.2
    obtain ⟨u, hu⟩ := ihb hc.2
    exact ⟨_, .step hr ht hu⟩
  | loop c body ih =>
    simp only [isSorted, Bool.and_eq_true] at hc
    obtain ⟨r, hr⟩ := Expr.exists_tree_of_isTest hc.1
    obtain ⟨t, ht⟩ := ih hc.2
    exact ⟨_, .loop hr ht⟩
  | assert c =>
    obtain ⟨r, hr⟩ := Expr.exists_tree_of_isTest hc
    exact ⟨_, .assert hr⟩
  | exit c =>
    obtain ⟨r, hr⟩ := Expr.exists_tree_of_isTest hc
    exact ⟨_, .exit hr⟩
  | invalid fault => simp [isSorted] at hc

/-- Names as they are found in a tree. A variable that is called like the nodes above variables
is taken for one of these, and what should be below it is missed. -/
def listed (vars : List String) : Except Fault (List Label) :=
  if "id" ∈ vars then .error .noSuchItem else .ok (vars.map Label.word)

theorem occurrencesEach_cons {t : Tree Label} {ts : List (Tree Label)} {vs ws : List String}
    (ht : occurrences t = listed vs) (hts : occurrencesEach ts = listed ws) :
    occurrencesEach (t :: ts) = listed (vs ++ ws) := by
  rw [occurrencesEach, ht, hts]
  by_cases hv : "id" ∈ vs
  · simp [listed, hv, bind, Except.bind]
  · by_cases hw : "id" ∈ ws
    · simp [listed, hv, hw, bind, Except.bind]
    · simp [listed, hv, hw, bind, Except.bind, pure, Except.pure]

theorem occurrencesEach_one {t : Tree Label} {vs : List String} (ht : occurrences t = listed vs) :
    occurrencesEach [t] = listed vs := by
  have hnil : occurrencesEach [] = listed [] := rfl
  simpa using occurrencesEach_cons ht hnil

theorem occurrences_word {w : String} {ts : List (Tree Label)} {vs : List String} (hw : w ≠ "id")
    (hts : occurrencesEach ts = listed vs) : occurrences (Tree.word w ts) = listed vs := by
  have hid : Label.isWord (.word w) "id" = false := by simpa [Label.isWord, Label.text?] using hw
  rw [Tree.word, occurrences, hid, hts]
  by_cases hv : "id" ∈ vs <;>
    simp [listed, hv, bind, Except.bind, pure, Except.pure]

theorem occurrences_var (x : String) :
    occurrences (Tree.word "id" [Tree.word x []]) = listed [x] := by
  by_cases hx : x = "id"
  · subst hx; rfl
  · have hid : Label.isWord (.word x) "id" = false := by simpa [Label.isWord, Label.text?] using hx
    simp [occurrences, occurrencesEach, Tree.word, Label.isWord, Label.text?, itemAt, Tree.root,
      hx, Ne.symm hx, listed, bind, Except.bind, pure, Except.pure]

theorem ExprTree.occurrences_eq {e : Expr} {t : Tree Label} (h : ExprTree e t) :
    occurrences t = listed e.vars := by
  induction h with
  | var x => exact occurrences_var x
  | num n => rfl
  | hole => rfl
  | @operate a b _ _ op _ _ iha ihb =>
    have hs := occurrencesEach_cons iha (occurrencesEach_one ihb)
    exact occurrences_word (programSign_not_word op "id" (by simp)) hs

theorem StmtTree.occurrences_eq {c : Stmt} {t : Tree Label} (h : StmtTree c t) :
    occurrences t = listed c.vars := by
  induction h with
  | skip => rfl
  | skipWritten => rfl
  | assign x he =>
    have hs := occurrencesEach_cons (occurrences_var x)
      (occurrencesEach_one he.occurrences_eq)
    exact occurrences_word (by decide) hs
  | seq _ _ iha ihb =>
    have hs := occurrencesEach_cons iha (occurrencesEach_one ihb)
    exact occurrences_word (by decide) hs
  | ite hc _ _ iha ihb | step hc _ _ iha ihb =>
    have hs := occurrencesEach_cons hc.occurrences_eq
      (occurrencesEach_cons iha (occurrencesEach_one ihb))
    exact occurrences_word (by decide) hs
  | loop hc _ ih =>
    have hs := occurrencesEach_cons hc.occurrences_eq (occurrencesEach_one ih)
    exact occurrences_word (by decide) hs
  | assert hc | exit hc =>
    have hs := occurrencesEach_one hc.occurrences_eq
    exact occurrences_word (by decide) hs

theorem insertName_perm (a : Label) (names : List Label) :
    (insertName a names).Perm (a :: names) := by
  induction names with
  | nil => exact .refl _
  | cons b rest ih =>
    rw [insertName]
    split_ifs
    · exact .refl _
    · exact (ih.cons b).trans (.swap a b rest)

theorem sortNames_perm (names : List Label) : (sortNames names).Perm names.eraseDups := by
  rw [sortNames]
  induction names.eraseDups with
  | nil => exact .refl _
  | cons a rest ih => exact (insertName_perm a _).trans (ih.cons a)

theorem mem_sortNames {b : Label} {names : List Label} : b ∈ sortNames names ↔ b ∈ names := by
  rw [(sortNames_perm names).mem_iff, List.mem_eraseDups]

theorem nodup_eraseDups : ∀ names : List Label, names.eraseDups.Nodup
  | [] => by simp
  | a :: rest => by
    rw [List.eraseDups_cons, List.nodup_cons]
    refine ⟨by simp [List.mem_eraseDups], nodup_eraseDups (rest.filter fun b => !b == a)⟩
termination_by names => names.length
decreasing_by
  have hlength := List.length_filter_le (fun b => !b == a) rest
  simp only [List.length_cons]
  omega

def Stmt.names (c : Stmt) : List String :=
  (sortNames (c.vars.map Label.word)).map Label.plain

@[simp] theorem Stmt.mem_names {c : Stmt} {x : String} : x ∈ c.names ↔ x ∈ c.vars := by
  simp [Stmt.names, mem_sortNames, Label.plain]

theorem Stmt.nodup_names (c : Stmt) : c.names.Nodup := by
  have hnodup := (sortNames_perm (c.vars.map Label.word)).nodup_iff.mpr (nodup_eraseDups _)
  refine hnodup.map_on fun a ha b hb hab => ?_
  obtain ⟨x, -, rfl⟩ := List.mem_map.mp (mem_sortNames.mp ha)
  obtain ⟨y, -, rfl⟩ := List.mem_map.mp (mem_sortNames.mp hb)
  exact congrArg Label.word hab

theorem StmtTree.variableNames_eq {c : Stmt} {t : Tree Label} (h : StmtTree c t) :
    variableNames t = if "id" ∈ c.vars then .error .noSuchItem else .ok c.names := by
  rw [variableNames, variableLabels, h.occurrences_eq]
  by_cases hid : "id" ∈ c.vars
  · simp [listed, hid, bind, Except.bind]
  · simp [listed, hid, bind, Except.bind, pure, Except.pure, Stmt.names]

end WhileSketch.While
