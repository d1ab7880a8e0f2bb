import Mathlib
import WhileSketch.While.Printing
import WhileSketch.Proofs.Failure
import WhileSketch.Proofs.While.ConcreteSyntax

/-! How programs are laid out as text: tokens with single blanks between some of them. -/

namespace WhileSketch.While

open Lexing (Clear clear_nil clear_cons not_isDigit_of_clear)

abbrev Layout := List (Option Token)

namespace Layout

@[simp] def chars : Option Token → List Char
  | none => [' ']
  | some t => t.text.toList

def render (l : Layout) : List Char :=
  l.flatMap chars

@[simp] theorem render_nil : render [] = [] :=
  rfl

@[simp] theorem render_cons (g : Option Token) (l : Layout) :
    render (g :: l) = chars g ++ render l :=
  List.flatMap_cons

@[simp] theorem render_append (l m : Layout) : render (l ++ m) = render l ++ render m :=
  List.flatMap_append

/-- What may stand side by side. Without a blank between them, the first is an opening bracket, or
the second is a closing one and the first is no sign. -/
def Apart : Option Token → Option Token → Prop
  | some t, some u => t = .mark .opening ∨ u = .mark .closing ∧ ∀ op, t ≠ .sign op
  | _, _ => True

structure Spaced (l : Layout) : Prop where
  chain : l.IsChain Apart
  last : ∀ g ∈ l.getLast?, Apart g (some (.mark .closing))

theorem Spaced.one {t : Token} (ht : ∀ op, t ≠ .sign op) : Spaced [some t] where
  chain := .singleton _
  last := by
    rintro g ⟨⟩
    exact .inr ⟨rfl, ht⟩

theorem Spaced.blank {l m : Layout} (hl : Spaced l) (hm : Spaced m) :
    Spaced (l ++ none :: m) where
  chain := by
    refine List.isChain_append.mpr ⟨hl.chain, hm.chain.cons fun g _ => trivial, ?_⟩
    rintro g - g' ⟨⟩
    cases g <;> trivial
  last := by
    intro g hg
    cases m with
    | nil =>
      simp only [List.getLast?_append, List.getLast?_singleton, Option.some_or,
        Option.mem_some_iff] at hg
      rw [← hg]
      trivial
    | cons a m =>
      apply hm.last
      simpa [List.getLast?_append, List.getLast?_cons] using hg

theorem Spaced.cons {m : Layout} (t : Token) (hm : Spaced m) : Spaced (some t :: none :: m) where
  chain := by
    have hblank : (none :: m).IsChain Apart := hm.chain.cons fun g _ => trivial
    exact hblank.cons fun g hg => by cases hg; trivial
  last := by
    intro g hg
    cases m with
    | nil =>
      cases hg
      trivial
    | cons a m => exact hm.last g (by simpa [List.getLast?_cons] using hg)

def bracket (l : Layout) : Layout :=
  some (.mark .opening) :: (l ++ [some (.mark .closing)])

theorem Spaced.bracket {l : Layout} (hl : Spaced l) : Spaced (bracket l) where
  chain := by
    have hclosing : (l ++ [some (Token.mark .closing)]).IsChain Apart := by
      refine List.isChain_append.mpr ⟨hl.chain, .singleton _, ?_⟩
      rintro g hg g' ⟨⟩
      exact hl.last g hg
    refine hclosing.cons fun g _ => ?_
    cases g
    · trivial
    · exact .inl rfl
  last := by
    intro g hg
    have hg' : some (Token.mark .closing) = g := by simpa [Layout.bracket, List.getLast?_cons] using hg
    rw [← hg']
    exact .inr ⟨rfl, nofun⟩

/-- A name is a name, and a numeral has been written as numbers are. -/
def Proper : Token → Prop
  | .name x => isName x = true
  | .numeral s => ∃ n : Int, s = toString n
  | _ => True

theorem isNumeral_toString (n : Int) : isNumeral (toString n) = true := by
  have hdigits : ∀ d ∈ Text.digits n, Text.isDigit d = true :=
    fun d hd => Text.isDigit_of_ascii (Text.isDigit_of_mem_digits hd)
  obtain ⟨c, cs, hcs⟩ := List.exists_cons_of_ne_nil (Text.digits_ne_nil n)
  rw [hcs] at hdigits
  have hsign := Lexing.not_sign_of_isDigit (hdigits c List.mem_cons_self)
  rw [isNumeral, Text.toList_toString, hcs]
  split_ifs <;> simpa [hsign] using hdigits

theorem skipped_blank {cs : List Char} : Skipped ' ' cs :=
  ⟨rfl, by simp [spellings]⟩

theorem clear_render {t : Token} {l : Layout} (ht : t ≠ .mark .opening)
    (hl : (some t :: l).IsChain Apart) : Clear (render l) := by
  cases l with
  | nil => exact clear_nil
  | cons g l =>
    cases g with
    | none => exact clear_cons rfl
    | some u =>
      obtain hopen | ⟨hclose, -⟩ := (List.isChain_cons_cons.mp hl).1
      · exact absurd hopen ht
      · rw [hclose]
        exact clear_cons rfl

theorem stands_render {t : Token} {l : Layout} (hl : (some t :: l).IsChain Apart)
    (ht : Proper t) : t.Stands (render l) := by
  cases t with
  | name x => exact ⟨ht, clear_render (by simp) hl⟩
  | numeral s =>
    obtain ⟨n, rfl⟩ := ht
    exact ⟨isNumeral_toString n, not_isDigit_of_clear (clear_render (by simp) hl)⟩
  | sign op =>
    have hblank : ∀ d ∈ (render l).head?, d = ' ' := by
      cases l with
      | nil => simp
      | cons g l =>
        cases g with
        | none => simp [chars]
        | some u =>
          obtain hopen | ⟨-, hsign⟩ := (List.isChain_cons_cons.mp hl).1
          · cases hopen
          · exact absurd rfl (hsign op)
    refine ⟨fun _ d hd => ?_, fun _ hequal => ?_⟩
    · rw [hblank d hd]
      rfl
    · cases hblank '=' hequal
  | hole => trivial
  | mark m =>
    refine fun hm => clear_render (fun h => ?_) hl
    cases h
    exact absurd hm (by decide)

/-- The tokens of a layout are found again in its text. -/
theorem lexes_render {l : Layout} (hl : l.IsChain Apart) (hproper : ∀ t, some t ∈ l → Proper t) :
    Lexes (render l) l.reduceOption := by
  induction l with
  | nil => exact .nil
  | cons g l ih =>
    have htail := ih hl.tail fun t ht => hproper t (List.mem_cons_of_mem _ ht)
    cases g with
    | none => exact .skip skipped_blank htail
    | some t => exact .token (stands_render hl (hproper t List.mem_cons_self)) htail

end Layout

open Layout

@[simp] def Expr.layout : Expr → Layout
  | var x => [some (.name x)]
  | num n => [some (.numeral (toString n))]
  | operate op a b => bracket (a.layout ++ none :: some (.sign op) :: none :: b.layout)
  | invalid _ => [some .hole]

def conditionalLayout (m : Mark) (c a b : Layout) : Layout :=
  some (.mark m) :: none :: (c ++ none :: some (.mark .yes) :: none ::
    (bracket a ++ none :: some (.mark .no) :: none :: bracket b))

@[simp] def Stmt.layout : Stmt → Layout
  | skip => [some (.mark .skip)]
  | assign x e => some (.name x) :: none :: some (.mark .becomes) :: none :: e.layout
  | seq a b => a.layout ++ none :: some (.mark .next) :: none :: b.layout
  | ite c a b => conditionalLayout .cond c.layout a.layout b.layout
  | step c a b => conditionalLayout .condStep c.layout a.layout b.layout
  | loop c body => some (.mark .loop) :: none :: (c.layout ++ none :: some (.mark .body) :: none ::
      bracket body.layout)
  | assert c => some (.mark .assert) :: none :: c.layout
  | exit c => some (.mark .exit) :: none :: c.layout
  | invalid _ => []

def Expr.text (e : Expr) : String :=
  String.ofList (render e.layout)

def Stmt.text (c : Stmt) : String :=
  String.ofList (render c.layout)

theorem Expr.layout_spaced (e : Expr) : Spaced e.layout := by
  induction e with
  | var x => exact .one nofun
  | num n => exact .one nofun
  | operate op a b iha ihb => exact (iha.blank (ihb.cons (.sign op))).bracket
  | invalid _ => exact .one nofun

theorem conditionalLayout_spaced (m : Mark) {c a b : Layout} (hc : Spaced c) (ha : Spaced a)
    (hb : Spaced b) : Spaced (conditionalLayout m c a b) := by
  have hno := ha.bracket.blank (hb.bracket.cons (.mark .no))
  exact (hc.blank (hno.cons (.mark .yes))).cons (.mark m)

theorem Stmt.layout_spaced (c : Stmt) : Spaced c.layout := by
  induction c with
  | skip => exact .one nofun
  | assign x e => exact (e.layout_spaced.cons (.mark .becomes)).cons (.name x)
  | seq a b iha ihb => exact iha.blank (ihb.cons (.mark .next))
  | ite c a b iha ihb => exact conditionalLayout_spaced .cond c.layout_spaced iha ihb
  | step c a b iha ihb => exact conditionalLayout_spaced .condStep c.layout_spaced iha ihb
  | loop c body ih => exact (c.layout_spaced.blank (ih.bracket.cons (.mark .body))).cons (.mark .loop)
  | assert c => exact c.layout_spaced.cons (.mark .assert)
  | exit c => exact c.layout_spaced.cons (.mark .exit)
  | invalid _ => exact ⟨.nil, nofun⟩

section Printing

theorem Expr.toList_text (e : Expr) : e.text.toList = render e.layout :=
  String.toList_ofList

theorem Stmt.toList_text (c : Stmt) : c.text.toList = render c.layout :=
  String.toList_ofList

theorem Expr.text_var (x : String) : (var x).text = x := by
  simp [text, layout, chars, Token.text, String.ofList_toList]

theorem Expr.text_num (n : Int) : (num n).text = toString n := by
  simp [text, layout, chars, Token.text, String.ofList_toList]

theorem Expr.text_operate (op : Operator) (a b : Expr) :
    (operate op a b).text = "(" ++ a.text ++ " " ++ op.programSign ++ " " ++ b.text ++ ")" := by
  apply String.toList_injective
  simp [Expr.toList_text, layout, bracket, chars, Token.text, Mark.text]

theorem Stmt.text_assign (x : String) (e : Expr) : (assign x e).text = x ++ " := " ++ e.text := by
  apply String.toList_injective
  simp [Expr.toList_text, Stmt.toList_text, layout, chars, Token.text, Mark.text]

theorem Stmt.text_seq (a b : Stmt) : (seq a b).text = a.text ++ " ; " ++ b.text := by
  apply String.toList_injective
  simp [Stmt.toList_text, layout, chars, Token.text, Mark.text]

theorem Stmt.text_ite (c : Expr) (a b : Stmt) :
    (ite c a b).text = "if" ++ " " ++ c.text ++ " then (" ++ a.text ++ ") else (" ++ b.text ++ ")" := by
  apply String.toList_injective
  simp [Expr.toList_text, Stmt.toList_text, layout, conditionalLayout, bracket, chars, Token.text,
    Mark.text]

theorem Stmt.text_step (c : Expr) (a b : Stmt) :
    (step c a b).text =
      "if_unrolled" ++ " " ++ c.text ++ " then (" ++ a.text ++ ") else (" ++ b.text ++ ")" := by
  apply String.toList_injective
  simp [Expr.toList_text, Stmt.toList_text, layout, conditionalLayout, bracket, chars, Token.text,
    Mark.text]

theorem Stmt.text_loop (c : Expr) (a : Stmt) :
    (loop c a).text = "while " ++ c.text ++ " do (" ++ a.text ++ ")" := by
  apply String.toList_injective
  simp [Expr.toList_text, Stmt.toList_text, layout, bracket, chars, Token.text, Mark.text]

theorem Stmt.text_assert (c : Expr) : (assert c).text = "assert" ++ " " ++ c.text := by
  apply String.toList_injective
  simp [Expr.toList_text, Stmt.toList_text, layout, chars, Token.text, Mark.text]

theorem Stmt.text_exit (c : Expr) : (exit c).text = "assert_unrolled" ++ " " ++ c.text := by
  apply String.toList_injective
  simp [Expr.toList_text, Stmt.toList_text, layout, chars, Token.text, Mark.text]

theorem ExprTree.print_eq {e : Expr} {t : Tree Label} (h : ExprTree e t) :
    print t = .ok (.word e.text) := by
  induction h with
  | var x =>
    rw [Expr.text_var]
    simp [Tree.word, print, Label.isWord, Label.text?, operators, itemAt, Except.map, Tree.root]
  | num n =>
    rw [Expr.text_num]
    simp [Tree.word, Tree.leaf, print, Label.isWord, Label.text?, operators, itemAt, Tree.root,
      Label.plain, bind, Except.bind, pure, Except.pure]
  | hole => rfl
  | @operate a b t u op _ _ iha ihb =>
    have hno : ∀ w ∈ ["id", "num", "hole", "skip", ":=", ";", "if", "if_unrolled", "while",
      "assert", "assert_unrolled"], (Label.word op.programSign).isWord w = false := by
      intro w hw
      simpa [Label.isWord, Label.text?] using programSign_not_word op w hw
    have hop : operators.any (Label.word op.programSign).isWord = true := by cases op <;> decide
    rw [Expr.text_operate, Tree.word, print]
    simp [hno, hop, printEach, iha, ihb, printedPart, itemAt, Label.plain, bind, Except.bind,
      pure, Except.pure]

theorem print_conditional {k : String} (hk : k = "if" ∨ k = "if_unrolled") {r t u : Tree Label}
    {x y z : String} (hr : print r = .ok (.word x)) (ht : print t = .ok (.word y))
    (hu : print u = .ok (.word z)) :
    print (Tree.word k [r, t, u]) =
      .ok (.word (k ++ " " ++ x ++ " then (" ++ y ++ ") else (" ++ z ++ ")")) := by
  obtain rfl | rfl := hk <;>
    simp [Tree.word, print, Label.isWord, Label.text?, printEach, hr, ht, hu, printedPart, itemAt,
      Label.plain, bind, Except.bind, pure, Except.pure]

/-- The tree of a statement is printed as the statement is laid out. -/
theorem StmtTree.print_eq {c : Stmt} {t : Tree Label} (h : StmtTree c t) :
    print t = .ok (.word c.text) := by
  induction h with
  | skip => rfl
  | skipWritten => rfl
  | assign x he =>
    have hx := (ExprTree.var x).print_eq
    rw [Expr.text_var] at hx
    rw [Stmt.text_assign, Tree.word, print]
    simp [Label.isWord, Label.text?, printEach, hx, he.print_eq, printedPart, itemAt, Label.plain,
      bind, Except.bind, pure, Except.pure]
  | seq _ _ iha ihb =>
    rw [Stmt.text_seq, Tree.word, print]
    simp [Label.isWord, Label.text?, operators, printEach, iha, ihb, printedPart, itemAt,
      Label.plain, bind, Except.bind, pure, Except.pure]
  | ite hc _ _ iha ihb =>
    rw [Stmt.text_ite]
    exact print_conditional (.inl rfl) hc.print_eq iha ihb
  | step hc _ _ iha ihb =>
    rw [Stmt.text_step]
    exact print_conditional (.inr rfl) hc.print_eq iha ihb
  | loop hc _ ih =>
    rw [Stmt.text_loop, Tree.word, print]
    simp [Label.isWord, Label.text?, printEach, hc.print_eq, ih, printedPart, itemAt, Label.plain,
      bind, Except.bind, pure, Except.pure]
  | assert hc =>
    rw [Stmt.text_assert, Tree.word, print]
    simp [Label.isWord, Label.text?, printEach, hc.print_eq, printedPart, itemAt, Label.plain,
      bind, Except.bind, pure, Except.pure]
  | exit hc =>
    rw [Stmt.text_exit, Tree.word, print]
    simp [Label.isWord, Label.text?, printEach, hc.print_eq, printedPart, itemAt, Label.plain,
      bind, Except.bind, pure, Except.pure]

end Printing

end WhileSketch.While
