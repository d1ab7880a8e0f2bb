import Mathlib
import WhileSketch.Proofs.Synthesis.Naming
import WhileSketch.Proofs.Synthesis.Preparation

/-! What a program text denotes after numbers have been put in the places of its holes. -/

namespace WhileSketch

namespace Holes

section Characters

variable {f : Filling} {before : Option Char} {c d : Char} {w cs rest : List Char} {n : Int}

def nextValue? (f : Filling) (cs : List Char) : Option Int :=
  (nameLength? cs).bind fun n => f.lookup (String.ofList (cs.take n))

/-- Whether a plus or minus sign stands directly in front of the name of a hole whose value has no
sign of its own. -/
def glues (f : Filling) : List Char → Bool
  | [] => false
  | c :: cs => (c == '+' || c == '-') && (nextValue? f cs).any (0 ≤ ·) || glues f cs

theorem nextValue?_of_head (h : cs.head? ≠ some 'h') : nextValue? f cs = none := by
  cases cs with
  | nil => rfl
  | cons c cs =>
    have hc : c ≠ 'h' := by simpa using h
    rw [nextValue?, nameLength?_of_ne hc, Option.bind_none]

theorem glues_append (hw : '+' ∉ w ∧ '-' ∉ w) : glues f (w ++ cs) = glues f cs := by
  induction w with
  | nil => rfl
  | cons c w ih =>
    simp only [List.mem_cons, not_or] at hw
    have hc : (c == '+' || c == '-') = false := by
      simp only [Bool.or_eq_false_iff, beq_eq_false_iff_ne]
      exact ⟨Ne.symm hw.1.1, Ne.symm hw.2.1⟩
    rw [List.cons_append, glues, hc, Bool.false_and, Bool.false_or, ih ⟨hw.1.2, hw.2.2⟩]

theorem toString_ne_nil (n : Int) : (toString n).toList ≠ [] := by
  rw [Text.toList_toString]
  split_ifs
  · simp
  · exact Text.digits_ne_nil n

theorem head_toString (h : (toString n).toList.head? = some d) :
    d = '-' ∧ n < 0 ∨ Text.isDigit d = true ∧ 0 ≤ n := by
  rw [Text.toList_toString] at h
  split_ifs at h with hn
  · exact .inl ⟨(Option.some.inj h).symm, hn⟩
  · have hdigit := Text.isDigit_of_mem_digits (List.mem_of_head? h)
    exact .inr ⟨Text.isDigit_of_ascii hdigit, by omega⟩

theorem nameLength?_ne_zero {k : Nat} (h : nameLength? cs = some k) : k ≠ 0 := by
  rw [nameLength?] at h
  split_ifs at h with hstem
  dsimp only at h
  split_ifs at h
  cases h
  simp [stem_eq]

theorem fillChars_next (hb : before.any Text.isWordChar = false) {k : Nat}
    (hk : nameLength? cs = some k) :
    ∃ rest, fillChars f.numerals before cs =
      ((nextValue? f cs).elim (cs.take k) fun n => (toString n).toList) ++ rest := by
  have hne := nameLength?_ne_zero hk
  cases cs with
  | nil => simp [nameLength?, stem_eq] at hk
  | cons c cs =>
    obtain ⟨j, rfl⟩ := Nat.exists_eq_succ_of_ne_zero hne
    rw [fillChars, hb, if_neg (by decide), hk, nextValue?, hk]
    refine ⟨_, congrArg (· ++ _) ?_⟩
    simp only [Nat.succ_eq_add_one, Nat.add_sub_cancel, Option.bind_some, List.take_succ_cons]
    have hx : (String.ofList (c :: cs.take j)).toList = c :: cs.take j := String.toList_ofList
    generalize String.ofList (c :: cs.take j) = x at hx ⊢
    cases hlookup : f.lookup x <;> simp [Filling.numerals, hlookup, hx]

theorem head_fillChars (h : (fillChars f.numerals before cs).head? = some d) :
    cs.head? = some d ∨ cs.head? = some 'h' ∧ before.any Text.isWordChar = false ∧
      ∃ n, nextValue? f cs = some n ∧ (toString n).toList.head? = some d := by
  cases cs with
  | nil =>
    rw [fillChars] at h
    exact .inl h
  | cons c cs =>
    by_cases hc : before.any Text.isWordChar = true ∨ c ≠ 'h'
    · rw [fillChars_keep hc] at h
      exact .inl h
    · rw [not_or, Bool.not_eq_true, not_not] at hc
      obtain ⟨hb, rfl⟩ := hc
      cases hk : nameLength? ('h' :: cs) with
      | none =>
        rw [fillChars, hb, if_neg (by decide), hk] at h
        exact .inl h
      | some k =>
        obtain ⟨j, rfl⟩ := Nat.exists_eq_succ_of_ne_zero (nameLength?_ne_zero hk)
        obtain ⟨rest, hrest⟩ := fillChars_next (f := f) hb hk
        rw [hrest] at h
        cases hn : nextValue? f ('h' :: cs) with
        | none =>
          rw [hn] at h
          exact .inl h
        | some n =>
          rw [hn, Option.elim_some, List.head?_append_of_ne_nil _ (toString_ne_nil n)] at h
          exact .inr ⟨rfl, hb, n, rfl, h⟩

end Characters

end Holes

namespace While

open Holes Place

open Lexing (Clear not_isDigit_of_clear)

section Tokens

variable {f : Filling} {t : Token} {p q : Place} {before : Option Char} {c : Char}
  {cs rest : List Char} {ts us : List Token}

theorem clear_fillChars (h : Clear cs) : Clear (fillChars f.numerals before cs) := by
  intro d hd
  obtain hd | ⟨hd, -⟩ := head_fillChars hd
  · exact h d hd
  · cases h 'h' hd

theorem Skipped.fillChars (h : Skipped c cs) : Skipped c (fillChars f.numerals before cs) := by
  refine h.of_head fun d hd => ?_
  obtain hd | ⟨-, -, n, -, hd⟩ := head_fillChars hd
  · exact .inl hd
  · right
    obtain ⟨rfl, -⟩ | ⟨hdigit, -⟩ := head_toString hd
    · decide
    · constructor <;> rintro rfl <;> cases hdigit

theorem lastOf_numeral {s : String} (hs : isNumeral s = true) :
    (lastOf before s.toList).any Text.isWordChar = true := by
  obtain ⟨c, ds, hcs, hds, hc⟩ := isNumeral_chars hs
  have hlast : ∃ d ∈ s.toList.getLast?, Text.isDigit d = true := by
    cases hd : ds.getLast? with
    | none =>
      rw [List.getLast?_eq_none_iff] at hd
      subst hd
      have hdigit : Text.isDigit c = true := by simpa using hc
      exact ⟨c, by rw [hcs]; rfl, hdigit⟩
    | some d =>
      refine ⟨d, ?_, hds d (List.mem_of_getLast? hd)⟩
      rw [hcs, List.getLast?_cons, hd]
      rfl
  obtain ⟨d, hd, hdigit⟩ := hlast
  rw [lastOf, Option.mem_def.mp hd]
  exact Text.isWordChar_of_isDigit hdigit

/-- Where a token stood in a text, what it is replaced by stands in the filled one, unless a sign
and a number come together. -/
theorem Token.Stands.fill (h : t.Stands rest) (before : Option Char)
    (hglue : t = .sign .add ∨ t = .sign .sub → (nextValue? f rest).any (0 ≤ ·) = false) :
    (t.fill f).Stands (fillChars f.numerals (lastOf before t.text.toList) rest) := by
  cases t with
  | name x =>
    rw [Token.fill]
    cases f.lookup x with
    | none => exact ⟨h.1, clear_fillChars h.2⟩
    | some n => exact ⟨Layout.isNumeral_toString n, not_isDigit_of_clear (clear_fillChars h.2)⟩
  | numeral s =>
    refine ⟨h.1, fun d hd => ?_⟩
    obtain hd | ⟨-, hb, -⟩ := head_fillChars hd
    · exact h.2 d hd
    · rw [Token.text, lastOf_numeral h.1] at hb
      cases hb
  | sign op =>
    refine ⟨fun hop d hd => ?_, fun hop hequal => ?_⟩
    · obtain hd | ⟨-, -, n, hn, hd⟩ := head_fillChars hd
      · exact h.1 hop d hd
      · obtain ⟨rfl, -⟩ | ⟨-, hpos⟩ := head_toString hd
        · rfl
        · have hno := hglue (hop.imp (congrArg _) (congrArg _))
          rw [hn, Option.any_some, decide_eq_false_iff_not] at hno
          exact absurd hpos hno
    · obtain hd | ⟨-, -, n, -, hd⟩ := head_fillChars hequal
      · exact h.2 hop hd
      · obtain ⟨hd, -⟩ | ⟨hd, -⟩ := head_toString hd <;> cases hd
  | hole => trivial
  | mark m => exact fun hm => clear_fillChars (h hm)

theorem next_fill (h : p.next t = some q) :
    p.next (t.fill f) = some q ∨ p.next (t.fill f) = none := by
  cases t with
  | name x =>
    rw [Token.fill]
    cases f.lookup x with
    | none => exact .inl h
    | some n => cases p <;> simp_all [next]
  | _ => exact .inl h

theorem glues_token (h : t.Stands rest) :
    glues f (t.text.toList ++ rest) =
      (decide (t = .sign .add ∨ t = .sign .sub) && (nextValue? f rest).any (0 ≤ ·) ||
        glues f rest) := by
  have hword : ∀ w : List Char, (∀ c ∈ w, Text.isWordChar c = true) → '+' ∉ w ∧ '-' ∉ w := by
    intro w hw
    constructor <;> intro hmem <;> cases hw _ hmem
  cases t with
  | name x =>
    obtain ⟨c, cs, hcs, -, hall, -⟩ := isName_chars h.1
    rw [Token.text, hcs, glues_append (hword _ hall)]
    simp
  | numeral s =>
    obtain ⟨c, ds, hcs, hds, hc⟩ := isNumeral_chars h.1
    have hdigits := hword ds fun d hd => Text.isWordChar_of_isDigit (hds d hd)
    have hnext : ((c == '+' || c == '-') && (nextValue? f (ds ++ rest)).any (0 ≤ ·)) = false := by
      obtain ⟨-, hne⟩ | hc := hc
      · obtain ⟨d, ds, rfl⟩ := List.exists_cons_of_ne_nil hne
        have hd : (d :: ds ++ rest).head? ≠ some 'h' := by
          rintro ⟨⟩
          cases hds 'h' List.mem_cons_self
        rw [nextValue?_of_head hd, Option.any_none, Bool.and_false]
      · rw [Lexing.not_sign_of_isDigit hc, Bool.false_and]
    rw [Token.text, hcs, List.cons_append, glues, hnext, Bool.false_or, glues_append hdigits]
    simp
  | sign op =>
    have hsign : op ≠ .add → op ≠ .sub →
        '+' ∉ op.programSign.toList ∧ '-' ∉ op.programSign.toList := by
      cases op <;> decide +kernel
    by_cases hop : op = .add ∨ op = .sub
    · obtain rfl | rfl := hop <;> rfl
    · rw [not_or] at hop
      rw [Token.text, glues_append (hsign hop.1 hop.2)]
      simp [hop]
  | hole =>
    rw [glues_append (by decide +kernel)]
    simp
  | mark m =>
    have hmark : '+' ∉ m.text.toList ∧ '-' ∉ m.text.toList := by cases m <;> decide +kernel
    rw [Token.text, glues_append hmark]
    simp

/-- What has been read last is part of a word only behind an operand, unless a word ends here. -/
theorem finished_of_lastOf (ht : t.Stands rest) (hq : p.next t = some q)
    (hlast : (lastOf before t.text.toList).any Text.isWordChar = true) (hrest : ¬ Clear rest) :
    q = finished := by
  cases t with
  | name x => exact absurd ht.2 hrest
  | numeral s => cases p <;> simp_all [next]
  | sign op => cases op <;> cases hlast
  | hole => cases hlast
  | mark m =>
    by_cases hm : m.text ∈ keywords
    · exact absurd (ht hm) hrest
    · cases m with
      | opening | closing | next | becomes => cases hlast
      | _ => exact absurd (by decide) hm

/-- A sign that comes together with a number makes a numeral, where there should be a sign. -/
theorem Lexes.glue (before : Option Char) {op : Operator} (hop : op = .add ∨ op = .sub) {n : Int}
    (hn : 0 ≤ n) (hnext : nextValue? f rest = some n) :
    ∃ s us, Lexes (op.programSign.toList ++
      fillChars f.numerals (lastOf before op.programSign.toList) rest) (.numeral s :: us) := by
  have hsign : op.programSign.toList = ['+'] ∨ op.programSign.toList = ['-'] := by
    obtain rfl | rfl := hop
    exacts [.inl rfl, .inr rfl]
  have hb : (lastOf before op.programSign.toList).any Text.isWordChar = false := by
    obtain hs | hs := hsign <;> rw [hs] <;> rfl
  obtain ⟨k, hk, -⟩ := Option.bind_eq_some_iff.mp hnext
  obtain ⟨cs, hcs⟩ := fillChars_next (f := f) hb hk
  obtain ⟨d, ds, hds⟩ := List.exists_cons_of_ne_nil (toString_ne_nil n)
  have hdigit : Text.isDigit d = true := by
    have hhead : (toString n).toList.head? = some d := by rw [hds]; rfl
    obtain ⟨-, hneg⟩ | ⟨hdigit, -⟩ := head_toString hhead
    · omega
    · exact hdigit
  rw [hcs, hnext, Option.elim_some, hds, List.cons_append]
  obtain ⟨s, rest', hs, hstands⟩ := exists_digits (.inr hsign) hdigit (ds ++ cs)
  obtain ⟨us, hus⟩ := exists_lexes rest'
  rw [hs]
  exact ⟨s, us, .token hstands hus⟩

/-- The tokens of a filled text are those of the text with numerals in place of the names of
holes, if no sign comes together with a number. If one does, they are those of no program. -/
theorem Lexes.fill (hf : ∀ x n, f.lookup x = some n → isHole x = true) (h : Lexes cs ts)
    (hts : (p.follow ts).isSome = true)
    (hb : before.any Text.isWordChar = true → ¬ Clear cs → p = finished) :
    ∃ us, Lexes (fillChars f.numerals before cs) us ∧
      if glues f cs then p.follow us = none else us = ts.map (Token.fill f) := by
  -- By induction on the tokens of the text as it is, along with the place in a program that they
  -- lead to and the character in front of them.
  induction h generalizing p before with
  | nil =>
    rw [Holes.fillChars]
    exact ⟨[], .nil, rfl⟩
  | @skip c cs ts hc _ ih =>
    have hkeep : before.any Text.isWordChar = true ∨ c ≠ 'h' := by
      right
      rintro rfl
      cases hc.1
    have hsign : '+' ∉ [c] ∧ '-' ∉ [c] := by
      rw [List.mem_singleton, List.mem_singleton]
      constructor
      · rintro rfl
        exact hc.2 "+" (by decide) ⟨cs, rfl⟩
      · rintro rfl
        exact hc.2 "-" (by decide) ⟨cs, rfl⟩
    have hglue : glues f ([c] ++ cs) = glues f cs := glues_append hsign
    have hafter : (some c).any Text.isWordChar = true → ¬ Clear cs → p = finished := by
      intro hword
      rw [Option.any_some, hc.1] at hword
      cases hword
    obtain ⟨us, hus, hresult⟩ := ih hts hafter
    rw [fillChars_keep hkeep, show glues f (c :: cs) = glues f cs from hglue]
    exact ⟨us, .skip hc.fillChars hus, hresult⟩
  | @token t rest ts ht h ih =>
    obtain ⟨q, hq, hts⟩ := isSome_follow_cons hts
    have halone : ∀ x, t = .name x → before.any Text.isWordChar = false := by
      rintro x rfl
      by_contra hword
      have hclear : ¬ Clear (x.toList ++ rest) := by
        obtain ⟨c, cs, hcs, -, hall, -⟩ := isName_chars ht.1
        intro hclear
        have hc := hclear c (by rw [hcs]; rfl)
        rw [hall c List.mem_cons_self] at hc
        cases hc
      rw [hb (by simpa using hword) hclear] at hq
      cases hq
    rw [Token.fillChars_text hf ht halone, glues_token ht]
    by_cases hglue : (t = .sign .add ∨ t = .sign .sub) ∧ (nextValue? f rest).any (0 ≤ ·) = true
    · obtain ⟨op, hop, rfl⟩ : ∃ op, (op = .add ∨ op = .sub) ∧ t = .sign op := by
        obtain ⟨rfl | rfl, -⟩ := hglue
        exacts [⟨.add, .inl rfl, rfl⟩, ⟨.sub, .inr rfl, rfl⟩]
      obtain ⟨n, hn, hpos⟩ := (Option.any_eq_true _ _).mp hglue.2
      obtain ⟨s, us, hus⟩ := Lexes.glue before hop (by simpa using hpos) hn
      obtain rfl : p = finished := by
        cases p <;> simp_all [next]
      refine ⟨.numeral s :: us, hus, ?_⟩
      rw [if_pos (by simp only [hglue, decide_true, Bool.true_and, Bool.true_or])]
      rfl
    · have hstands := ht.fill before fun hsign => by
        simpa using fun hany => hglue ⟨hsign, hany⟩
      have hafter : (lastOf before t.text.toList).any Text.isWordChar = true → ¬ Clear rest →
          q = finished := finished_of_lastOf ht hq
      obtain ⟨us, hus, hresult⟩ := ih hts hafter
      have hnone : (decide (t = .sign .add ∨ t = .sign .sub) &&
          (nextValue? f rest).any (0 ≤ ·)) = false := by
        simpa using fun hsign => by simpa using fun hany => hglue ⟨hsign, hany⟩
      refine ⟨t.fill f :: us, .token hstands hus, ?_⟩
      rw [hnone, Bool.false_or]
      split_ifs at hresult ⊢
      · rw [follow_cons]
        obtain hnext | hnext := next_fill (f := f) hq
        · rw [hnext, Option.bind_some, hresult]
        · rw [hnext, Option.bind_none]
      · rw [hresult, List.map_cons]

end Tokens

section Programs

variable {f : Filling}

/-- Each value that is filled in can be read back. -/
def Readable (f : Filling) : Prop :=
  ∀ x n, f.lookup x = some n → (Text.digits n).length ≤ Text.maxDigits

mutual

theorem OperandText.fill (hf : Readable f) {e : Expr} {ts : List Token} :
    OperandText e ts → OperandText (e.fill f) (ts.map (Token.fill f))
  | @OperandText.var x hx => by
    rw [Expr.fill, List.map_singleton, Token.fill]
    cases hlookup : f.lookup x with
    | none => exact .var hx
    | some n =>
      refine .num ?_
      rw [Text.readInt_toString, if_neg (Nat.not_lt.mpr (hf x n hlookup))]
  | .num hs => .num hs
  | .hole => .hole
  | .brackets he => by
    have hinner := he.fill hf
    rw [List.map_cons, List.map_append]
    exact .brackets hinner

theorem ExprText.fill (hf : Readable f) {e : Expr} {ts : List Token} :
    ExprText e ts → ExprText (e.fill f) (ts.map (Token.fill f))
  | .operand he => .operand (he.fill hf)
  | .operate op ha hb => by
    have hleft := ha.fill hf
    have hright := hb.fill hf
    rw [List.map_append, List.map_cons]
    exact .operate op hleft hright

end

mutual

theorem SimpleText.fill (hf : Readable f) {c : Stmt} {ts : List Token} :
    SimpleText c ts → (∀ x ∈ c.assigned, f.lookup x = none) →
      SimpleText (c.fill f) (ts.map (Token.fill f))
  | .skip => fun _ => .skip
  | @SimpleText.assign x e ts hx he => by
    intro hassigned
    have hkeep : (Token.name x).fill f = .name x := by
      simp [Token.fill, hassigned x (by simp [Stmt.assigned])]
    rw [List.map_cons, List.map_cons, hkeep]
    exact .assign hx (he.fill hf)
  | .ite hc ha hb => by
    intro hassigned
    simp only [Stmt.assigned, List.mem_append] at hassigned
    have hyes := ha.fill hf fun x hx => hassigned x (.inl hx)
    have hno := hb.fill hf fun x hx => hassigned x (.inr hx)
    simp only [List.map_cons, List.map_append]
    exact .ite (hc.fill hf) hyes hno
  | .step hc ha hb => by
    intro hassigned
    simp only [Stmt.assigned, List.mem_append] at hassigned
    have hyes := ha.fill hf fun x hx => hassigned x (.inl hx)
    have hno := hb.fill hf fun x hx => hassigned x (.inr hx)
    simp only [List.map_cons, List.map_append]
    exact .step (hc.fill hf) hyes hno
  | .loop hc ha => by
    intro hassigned
    have hbody := ha.fill hf hassigned
    simp only [List.map_cons, List.map_append]
    exact .loop (hc.fill hf) hbody
  | .assert hc => fun _ => .assert (hc.fill hf)
  | .exit hc => fun _ => .exit (hc.fill hf)
  | .brackets ha => by
    intro hassigned
    have hinner := ha.fill hf hassigned
    rw [List.map_cons, List.map_append]
    exact .brackets hinner

/-- The tokens of a statement are those of the filled one after they have been filled, if no
assigned variable is replaced. -/
theorem StmtText.fill (hf : Readable f) {c : Stmt} {ts : List Token} :
    StmtText c ts → (∀ x ∈ c.assigned, f.lookup x = none) →
      StmtText (c.fill f) (ts.map (Token.fill f))
  | .simple ha => fun hassigned => .simple (ha.fill hf hassigned)
  | .seq ha hb => by
    intro hassigned
    simp only [Stmt.assigned, List.mem_append] at hassigned
    have hfirst := ha.fill hf fun x hx => hassigned x (.inl hx)
    have hsecond := hb.fill hf fun x hx => hassigned x (.inr hx)
    rw [List.map_append, List.map_cons]
    exact .seq hfirst hsecond

end

theorem Expr.fillTree_tree (e : Expr) : fillTree f e.tree = (e.fill f).tree := by
  induction e with
  | var x =>
    rw [Expr.fill, Expr.tree]
    cases hx : f.lookup x <;>
      simp [Tree.word, Tree.leaf, fillTree, Label.isWord, Label.text?, hx, Expr.tree]
  | num n => rfl
  | operate op a b iha ihb =>
    rw [Expr.tree, fillTree_word (programSign_not_word op "id" (by simp)), fillTrees, fillTrees,
      fillTrees, iha, ihb, Expr.fill, Expr.tree]
  | invalid _ => rfl

theorem Stmt.fillTree_tree {c : Stmt} (hassigned : ∀ x ∈ c.assigned, f.lookup x = none) :
    fillTree f c.tree = (c.fill f).tree := by
  induction c with
  | skip | invalid _ => rfl
  | assign x e =>
    have hx : fillTree f (Tree.word "id" [Tree.word x []]) = Tree.word "id" [Tree.word x []] := by
      simp [Tree.word, fillTree, Label.isWord, Label.text?, hassigned x (by simp [Stmt.assigned])]
    rw [Stmt.tree, fillTree_word (by decide), fillTrees, fillTrees, fillTrees, hx, e.fillTree_tree]
    rfl
  | seq a b iha ihb =>
    simp only [Stmt.assigned, List.mem_append] at hassigned
    rw [Stmt.tree, fillTree_word (by decide), fillTrees, fillTrees, fillTrees,
      iha fun x hx => hassigned x (.inl hx), ihb fun x hx => hassigned x (.inr hx)]
    rfl
  | ite c a b iha ihb | step c a b iha ihb =>
    simp only [Stmt.assigned, List.mem_append] at hassigned
    rw [Stmt.tree, fillTree_word (by decide), fillTrees, fillTrees, fillTrees, fillTrees,
      c.fillTree_tree, iha fun x hx => hassigned x (.inl hx),
      ihb fun x hx => hassigned x (.inr hx)]
    rfl
  | loop c body ih =>
    rw [Stmt.tree, fillTree_word (by decide), fillTrees, fillTrees, fillTrees, c.fillTree_tree,
      ih hassigned]
    rfl
  | assert c | exit c =>
    rw [Stmt.tree, fillTree_word (by decide), fillTrees, fillTrees, c.fillTree_tree]
    rfl

/-- The text with numbers in place of its holes denotes the program with these numbers in place of
its holes, if and only if no plus or minus sign comes together with a number. -/
theorem parse_fill_iff {program : String} {t₀ t : Tree Label} {vars : List String}
    (h₀ : parse program = .ok (some t₀)) (hvars : variableNames t₀ = .ok vars)
    (hnone : find? vars = none) (h : parse (nameAll program).1 = .ok (some t)) {f : Filling}
    (hholes : ∀ x, (f.lookup x).isSome = true ↔ x ∈ (nameAll program).2) (hf : Readable f) :
    parse (Holes.fill f (nameAll program).1) = .ok (some (fillTree f t)) ↔
      glues f (nameAll program).1.toList = false := by
  obtain ⟨a, b, ts, ha, rfl, hb, hlexes, -, hassign⟩ := parse_named h₀ h
  have hisHole : ∀ x n, f.lookup x = some n → isHole x = true := by
    intro x n hx
    obtain ⟨j, -, rfl⟩ := List.mem_map.mp ((hholes x).mp (by rw [hx]; rfl))
    exact Sketch.isHole_name j
  have hassigned : ∀ x ∈ b.assigned, f.lookup x = none := by
    intro x hx
    rw [ha.variableNames_eq] at hvars
    split_ifs at hvars
    cases hvars
    cases hlookup : f.lookup x with
    | none => rfl
    | some n =>
      have hname := List.find?_eq_none.mp hnone x (Stmt.mem_names.mpr (hassign x hx))
      exact absurd (hisHole x n hlookup) hname
  have hfollow : (statement.follow (nameTokens 0 ts)).isSome = true := by
    rw [hb.follow]
    rfl
  have hfront : (none : Option Char).any Text.isWordChar = true →
      ¬ Clear (nameAll program).1.toList → statement = finished := nofun
  obtain ⟨us, hus, hresult⟩ := hlexes.fill hisHole hfollow hfront
  have htokens : language.tokens (Holes.fill f (nameAll program).1) = us.map Token.word := by
    apply Lexes.tokens_eq
    rw [Holes.fill, fillWith, String.toList_ofList]
    exact hus
  rw [Stmt.fillTree_tree hassigned, parse_eq_some_iff htokens]
  constructor
  · rintro ⟨c, hc, -⟩
    by_contra hglue
    rw [Bool.not_eq_false] at hglue
    rw [if_pos hglue, hc.follow] at hresult
    cases hresult
  · intro hglue
    rw [hglue, if_neg (by decide)] at hresult
    rw [hresult]
    exact ⟨_, hb.fill hf hassigned, rfl⟩

/-- A negative number may stand directly behind a sign. -/
theorem parse_fill_negative : ∃ t,
    parse (nameAll "x:=y-??;y:=??").1 = .ok (some t) ∧
      parse (Holes.fill [("hole_0", -5), ("hole_1", 3)] (nameAll "x:=y-??;y:=??").1) =
        .ok (some (fillTree [("hole_0", -5), ("hole_1", 3)] t)) := by
  have hnames : ((parse "x:=y-??;y:=??").toOption.join.bind fun t =>
      (variableNames t).toOption) = some ["x", "y"] := by
    decide +kernel
  obtain ⟨t₀, h₀, hvars⟩ := Option.bind_eq_some_iff.mp hnames
  obtain ⟨t, ht⟩ : ∃ t, parse (nameAll "x:=y-??;y:=??").1 = .ok (some t) :=
    exists_some_of_isSome (by decide +kernel)
  have hholes : (nameAll "x:=y-??;y:=??").2 = ["hole_0", "hole_1"] := by decide +kernel
  have hiff := parse_fill_iff (join_toOption_eq_some.mp h₀) (toOption_eq_some.mp hvars)
    (by decide +kernel) ht (f := [("hole_0", -5), ("hole_1", 3)])
  refine ⟨t, ht, (hiff (fun x => ?_) fun x n hx => ?_).mpr (by decide +kernel)⟩
  · rw [hholes, List.lookup_isSome_iff]
    simp
  · obtain ⟨l, l', hl, -⟩ := List.lookup_eq_some_iff.mp hx
    have hmem : (x, n) ∈ [("hole_0", (-5 : Int)), ("hole_1", 3)] := by
      rw [hl]
      simp
    simp only [List.mem_cons, Prod.mk.injEq, List.not_mem_nil, or_false] at hmem
    obtain ⟨-, rfl⟩ | ⟨-, rfl⟩ := hmem <;> decide

/-- Another number goes together with the sign in front of it, and the text denotes no program. -/
theorem parse_fill_glued :
    (∃ t₀, parse "x := y +??" = .ok (some t₀) ∧ variableNames t₀ = .ok ["x", "y"]) ∧
      find? ["x", "y"] = none ∧ (∃ t, parse (nameAll "x := y +??").1 = .ok (some t)) ∧
      (nameAll "x := y +??").2 = ["hole_0"] ∧
      parse (Holes.fill [("hole_0", 5)] (nameAll "x := y +??").1) = .ok none := by
  have hnames : ((parse "x := y +??").toOption.join.bind fun t =>
      (variableNames t).toOption) = some ["x", "y"] := by
    decide +kernel
  obtain ⟨t₀, h₀, hvars⟩ := Option.bind_eq_some_iff.mp hnames
  have hglued : (parse (Holes.fill [("hole_0", 5)] (nameAll "x := y +??").1)).toOption.map
      Option.isNone = some true := by
    decide +kernel
  obtain ⟨t?, ht, hnone⟩ := Option.map_eq_some_iff.mp hglued
  refine ⟨⟨t₀, join_toOption_eq_some.mp h₀, toOption_eq_some.mp hvars⟩, by decide +kernel,
    exists_some_of_isSome (by decide +kernel), by decide +kernel, ?_⟩
  rw [toOption_eq_some.mp ht, Option.isNone_iff_eq_none.mp hnone]

end Programs

end While

end WhileSketch
