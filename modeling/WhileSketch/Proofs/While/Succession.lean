import Mathlib
import WhileSketch.Proofs.While.ConcreteSyntax

/-! Which tokens of a statement may come behind which, and how many of them there are. -/

namespace WhileSketch.While

/-- What the tokens so far have to be followed by. -/
inductive Place where
  | statement
  | assigned
  | operand
  | finished
  deriving DecidableEq

namespace Place

/-- The place behind one more token. Brackets need not match. -/
def next : Place → Token → Option Place
  | statement, .name _ => some assigned
  | statement, .mark .skip => some finished
  | statement, .mark .cond | statement, .mark .condStep | statement, .mark .loop
  | statement, .mark .assert | statement, .mark .exit => some operand
  | statement, .mark .opening => some statement
  | assigned, .mark .becomes => some operand
  | operand, .name _ | operand, .numeral _ | operand, .hole => some finished
  | operand, .mark .opening => some operand
  | finished, .sign _ => some operand
  | finished, .mark .closing => some finished
  | finished, .mark .next | finished, .mark .yes | finished, .mark .no
  | finished, .mark .body => some statement
  | _, _ => none

def follow (p : Place) (ts : List Token) : Option Place :=
  ts.foldlM next p

@[simp] theorem follow_nil (p : Place) : p.follow [] = some p :=
  rfl

@[simp] theorem follow_cons (p : Place) (t : Token) (ts : List Token) :
    p.follow (t :: ts) = (p.next t).bind (·.follow ts) :=
  List.foldlM_cons

theorem isSome_follow_cons {p : Place} {t : Token} {ts : List Token}
    (h : (p.follow (t :: ts)).isSome = true) :
    ∃ q, p.next t = some q ∧ (q.follow ts).isSome = true := by
  rw [follow_cons, Option.isSome_bind, Option.any_eq_true] at h
  exact h

theorem follow_append (p : Place) (ts us : List Token) :
    p.follow (ts ++ us) = (p.follow ts).bind (·.follow us) :=
  List.foldlM_append

end Place

open Place

section Following

mutual

theorem OperandText.follow {e : Expr} {ts : List Token} :
    OperandText e ts → operand.follow ts = some finished
  | .var _ => rfl
  | .num _ => rfl
  | .hole => rfl
  | .brackets he => by
    have hinner := he.follow
    simp [next, follow_append, hinner]

theorem ExprText.follow {e : Expr} {ts : List Token} :
    ExprText e ts → operand.follow ts = some finished
  | .operand he => he.follow
  | .operate op ha hb => by
    have hleft := ha.follow
    have hright := hb.follow
    simp [next, follow_append, hleft, hright]

end

mutual

theorem SimpleText.follow {c : Stmt} {ts : List Token} :
    SimpleText c ts → statement.follow ts = some finished
  | .skip => rfl
  | .assign _ he => by simp [next, he.follow]
  | .ite hc ha hb | .step hc ha hb => by
    have hyes := ha.follow
    have hno := hb.follow
    simp [next, follow_append, hc.follow, hyes, hno]
  | .loop hc ha => by
    have hbody := ha.follow
    simp [next, follow_append, hc.follow, hbody]
  | .assert hc | .exit hc => by simp [next, hc.follow]
  | .brackets ha => by
    have hinner := ha.follow
    simp [next, follow_append, hinner]

theorem StmtText.follow {c : Stmt} {ts : List Token} :
    StmtText c ts → statement.follow ts = some finished
  | .simple ha => ha.follow
  | .seq ha hb => by
    have hfirst := ha.follow
    have hsecond := hb.follow
    simp [next, follow_append, hfirst, hsecond]

end

end Following

section Assigning

mutual

theorem SimpleText.becomes_infix {a : Stmt} {ts : List Token} :
    SimpleText a ts → ∀ x ∈ a.assigned, [.name x, .mark .becomes] <:+: ts
  | .skip | .assert _ | .exit _ => by simp [Stmt.assigned]
  | @SimpleText.assign y e ts _ _ => by
    intro x hx
    obtain rfl : x = y := by simpa [Stmt.assigned] using hx
    exact (List.prefix_append [.name x, .mark .becomes] ts).isInfix
  | @SimpleText.ite c a b ts us vs _ ha hb => by
    have hyes := ha.becomes_infix
    have hno := hb.becomes_infix
    intro x hx
    obtain hx | hx := List.mem_append.mp hx
    · exact (hyes x hx).trans ⟨.mark .cond :: (ts ++ [.mark .yes]), .mark .no :: vs, by simp⟩
    · exact (hno x hx).trans
        ⟨.mark .cond :: (ts ++ .mark .yes :: (us ++ [.mark .no])), [], by simp⟩
  | @SimpleText.step c a b ts us vs _ ha hb => by
    have hyes := ha.becomes_infix
    have hno := hb.becomes_infix
    intro x hx
    obtain hx | hx := List.mem_append.mp hx
    · exact (hyes x hx).trans ⟨.mark .condStep :: (ts ++ [.mark .yes]), .mark .no :: vs, by simp⟩
    · exact (hno x hx).trans
        ⟨.mark .condStep :: (ts ++ .mark .yes :: (us ++ [.mark .no])), [], by simp⟩
  | @SimpleText.loop c a ts us _ ha => by
    have hbody := ha.becomes_infix
    intro x hx
    exact (hbody x hx).trans ⟨.mark .loop :: (ts ++ [.mark .body]), [], by simp⟩
  | .brackets ha => by
    have hinner := ha.becomes_infix
    intro x hx
    exact (hinner x hx).trans ⟨[.mark .opening], [.mark .closing], by simp⟩

theorem StmtText.becomes_infix {a : Stmt} {ts : List Token} :
    StmtText a ts → ∀ x ∈ a.assigned, [.name x, .mark .becomes] <:+: ts
  | .simple ha => ha.becomes_infix
  | @StmtText.seq a b ts us ha hb => by
    have hfirst := ha.becomes_infix
    have hsecond := hb.becomes_infix
    intro x hx
    obtain hx | hx := List.mem_append.mp hx
    · exact (hfirst x hx).trans ⟨[], .mark .next :: us, by simp⟩
    · exact (hsecond x hx).trans ⟨ts ++ [.mark .next], [], by simp⟩

end

theorem Place.name_of_becomes {p : Place} {t : Token} {ts : List Token}
    (hts : (p.follow ts).isSome = true) (h : [t, .mark .becomes] <:+: ts) : ∃ x, t = .name x := by
  obtain ⟨us, vs, rfl⟩ := h
  rw [List.append_assoc, follow_append, Option.isSome_bind, Option.any_eq_true] at hts
  obtain ⟨q, -, hts⟩ := hts
  obtain ⟨q', hq, hts⟩ := isSome_follow_cons hts
  obtain ⟨q'', hq', -⟩ := isSome_follow_cons hts
  obtain rfl : q' = assigned := by
    cases q' <;> simp [next] at hq' ⊢
  cases t with
  | name x => exact ⟨x, rfl⟩
  | mark m => cases q <;> cases m <;> simp [next] at hq
  | _ => cases q <;> simp [next] at hq

end Assigning

section Counting

/-- Operands count for one, and what needs operands takes as many away. -/
def Token.surplus : Token → Int
  | name _ | numeral _ | hole => 1
  | sign _ => -1
  | mark .becomes => -2
  | mark .cond | mark .condStep | mark .loop | mark .assert | mark .exit => -1
  | _ => 0

/-- The words in front of parts count for one, and what has parts takes as many away. -/
def Token.parts : Token → Int
  | mark .yes | mark .no | mark .body => 1
  | mark .cond | mark .condStep => -2
  | mark .loop => -1
  | _ => 0

@[simp] theorem Token.surplus_name (x : String) : (name x).surplus = 1 :=
  rfl

@[simp] theorem Token.surplus_hole : hole.surplus = 1 :=
  rfl

@[simp] theorem Token.parts_name (x : String) : (name x).parts = 0 :=
  rfl

@[simp] theorem Token.parts_hole : hole.parts = 0 :=
  rfl

def surplus (ts : List Token) : Int :=
  (ts.map Token.surplus).sum

def parts (ts : List Token) : Int :=
  (ts.map Token.parts).sum

@[simp] theorem surplus_nil : surplus [] = 0 :=
  rfl

@[simp] theorem surplus_cons (t : Token) (ts : List Token) :
    surplus (t :: ts) = t.surplus + surplus ts :=
  List.sum_cons

@[simp] theorem surplus_append (ts us : List Token) :
    surplus (ts ++ us) = surplus ts + surplus us := by
  simp [surplus]

@[simp] theorem parts_nil : parts [] = 0 :=
  rfl

@[simp] theorem parts_cons (t : Token) (ts : List Token) : parts (t :: ts) = t.parts + parts ts :=
  List.sum_cons

@[simp] theorem parts_append (ts us : List Token) : parts (ts ++ us) = parts ts + parts us := by
  simp [parts]

mutual

theorem OperandText.count {e : Expr} {ts : List Token} :
    OperandText e ts → surplus ts = 1 ∧ parts ts = 0
  | .var _ => by simp [Token.surplus, Token.parts]
  | .num _ => by simp [Token.surplus, Token.parts]
  | .hole => by simp [Token.surplus, Token.parts]
  | .brackets he => by
    have hinner := he.count
    simp [Token.surplus, Token.parts, hinner]

theorem ExprText.count {e : Expr} {ts : List Token} :
    ExprText e ts → surplus ts = 1 ∧ parts ts = 0
  | .operand he => he.count
  | .operate op ha hb => by
    have hleft := ha.count
    have hright := hb.count
    simp [Token.surplus, Token.parts, hleft, hright]

end

mutual

theorem SimpleText.count {c : Stmt} {ts : List Token} :
    SimpleText c ts → surplus ts = 0 ∧ parts ts = 0
  | .skip => by simp [Token.surplus, Token.parts]
  | .assign _ he => by simp [Token.surplus, Token.parts, he.count]
  | .ite hc ha hb | .step hc ha hb => by
    have hyes := ha.count
    have hno := hb.count
    simp [Token.surplus, Token.parts, hc.count, hyes, hno]
  | .loop hc ha => by
    have hbody := ha.count
    simp [Token.surplus, Token.parts, hc.count, hbody]
  | .assert hc | .exit hc => by simp [Token.surplus, Token.parts, hc.count]
  | .brackets ha => by
    have hinner := ha.count
    simp [Token.surplus, Token.parts, hinner]

/-- A statement has as many operands and as many parts as it needs. -/
theorem StmtText.count {c : Stmt} {ts : List Token} :
    StmtText c ts → surplus ts = 0 ∧ parts ts = 0
  | .simple ha => ha.count
  | .seq ha hb => by
    have hfirst := ha.count
    have hsecond := hb.count
    simp [Token.surplus, Token.parts, hfirst, hsecond]

end

end Counting

end WhileSketch.While
