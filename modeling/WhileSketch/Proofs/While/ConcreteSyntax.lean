import Mathlib
import WhileSketch.Proofs.While.Programs
import WhileSketch.Proofs.While.Tokens

/-! Which tokens a statement may be written with, and that they tell which statement it is. -/

namespace WhileSketch.While

/-- Names that a derivation has for other things too, so that there is nothing left of one in
which a variable is called so. -/
def reserved : List String := ["S1", "num", "hole"]

mutual

inductive OperandText : Expr → List Token → Prop
  | var {x : String} (hx : x ∉ reserved) : OperandText (.var x) [.name x]
  | num {s : String} {n : Int} (h : Text.readInt s = .ok n) : OperandText (.num n) [.numeral s]
  | hole : OperandText .hole [.hole]
  | brackets {e : Expr} {ts : List Token} (he : ExprText e ts) :
      OperandText e (.mark .opening :: (ts ++ [.mark .closing]))

inductive ExprText : Expr → List Token → Prop
  | operand {e : Expr} {ts : List Token} (he : OperandText e ts) : ExprText e ts
  | operate {a b : Expr} {ts us : List Token} (op : Operator) (ha : OperandText a ts)
      (hb : OperandText b us) : ExprText (.operate op a b) (ts ++ .sign op :: us)

end

mutual

inductive SimpleText : Stmt → List Token → Prop
  | skip : SimpleText .skip [.mark .skip]
  | assign {x : String} {e : Expr} {ts : List Token} (hx : x ∉ reserved) (he : ExprText e ts) :
      SimpleText (.assign x e) (.name x :: .mark .becomes :: ts)
  | ite {c : Expr} {a b : Stmt} {ts us vs : List Token} (hc : ExprText c ts) (ha : StmtText a us)
      (hb : SimpleText b vs) :
      SimpleText (.ite c a b) (.mark .cond :: (ts ++ .mark .yes :: (us ++ .mark .no :: vs)))
  | step {c : Expr} {a b : Stmt} {ts us vs : List Token} (hc : ExprText c ts) (ha : StmtText a us)
      (hb : SimpleText b vs) :
      SimpleText (.step c a b) (.mark .condStep :: (ts ++ .mark .yes :: (us ++ .mark .no :: vs)))
  | loop {c : Expr} {a : Stmt} {ts us : List Token} (hc : ExprText c ts) (ha : SimpleText a us) :
      SimpleText (.loop c a) (.mark .loop :: (ts ++ .mark .body :: us))
  | assert {c : Expr} {ts : List Token} (hc : ExprText c ts) :
      SimpleText (.assert c) (.mark .assert :: ts)
  | exit {c : Expr} {ts : List Token} (hc : ExprText c ts) :
      SimpleText (.exit c) (.mark .exit :: ts)
  | brackets {a : Stmt} {ts : List Token} (ha : StmtText a ts) :
      SimpleText a (.mark .opening :: (ts ++ [.mark .closing]))

inductive StmtText : Stmt → List Token → Prop
  | simple {a : Stmt} {ts : List Token} (ha : SimpleText a ts) : StmtText a ts
  | seq {a b : Stmt} {ts us : List Token} (ha : SimpleText a ts) (hb : StmtText b us) :
      StmtText (.seq a b) (ts ++ .mark .next :: us)

end

section Tokens

/-- A numeral that can be read, or a name that is not taken for something else. -/
@[simp] def Legible : Token → Prop
  | .name x => x ∉ reserved
  | .numeral s => ∃ n, Text.readInt s = .ok n
  | _ => True

mutual

theorem OperandText.legible {e : Expr} {ts : List Token} :
    OperandText e ts → ∀ t ∈ ts, Legible t
  | .var hx => by simpa [Legible] using hx
  | .num hs => by simpa [Legible] using ⟨_, hs⟩
  | .hole => by simp [Legible]
  | .brackets he => by
    have hinner := he.legible
    simpa [Legible, or_imp, forall_and] using hinner

theorem ExprText.legible {e : Expr} {ts : List Token} :
    ExprText e ts → ∀ t ∈ ts, Legible t
  | .operand he => he.legible
  | .operate op ha hb => by
    have hleft := ha.legible
    have hright := hb.legible
    simpa [Legible, or_imp, forall_and] using ⟨hleft, hright⟩

end

mutual

theorem SimpleText.legible {a : Stmt} {ts : List Token} :
    SimpleText a ts → ∀ t ∈ ts, Legible t
  | .skip => by simp [Legible]
  | .assign hx he => by simpa [Legible] using ⟨hx, he.legible⟩
  | .ite hc ha hb | .step hc ha hb => by
    have hyes := ha.legible
    have hno := hb.legible
    simpa [Legible, or_imp, forall_and] using ⟨hc.legible, hyes, hno⟩
  | .loop hc ha => by
    have hbody := ha.legible
    simpa [Legible, or_imp, forall_and] using ⟨hc.legible, hbody⟩
  | .assert hc | .exit hc => by simpa [Legible] using hc.legible
  | .brackets ha => by
    have hinner := ha.legible
    simpa [Legible, or_imp, forall_and] using hinner

theorem StmtText.legible {a : Stmt} {ts : List Token} :
    StmtText a ts → ∀ t ∈ ts, Legible t
  | .simple ha => ha.legible
  | .seq ha hb => by
    have hfirst := ha.legible
    have hsecond := hb.legible
    simpa [Legible, or_imp, forall_and] using ⟨hfirst, hsecond⟩

end

mutual

theorem OperandText.name_mem_iff {e : Expr} {ts : List Token} :
    OperandText e ts → ∀ x, .name x ∈ ts ↔ x ∈ e.vars
  | .var _ => by simp [Expr.vars]
  | .num _ => by simp [Expr.vars]
  | .hole => by simp [Expr.hole, Expr.vars]
  | .brackets he => by
    have hinner := he.name_mem_iff
    simpa using hinner

theorem ExprText.name_mem_iff {e : Expr} {ts : List Token} :
    ExprText e ts → ∀ x, .name x ∈ ts ↔ x ∈ e.vars
  | .operand he => he.name_mem_iff
  | .operate op ha hb => by
    have hleft := ha.name_mem_iff
    have hright := hb.name_mem_iff
    simp [Expr.vars, hleft, hright]

end

mutual

theorem SimpleText.name_mem_iff {a : Stmt} {ts : List Token} :
    SimpleText a ts → ∀ x, .name x ∈ ts ↔ x ∈ a.vars
  | .skip => by simp [Stmt.vars]
  | .assign _ he => by simp [Stmt.vars, he.name_mem_iff]
  | .ite hc ha hb | .step hc ha hb => by
    have hyes := ha.name_mem_iff
    have hno := hb.name_mem_iff
    simp [Stmt.vars, hc.name_mem_iff, hyes, hno]
  | .loop hc ha => by
    have hbody := ha.name_mem_iff
    simp [Stmt.vars, hc.name_mem_iff, hbody]
  | .assert hc | .exit hc => by simp [Stmt.vars, hc.name_mem_iff]
  | .brackets ha => by
    have hinner := ha.name_mem_iff
    simpa using hinner

theorem StmtText.name_mem_iff {a : Stmt} {ts : List Token} :
    StmtText a ts → ∀ x, .name x ∈ ts ↔ x ∈ a.vars
  | .simple ha => ha.name_mem_iff
  | .seq ha hb => by
    have hfirst := ha.name_mem_iff
    have hsecond := hb.name_mem_iff
    simp [Stmt.vars, hfirst, hsecond]

end

mutual

theorem OperandText.exprTree {e : Expr} {ts : List Token} : OperandText e ts → ExprTree e e.tree
  | @OperandText.var x _ => .var x
  | @OperandText.num _ n _ => .num n
  | .hole => .hole
  | .brackets he => he.exprTree

theorem ExprText.exprTree {e : Expr} {ts : List Token} : ExprText e ts → ExprTree e e.tree
  | .operand he => he.exprTree
  | .operate op ha hb => .operate op ha.exprTree hb.exprTree

end

mutual

theorem SimpleText.stmtTree {a : Stmt} {ts : List Token} : SimpleText a ts → StmtTree a a.tree
  | .skip => .skipWritten
  | @SimpleText.assign x _ _ _ he => .assign x he.exprTree
  | .ite hc ha hb => .ite hc.exprTree ha.stmtTree hb.stmtTree
  | .step hc ha hb => .step hc.exprTree ha.stmtTree hb.stmtTree
  | .loop hc ha => .loop hc.exprTree ha.stmtTree
  | .assert hc => .assert hc.exprTree
  | .exit hc => .exit hc.exprTree
  | .brackets ha => ha.stmtTree

theorem StmtText.stmtTree {a : Stmt} {ts : List Token} : StmtText a ts → StmtTree a a.tree
  | .simple ha => ha.stmtTree
  | .seq ha hb => .seq ha.stmtTree hb.stmtTree

end

end Tokens

section Reading

/-! A reader that takes tokens from the left and never looks back. It does not check what it reads;
of use is that its answer depends on the tokens alone. -/

mutual

def readOperand : Nat → List Token → Expr × List Token
  | _ + 1, .name x :: rest => (.var x, rest)
  | _ + 1, .numeral s :: rest => (.num ((Text.readInt s).toOption.getD 0), rest)
  | n + 1, .mark .opening :: rest =>
    let (e, rest) := readExpr n rest
    (e, rest.tail)
  | _, ts => (.hole, ts.tail)

def readExpr : Nat → List Token → Expr × List Token
  | 0, ts => (.hole, ts)
  | n + 1, ts =>
    match readOperand n ts with
    | (a, .sign op :: rest) =>
      let (b, rest) := readOperand n rest
      (.operate op a b, rest)
    | (a, rest) => (a, rest)

end

mutual

def readSimple : Nat → List Token → Stmt × List Token
  | n + 1, .name x :: rest =>
    let (e, rest) := readExpr n rest.tail
    (.assign x e, rest)
  | n + 1, .mark .cond :: rest =>
    let (c, rest) := readExpr n rest
    let (a, rest) := readStmt n rest.tail
    let (b, rest) := readSimple n rest.tail
    (.ite c a b, rest)
  | n + 1, .mark .condStep :: rest =>
    let (c, rest) := readExpr n rest
    let (a, rest) := readStmt n rest.tail
    let (b, rest) := readSimple n rest.tail
    (.step c a b, rest)
  | n + 1, .mark .loop :: rest =>
    let (c, rest) := readExpr n rest
    let (a, rest) := readSimple n rest.tail
    (.loop c a, rest)
  | n + 1, .mark .assert :: rest =>
    let (c, rest) := readExpr n rest
    (.assert c, rest)
  | n + 1, .mark .exit :: rest =>
    let (c, rest) := readExpr n rest
    (.exit c, rest)
  | n + 1, .mark .opening :: rest =>
    let (a, rest) := readStmt n rest
    (a, rest.tail)
  | _, ts => (.skip, ts.tail)

def readStmt : Nat → List Token → Stmt × List Token
  | 0, ts => (.skip, ts)
  | n + 1, ts =>
    match readSimple n ts with
    | (a, .mark .next :: rest) =>
      let (b, rest) := readStmt n rest
      (.seq a b, rest)
    | (a, rest) => (a, rest)

end

mutual

theorem OperandText.read {e : Expr} {ts : List Token} (h : OperandText e ts) {n : Nat}
    (hn : 2 * ts.length ≤ n) (rest : List Token) : readOperand n (ts ++ rest) = (e, rest) := by
  cases h with
  | var hx =>
    obtain ⟨m, rfl⟩ : ∃ m, n = m + 1 := ⟨n - 1, by simp at hn; omega⟩
    rfl
  | num hs =>
    obtain ⟨m, rfl⟩ : ∃ m, n = m + 1 := ⟨n - 1, by simp at hn; omega⟩
    simp [readOperand, hs, Except.toOption]
  | hole =>
    obtain ⟨m, rfl⟩ : ∃ m, n = m + 1 := ⟨n - 1, by simp at hn; omega⟩
    rfl
  | brackets he =>
    obtain ⟨m, rfl⟩ : ∃ m, n = m + 1 := ⟨n - 1, by simp at hn; omega⟩
    have hread := he.read (n := m) (by simp at hn; omega) (.mark .closing :: rest) nofun
    simp [readOperand, hread]
termination_by n

theorem ExprText.read {e : Expr} {ts : List Token} (h : ExprText e ts) {n : Nat}
    (hn : 2 * ts.length + 1 ≤ n) (rest : List Token) (hrest : ∀ op, rest.head? ≠ some (.sign op)) :
    readExpr n (ts ++ rest) = (e, rest) := by
  obtain ⟨m, rfl⟩ : ∃ m, n = m + 1 := ⟨n - 1, by omega⟩
  cases h with
  | operand he =>
    have hread := he.read (n := m) (by omega) rest
    rw [readExpr, hread]
    split
    case h_1 hcons => simp_all
    case h_2 => simp_all
  | @operate a b ts us op ha hb =>
    simp only [List.length_append, List.length_cons] at hn
    have hfirst := ha.read (n := m) (by omega) (.sign op :: (us ++ rest))
    have hsecond := hb.read (n := m) (by omega) rest
    simp [readExpr, hfirst, hsecond]
termination_by n

end

mutual

theorem SimpleText.read {a : Stmt} {ts : List Token} (h : SimpleText a ts) {n : Nat}
    (hn : 2 * ts.length ≤ n) (rest : List Token) (hrest : ∀ op, rest.head? ≠ some (.sign op)) :
    readSimple n (ts ++ rest) = (a, rest) := by
  cases h with
  | skip =>
    obtain ⟨m, rfl⟩ : ∃ m, n = m + 1 := ⟨n - 1, by simp at hn; omega⟩
    rfl
  | assign hx he =>
    simp only [List.length_cons] at hn
    obtain ⟨m, rfl⟩ : ∃ m, n = m + 1 := ⟨n - 1, by omega⟩
    have hread := he.read (n := m) (by omega) rest hrest
    simp [readSimple, hread]
  | @ite c a b ts us vs hc ha hb =>
    simp only [List.length_cons, List.length_append] at hn
    obtain ⟨m, rfl⟩ : ∃ m, n = m + 1 := ⟨n - 1, by omega⟩
    have hcond := hc.read (n := m) (by omega) (.mark .yes :: (us ++ .mark .no :: (vs ++ rest))) nofun
    have hyes := ha.read (n := m) (by omega) (.mark .no :: (vs ++ rest)) nofun nofun
    have hno := hb.read (n := m) (by omega) rest hrest
    simp [readSimple, hcond, hyes, hno]
  | @step c a b ts us vs hc ha hb =>
    simp only [List.length_cons, List.length_append] at hn
    obtain ⟨m, rfl⟩ : ∃ m, n = m + 1 := ⟨n - 1, by omega⟩
    have hcond := hc.read (n := m) (by omega) (.mark .yes :: (us ++ .mark .no :: (vs ++ rest))) nofun
    have hyes := ha.read (n := m) (by omega) (.mark .no :: (vs ++ rest)) nofun nofun
    have hno := hb.read (n := m) (by omega) rest hrest
    simp [readSimple, hcond, hyes, hno]
  | @loop c a ts us hc ha =>
    simp only [List.length_cons, List.length_append] at hn
    obtain ⟨m, rfl⟩ : ∃ m, n = m + 1 := ⟨n - 1, by omega⟩
    have hcond := hc.read (n := m) (by omega) (.mark .body :: (us ++ rest)) nofun
    have hbody := ha.read (n := m) (by omega) rest hrest
    simp [readSimple, hcond, hbody]
  | assert hc | exit hc =>
    simp only [List.length_cons] at hn
    obtain ⟨m, rfl⟩ : ∃ m, n = m + 1 := ⟨n - 1, by omega⟩
    have hcond := hc.read (n := m) (by omega) rest hrest
    simp [readSimple, hcond]
  | brackets ha =>
    simp only [List.length_cons, List.length_append] at hn
    obtain ⟨m, rfl⟩ : ∃ m, n = m + 1 := ⟨n - 1, by omega⟩
    have hread := ha.read (n := m) (by omega) (.mark .closing :: rest) nofun nofun
    simp [readSimple, hread]
termination_by n

theorem StmtText.read {a : Stmt} {ts : List Token} (h : StmtText a ts) {n : Nat}
    (hn : 2 * ts.length + 1 ≤ n) (rest : List Token) (hrest : ∀ op, rest.head? ≠ some (.sign op))
    (hnext : rest.head? ≠ some (.mark .next)) : readStmt n (ts ++ rest) = (a, rest) := by
  obtain ⟨m, rfl⟩ : ∃ m, n = m + 1 := ⟨n - 1, by omega⟩
  cases h with
  | simple ha =>
    have hread := ha.read (n := m) (by omega) rest hrest
    rw [readStmt, hread]
    split
    case h_1 hcons => simp_all
    case h_2 => simp_all
  | @seq a b ts us ha hb =>
    simp only [List.length_append, List.length_cons] at hn
    have hfirst := ha.read (n := m) (by omega) (.mark .next :: (us ++ rest)) nofun
    have hsecond := hb.read (n := m) (by omega) rest hrest hnext
    simp [readStmt, hfirst, hsecond]
termination_by n

end

/-- The tokens of a statement are those of no other one. -/
theorem StmtText.unique {a b : Stmt} {ts : List Token} (ha : StmtText a ts) (hb : StmtText b ts) :
    a = b := by
  have hreada := ha.read le_rfl [] nofun nofun
  have hreadb := hb.read le_rfl [] nofun nofun
  exact congrArg Prod.fst (hreada.symm.trans hreadb)

end Reading

end WhileSketch.While
