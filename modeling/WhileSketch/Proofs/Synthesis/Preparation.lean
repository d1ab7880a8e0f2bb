import Mathlib
import WhileSketch.Synthesis.Session
import WhileSketch.Proofs.Synthesis.FilledText
import WhileSketch.Proofs.While.Legibility
import WhileSketch.Proofs.While.Quiet

/-! Programs whose holes have been given names, and what is known about their texts. -/

namespace WhileSketch

namespace Transcript

variable {α β : Type} {x : Transcript α} {f : α → Transcript β}

/-- A computation comes to a value, whatever has been reported before. -/
def Returns (x : Transcript α) (a : α) : Prop :=
  ∃ w w', StateT.run (ExceptT.run x) w = (.ok a, w')

theorem returns_of_result {a : α} (h : x.result = .ok a) : x.Returns a :=
  ⟨"", x.outcome.2, Prod.ext h rfl⟩

theorem Returns.bind {b : β} (h : Returns (x >>= f) b) : ∃ a, x.Returns a ∧ (f a).Returns b := by
  obtain ⟨w, w', h⟩ := h
  rw [ExceptT.run_bind, StateT.run_bind] at h
  cases hx : StateT.run (ExceptT.run x) w with
  | mk r v =>
    rw [hx] at h
    cases r with
    | error e => cases h
    | ok a => exact ⟨a, ⟨w, v, hx⟩, v, w', h⟩

theorem Returns.pure {a b : α} (h : Returns (Pure.pure a) b) : a = b := by
  obtain ⟨w, w', h⟩ := h
  cases h
  rfl

theorem Returns.throw {e : Fault} {a : α} (h : Returns (throw e : Transcript α) a) : False := by
  obtain ⟨w, w', h⟩ := h
  cases h

theorem Returns.lift {r : Except Fault α} {a : α} (h : Returns (liftM r : Transcript α) a) :
    r = .ok a := by
  obtain ⟨w, w', h⟩ := h
  cases r with
  | error e => cases h
  | ok b =>
    cases h
    rfl

def Quiet (x : Transcript α) : Prop :=
  ∀ w, WhileSketch.Quiet (StateT.run (ExceptT.run x) w).1

theorem Quiet.result (h : x.Quiet) : WhileSketch.Quiet x.result :=
  h ""

theorem Quiet.bind (hx : x.Quiet) (hf : ∀ a, (f a).Quiet) : Quiet (x >>= f) := by
  intro w
  rw [ExceptT.run_bind, StateT.run_bind]
  have hw := hx w
  cases hr : StateT.run (ExceptT.run x) w with
  | mk r v =>
    rw [hr] at hw
    cases r with
    | error e => exact fun h => hw (congrArg Except.error (Except.error.inj h))
    | ok a => exact hf a v

theorem quiet_pure (a : α) : Quiet (Pure.pure a) :=
  fun _ => nofun

theorem quiet_throw {e : Fault} (he : e ≠ .notVerified) : Quiet (throw e : Transcript α) :=
  fun _ h => he (Except.error.inj h)

theorem quiet_say (line : String) : Quiet (say line) :=
  fun _ => nofun

theorem quiet_lift {r : Except Fault α} (hr : WhileSketch.Quiet r) :
    Quiet (liftM r : Transcript α) := by
  intro w
  cases r with
  | error e => exact fun h => hr (congrArg Except.error (Except.error.inj h))
  | ok a => exact nofun

theorem Quiet.guard {c : Prop} [Decidable c] {e : Fault} {f : Unit → Transcript α}
    (he : e ≠ .notVerified) (hf : (f ()).Quiet) :
    Quiet (if c then throw e >>= f else f ()) := by
  split_ifs
  · exact (quiet_throw he).bind fun _ => hf
  · exact hf

/-- A computation comes to a value whatever has been reported before, and does not fail. -/
def Always (x : Transcript α) (a : α) : Prop :=
  ∀ w, ∃ w', StateT.run (ExceptT.run x) w = (.ok a, w')

theorem Always.result {a : α} (h : x.Always a) : x.result = .ok a := by
  obtain ⟨w', hw⟩ := h ""
  rw [Transcript.result, outcome, hw]

theorem always_pure (a : α) : Always (pure a) a :=
  fun w => ⟨w, rfl⟩

theorem always_say (line : String) : Always (say line) () :=
  fun _ => ⟨_, rfl⟩

theorem Always.bind {a : α} {b : β} (hx : x.Always a) (hf : (f a).Always b) :
    Always (x >>= f) b := by
  intro w
  obtain ⟨v, hv⟩ := hx w
  obtain ⟨u, hu⟩ := hf v
  refine ⟨u, ?_⟩
  rw [ExceptT.run_bind, StateT.run_bind, hv]
  exact hu

theorem always_lift {r : Except Fault α} {a : α} (h : r = .ok a) : Always (liftM r : Transcript α) a := by
  subst h
  exact fun w => ⟨w, rfl⟩

theorem Always.guard {c : Prop} [Decidable c] (hc : ¬ c) {e : Fault} {f : Unit → Transcript α} {a : α}
    (hf : (f ()).Always a) : Always (if c then throw e >>= f else f ()) a := by
  rw [if_neg hc]
  exact hf

end Transcript

namespace Sketch

open Transcript

theorem quiet_removeAssertions (program : String) : Transcript.Quiet (removeAssertions program) := by
  refine (quiet_lift (While.quiet_parse program)).bind fun t? => ?_
  cases t? with
  | none => exact quiet_pure none
  | some t =>
    refine (quiet_say _).bind fun _ => (quiet_say _).bind fun _ => ?_
    cases While.withoutAssertions t with
    | none => exact quiet_pure none
    | some u =>
      exact ((quiet_lift (While.quiet_print u)).bind fun _ => quiet_pure _).bind fun _ => quiet_pure _

theorem quiet_check (s : Session) (program : String) : Transcript.Quiet (check s program) := by
  refine (quiet_lift (While.quiet_parse program)).bind fun t? => .guard (by nofun) ?_
  refine (quiet_removeAssertions program).bind fun bare? => (quiet_say _).bind fun _ => ?_
  cases bare? with
  | none => exact fun _ => nofun
  | some bare =>
    refine (quiet_lift (While.quiet_parse bare)).bind fun u? => .guard (by nofun) ?_
    cases t? with
    | none => exact fun _ => nofun
    | some t =>
      refine (quiet_pure t).bind fun t => (quiet_lift (While.quiet_variableNames t)).bind fun vars => ?_
      refine (quiet_say _).bind fun _ => ?_
      cases Holes.find? vars with
      | none => exact quiet_pure ()
      | some name => exact (quiet_say _).bind fun _ => quiet_throw nofun

theorem quiet_parseUnrolled (limit : Int) (program : String) :
    Transcript.Quiet (parseUnrolled limit program) := by
  refine (quiet_lift (While.quiet_parse program)).bind fun t? => ?_
  cases t? with
  | none => exact quiet_pure none
  | some t =>
    refine (quiet_lift (While.quiet_unroll limit t)).bind fun u => ?_
    exact (quiet_say _).bind fun _ => quiet_pure (some u)

theorem quiet_prepare (s : Session) (limit : Int) (program : String) :
    Transcript.Quiet (prepare s limit program) := by
  refine (quiet_check s program).bind fun _ => (quiet_say _).bind fun _ => .guard (by nofun) ?_
  refine (quiet_lift (While.quiet_parse _)).bind fun t? => .guard (by nofun) ?_
  refine (quiet_parseUnrolled limit _).bind fun u? => ?_
  cases u? with
  | none => exact fun _ => nofun
  | some u =>
    refine (quiet_lift (While.quiet_print u)).bind fun l => ?_
    exact (quiet_say _).bind fun _ => quiet_pure _

open While

/-- A sketch has names of holes, and the text of a program after unrolling. -/
structure Shows (sketch : Sketch) (limit : Int) (c : Stmt) : Prop where
  isHole : ∀ x ∈ sketch.holes, Holes.isHole x = true
  isName : ∀ x ∈ c.vars, While.isName x = true
  tree : ∃ u, StmtTree (c.unrolled limit) u
  unrolled : sketch.unrolled = (c.unrolled limit).text

theorem isHole_name (i : Nat) : Holes.isHole (Holes.name i) = true := by
  have hdigits : (toString i).toList = Nat.toDigits 10 i := by
    rw [Nat.toString_eq_repr, Nat.toList_repr]
  have hname : (Holes.name i).toList = Holes.stem ++ (Nat.toDigits 10 i ++ []) := by
    rw [Holes.name, String.toList_append, hdigits, List.append_nil]
    rfl
  have hall : ∀ c ∈ Nat.toDigits 10 i, Text.isDigit c = true := fun c hc =>
    Text.isDigit_of_ascii (Nat.isDigit_of_mem_toDigits (by decide) (by decide) hc)
  have hne : Nat.toDigits 10 i ≠ [] := Nat.toDigits_ne_nil
  rw [Holes.isHole, hname, Holes.nameLength?_stem hall (by simp)]
  simp [hne]

theorem parseUnrolled_some {limit : Int} {program : String} {u : Tree Label}
    (h : (parseUnrolled limit program).Returns (some u)) :
    ∃ t, parse program = .ok (some t) ∧ unroll limit t = .ok u := by
  obtain ⟨t?, ht, h⟩ := h.bind
  cases t? with
  | none => cases h.pure
  | some t =>
    obtain ⟨v, hv, h⟩ := h.bind
    obtain ⟨_, -, h⟩ := h.bind
    cases h.pure
    exact ⟨t, ht.lift, hv.lift⟩

theorem prepare_returns {s : Session} {limit : Int} {program : String} {sketch : Sketch}
    (h : (prepare s limit program).Returns sketch) :
    ∃ t u l, parse (Holes.nameAll program).1 = .ok (some t) ∧ unroll limit t = .ok u ∧
      print u = .ok l ∧
      sketch = ⟨(Holes.nameAll program).2, (Holes.nameAll program).1, l.plain⟩ := by
  obtain ⟨_, -, h⟩ := h.bind
  generalize Holes.nameAll program = named at h ⊢
  obtain ⟨text, holes⟩ := named
  obtain ⟨_, -, h⟩ := h.bind
  split_ifs at h
  · exact h.bind.elim fun _ h => h.1.throw.elim
  · obtain ⟨t?, -, h⟩ := h.bind
    dsimp only at h
    split_ifs at h
    · exact h.bind.elim fun _ h => h.1.throw.elim
    · obtain ⟨u?, hu, h⟩ := h.bind
      cases u? with
      | none => exact h.throw.elim
      | some u =>
        obtain ⟨l, hl, h⟩ := h.bind
        obtain ⟨_, -, h⟩ := h.bind
        obtain ⟨t, ht, htu⟩ := parseUnrolled_some hu
        exact ⟨t, u, l, ht, htu, hl.lift, h.pure.symm⟩

section Passing

variable {s : Session} {limit : Int} {program : String} {t₀ v w t u : Tree Label} {l : Label}
  {vars : List String}

/-- A program passes the checks if it can be read, something is left of it without assertions, and no
variable has the name of a hole. -/
theorem always_check (hs : s.tree? ≠ none) (h₀ : parse program = .ok (some t₀))
    (hbare : withoutAssertions t₀ = some v) (hl : print v = .ok l)
    (hw : parse l.plain = .ok (some w)) (hvars : variableNames t₀ = .ok vars)
    (hnone : Holes.find? vars = none) : (check s program).Always () := by
  have hremove : (removeAssertions program).Always (some l.plain) := by
    refine (always_lift h₀).bind ((always_say _).bind ((always_say _).bind ?_))
    have hprint : Always (do return (← (liftM (print v) : Transcript Label)).plain) l.plain :=
      (always_lift hl).bind (always_pure _)
    rw [hbare]
    exact hprint.bind (always_pure _)
  refine (always_lift h₀).bind (.guard (by simpa using hs) (hremove.bind ((always_say _).bind ?_)))
  refine (always_lift hw).bind (.guard (by simp) ((always_pure t₀).bind ?_))
  refine (always_lift hvars).bind ((always_say _).bind ?_)
  rw [hnone]
  exact always_pure ()

/-- A program that passes the checks is prepared if it has holes and can be read with names for
them. -/
theorem prepare_eq (hcheck : (check s program).Always ()) (hholes : (Holes.nameAll program).2 ≠ [])
    (h : parse (Holes.nameAll program).1 = .ok (some t)) (hu : unroll limit t = .ok u)
    (hl : print u = .ok l) : (prepare s limit program).result =
      .ok ⟨(Holes.nameAll program).2, (Holes.nameAll program).1, l.plain⟩ := by
  have hunrolled : (parseUnrolled limit (Holes.nameAll program).1).Always (some u) :=
    (always_lift h).bind ((always_lift hu).bind ((always_say _).bind (always_pure _)))
  have hempty : ¬ (Holes.nameAll program).2.isEmpty = true := by
    rwa [List.isEmpty_iff]
  refine Always.result (hcheck.bind ((always_say _).bind (.guard hempty ?_)))
  refine (always_lift h).bind (.guard (by simp) (hunrolled.bind ?_))
  exact (always_lift hl).bind ((always_say _).bind (always_pure _))

theorem exists_prepare {a b c : Stmt} {ta tc : Tree Label} (hs : s.tree? ≠ none)
    (ha : StmtTree a ta) (hb : StmtTree b v) (hc : StmtTree c tc)
    (hbare : withoutAssertions a.chained.tree = some v)
    (hnames : ∀ x ∈ a.vars ++ b.vars ++ c.vars, isName x = true)
    (hlegible : a.Legible ∧ b.Legible ∧ c.Legible)
    (hvars : variableNames a.chained.tree = .ok vars) (hnone : Holes.find? vars = none)
    {holes : List String} (hname : Holes.nameAll a.text = (c.text, holes)) (hholes : holes ≠ [])
    (limit : Int) : ∃ sketch, (prepare s limit a.text).result = .ok sketch := by
  simp only [List.forall_mem_append] at hnames
  obtain ⟨⟨hna, hnb⟩, hnc⟩ := hnames
  obtain ⟨hla, hlb, hlc⟩ := hlegible
  have hcheck := always_check hs (ha.parse_text hna hla) hbare hb.print_eq (hb.parse_text hnb hlb)
    hvars hnone
  have hread : parse (Holes.nameAll a.text).1 = .ok (some c.chained.tree) := by
    rw [hname]
    exact hc.parse_text hnc hlc
  have hloop : ∀ x ∈ c.chained.vars, x ≠ "while" := by
    rw [Stmt.vars_chained]
    rintro x hx rfl
    exact absurd (hnc _ hx) (by decide)
  obtain ⟨u, hu, hutree⟩ : ∃ u, unroll limit c.chained.tree = .ok u ∧
      StmtTree (c.chained.unrolled limit) u := (hc.stmtText hlc).1.stmtTree.unroll hloop
  have hsome : (Holes.nameAll a.text).2 ≠ [] := by
    rw [hname]
    exact hholes
  exact ⟨_, prepare_eq hcheck hsome hread hu hutree.print_eq⟩

end Passing

/-- All that counts of a session is whether it has a program. -/
theorem prepare_congr {s s' : Session} (h : s.tree?.isNone = s'.tree?.isNone) (limit : Int)
    (program : String) : prepare s limit program = prepare s' limit program := by
  rw [prepare, prepare, check, check, h]

/-- A sketch that has been prepared is one of the program that its text denotes. -/
theorem shows_of_prepare {s : Session} {limit : Int} {program : String} {sketch : Sketch}
    (h : (prepare s limit program).result = .ok sketch) :
    sketch.holes = (Holes.nameAll program).2 ∧ sketch.text = (Holes.nameAll program).1 ∧
      ∃ t u, parse sketch.text = .ok (some t) ∧ unroll limit t = .ok u ∧ StmtTree (Stmt.ofTree t) t ∧
        StmtTree ((Stmt.ofTree t).unrolled limit) u ∧ sketch.Shows limit (Stmt.ofTree t) := by
  obtain ⟨t, u, l, ht, hu, hl, rfl⟩ := prepare_returns (returns_of_result h)
  obtain ⟨c, ts, -, hts, htree, hnames⟩ := parse_sound ht
  have hname : ∀ x ∈ c.vars, While.isName x = true := fun x hx => hnames x ((hts.name_mem_iff x).mpr hx)
  have hloop : ∀ x ∈ c.vars, x ≠ "while" := by
    rintro x hx rfl
    have hkeyword : While.isName "while" = false := by decide
    rw [hname _ hx] at hkeyword
    cases hkeyword
  obtain ⟨v, hv, hvtree⟩ := htree.unroll hloop
  rw [hu] at hv
  cases hv
  rw [hvtree.print_eq] at hl
  cases hl
  refine ⟨rfl, rfl, t, u, ht, hu, ?_⟩
  rw [htree.ofTree_eq]
  refine ⟨htree, hvtree, ?_, hname, ⟨u, hvtree⟩, rfl⟩
  intro x hx
  obtain ⟨i, -, rfl⟩ := List.mem_map.mp hx
  exact isHole_name i

theorem prepare_text {s : Session} {limit : Int} {program : String} {sketch : Sketch}
    (h : (prepare s limit program).result = .ok sketch) {c : Stmt} (hc : c.isSorted = true)
    (hnames : ∀ x ∈ c.vars, While.isName x = true) (hchained : c.chained = c)
    (htext : (Holes.nameAll program).1 = c.text) :
    sketch = ⟨(Holes.nameAll program).2, c.text, (c.unrolled limit).text⟩ ∧ sketch.Shows limit c ∧
      ∃ t, parse c.text = .ok (some t) ∧ StmtTree c t := by
  obtain ⟨hholes, heq, t, u, ht, -, -, -, hshows⟩ := shows_of_prepare h
  obtain ⟨v, hv⟩ := Stmt.exists_tree hc
  rw [heq, htext] at ht
  have htree := hv.of_parse_text hnames ht
  rw [hchained] at htree
  rw [htree.ofTree_eq] at hshows
  refine ⟨?_, hshows, t, ht, htree⟩
  rw [← hholes, ← htext, ← heq, ← hshows.unrolled]

end Sketch

end WhileSketch
