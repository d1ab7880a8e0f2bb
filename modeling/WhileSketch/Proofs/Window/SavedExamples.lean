import Mathlib
import WhileSketch.Proofs.Window.Actions

/-! The examples that have been saved, and the values that are taken from them. They are kept side by
side, and in a run of the application they stay in step just as long as no examples are stranded or
mixed: the table is not opened for other variables while there are values, and no table is saved that
has been open since before the variables changed. -/

namespace WhileSketch

namespace TypedExample

variable {e : TypedExample} {es : List TypedExample} {vars : List String}

def IsNumeric (e : TypedExample) : Prop :=
  ∀ p ∈ e, isEntry p.2.input = true ∧ isEntry p.2.output = true

theorem lookup_reverse (hkeys : (e.map Prod.fst).Nodup) {x : String} {c : Cell}
    (h : (x, c) ∈ e) : e.reverse.lookup x = some c := by
  cases hc : e.reverse.lookup x with
  | none =>
    rw [List.lookup_eq_none_iff] at hc
    simpa using hc (x, c) (List.mem_reverse.mpr h)
  | some c' =>
    obtain ⟨l, l', heq, -⟩ := List.lookup_eq_some_iff.mp hc
    have hmem : (x, c') ∈ e := List.mem_reverse.mp (by rw [heq]; simp)
    have hsame := List.inj_on_of_nodup_map hkeys hmem h rfl
    cases hsame
    rfl

theorem misfit?_eq (hkeys : (e.map Prod.fst).Nodup) {xs : List String}
    (hxs : ∀ x ∈ xs, x ∈ e.map Prod.fst) :
    ∃ x?, misfit? e xs = .ok x? ∧
      (x? = none ↔ ∀ p ∈ e, p.1 ∈ xs → isEntry p.2.input = true ∧ isEntry p.2.output = true) := by
  induction xs with
  | nil => exact ⟨none, rfl, by simp⟩
  | cons x xs ih =>
    obtain ⟨hx, hrest⟩ := List.forall_mem_cons.mp hxs
    obtain ⟨⟨_, c⟩, hc, rfl⟩ := List.mem_map.mp hx
    obtain ⟨x?, hx?, hiff⟩ := ih hrest
    rw [misfit?, lookup_reverse hkeys hc]
    dsimp only
    split_ifs with hentry
    · refine ⟨x?, hx?, hiff.trans ⟨fun h p hp hmem => ?_, fun h p hp hmem => ?_⟩⟩
      · obtain heq | hmem := List.mem_cons.mp hmem
        · rw [List.inj_on_of_nodup_map hkeys hp hc heq]
          exact Bool.and_eq_true_iff.mp hentry
        · exact h p hp hmem
      · exact h p hp (List.mem_cons_of_mem _ hmem)
    · refine ⟨some _, rfl, by simp, fun h => absurd ?_ hentry⟩
      exact Bool.and_eq_true_iff.mpr (h _ hc List.mem_cons_self)

/-- There is a complaint about examples just when they are not made of numbers. -/
theorem complaint?_eq (hvars : vars.Nodup) (hes : ∀ e ∈ es, e.map Prod.fst = vars) (n : Nat) :
    ∃ c?, complaint? vars n es = .ok c? ∧ (c? = none ↔ ∀ e ∈ es, IsNumeric e) := by
  induction es generalizing n with
  | nil => exact ⟨none, rfl, by simp⟩
  | cons e es ih =>
    obtain ⟨he, hes⟩ := List.forall_mem_cons.mp hes
    have hsub : ∀ x ∈ vars, x ∈ e.map Prod.fst := by simp [he]
    obtain ⟨x?, hx?, hfirst⟩ := misfit?_eq (he ▸ hvars) hsub
    have hnumeric : x? = none ↔ IsNumeric e := by
      rw [hfirst]
      exact forall₂_congr fun p hp => by simp [← he, List.mem_map_of_mem hp]
    obtain ⟨c?, hc?, hrest⟩ := ih hes (n + 1)
    rw [complaint?, hx?]
    cases x? with
    | none =>
      refine ⟨c?, hc?, ?_⟩
      rw [hrest, List.forall_mem_cons, ← hnumeric]
      simp
    | some x =>
      refine ⟨some _, rfl, ?_⟩
      rw [List.forall_mem_cons, ← hnumeric]
      simp

theorem succeeds_values {text : Cell → String} (h : ∀ p ∈ e, isEntry (text p.2) = true) :
    Succeeds (values text e) := by
  refine Succeeds.mapM fun p hp => ?_
  obtain ⟨x, c⟩ := p
  obtain ⟨hp, hgiven⟩ := List.mem_filter.mp hp
  have hentry := h _ hp
  rw [isEntry, isNumber] at hentry
  dsimp only at hgiven hentry ⊢
  cases hn : Text.readInt (text c) with
  | error => simp_all [Except.isOk, Except.toBool]
  | ok n => exact ⟨(x, n), rfl⟩

theorem succeeds_inputs_outputs (h : ∀ e ∈ es, IsNumeric e) :
    Succeeds (inputs es) ∧ Succeeds (outputs es) :=
  ⟨Succeeds.mapM fun e he => succeeds_values fun p hp => (h e he p hp).1,
    Succeeds.mapM fun e he => succeeds_values fun p hp => (h e he p hp).2⟩

theorem eq_nil_of_inputs (h : inputs es = .ok []) : es = [] := by
  cases es with
  | nil => rfl
  | cons e es =>
    rw [inputs, List.mapM_cons] at h
    obtain ⟨_, -, h⟩ := bind_eq_ok.mp h
    obtain ⟨_, -, h⟩ := bind_eq_ok.mp h
    cases h

end TypedExample

theorem map_modify_of_eq {α β : Type} {f : α → α} {g : α → β} (h : ∀ a, g (f a) = g a)
    (l : List α) (i : Nat) : (l.modify i f).map g = l.map g := by
  refine List.ext_getElem? fun k => ?_
  simp only [List.getElem?_map, List.getElem?_modify]
  split_ifs <;> cases l[k]? <;> simp [h]

namespace ExampleTable

variable {t : ExampleTable} {vars : List String}

/-- Each row of the table has the variables of the table, which are different ones. -/
structure Fits (t : ExampleTable) : Prop where
  nodup : t.vars.Nodup
  rows : ∀ r ∈ t.rows, r.cells.map Prod.fst = t.vars

def IsNumeric (t : ExampleTable) : Prop :=
  ∀ e ∈ t.examples, TypedExample.IsNumeric e

theorem Fits.examples (h : t.Fits) : ∀ e ∈ t.examples, e.map Prod.fst = t.vars :=
  List.forall_mem_map.mpr h.rows

theorem Fits.forall_examples_iff (h : t.Fits) :
    (∀ e ∈ t.examples, e.map Prod.fst = vars) ↔ t.rows = [] ∨ t.vars = vars := by
  rw [ExampleTable.examples, List.forall_mem_map]
  constructor
  · intro hall
    cases hrows : t.rows with
    | nil => exact .inl rfl
    | cons r rs =>
      have hr : r ∈ t.rows := by simp [hrows]
      exact .inr ((h.rows r hr).symm.trans (hall r hr))
  · rintro (hnone | rfl)
    · simp [hnone]
    · exact h.rows

theorem Fits.add (h : t.Fits) (e : TypedExample) : (t.add e).Fits := by
  refine ⟨h.nodup, fun r hr => ?_⟩
  obtain hr | hr := List.mem_append.mp hr
  · exact h.rows r hr
  · rw [List.mem_singleton.mp hr]
    simp [restrict, Function.comp_def, ExampleTable.add]

theorem Fits.foldl_add (h : t.Fits) (es : List TypedExample) :
    (es.foldl ExampleTable.add t).Fits := by
  induction es generalizing t with
  | nil => exact h
  | cons e es ih => exact ih (h.add e)

theorem fits_ofExamples (hvars : vars.Nodup) (es : List TypedExample) :
    (ofExamples vars es).Fits := by
  have hempty : Fits ⟨vars, [], 0⟩ := ⟨hvars, by simp⟩
  rw [ofExamples]
  split_ifs
  · exact hempty.add []
  · exact hempty.foldl_add es

theorem Fits.delete (h : t.Fits) (row : Nat) : (t.delete row).Fits :=
  ⟨h.nodup, fun r hr => h.rows r (List.mem_of_mem_eraseIdx hr)⟩

theorem Fits.type (h : t.Fits) (row column : Nat) (isOutput : Bool) (text : String) :
    (t.type row column isOutput text).Fits := by
  have hkept : (t.type row column isOutput text).rows.map (fun r => r.cells.map Prod.fst) =
      t.rows.map fun r => r.cells.map Prod.fst := by
    refine map_modify_of_eq (fun r => ?_) t.rows row
    refine map_modify_of_eq ?_ r.cells column
    exact fun _ => rfl
  refine ⟨h.nodup, fun r hr => ?_⟩
  have hmem : r.cells.map Prod.fst ∈ (t.type row column isOutput text).rows.map
      fun r => r.cells.map Prod.fst := List.mem_map_of_mem hr
  rw [hkept] at hmem
  obtain ⟨r₀, hr₀, heq⟩ := List.mem_map.mp hmem
  exact heq.symm.trans (h.rows r₀ hr₀)

end ExampleTable

namespace Pane

variable {α : Type}

theorem content?_openWith (p : Pane α) (fresh : α) :
    (p.openWith fresh).content? = some (p.content?.getD fresh) := by
  cases p <;> rfl

theorem content?_close (p : Pane α) : p.close.content? = none := by
  cases p <;> rfl

theorem forall_content?_modify {p : Pane α} {P : α → Prop} {f : α → α}
    (h : ∀ a, p.content? = some a → P (f a)) : ∀ a, (p.modify f).content? = some a → P a := by
  intro b hb
  cases p with
  | shown a =>
    cases hb
    exact h a rfl
  | unopened => cases hb
  | closed => cases hb

end Pane

namespace ExampleStore

variable {s : ExampleStore} {t : ExampleTable} {vars : List String}

/-- The values are those of the saved examples, and each saved example has the variables for which
examples are given. -/
structure Agrees (s : ExampleStore) : Prop where
  inputs : TypedExample.inputs s.saved = .ok s.inputs
  outputs : TypedExample.outputs s.saved = .ok s.outputs
  vars : ∀ e ∈ s.saved, e.map Prod.fst = s.vars

theorem agrees_empty : empty.Agrees :=
  ⟨rfl, rfl, by simp [empty]⟩

theorem retarget_vars (s : ExampleStore) (vars : List String) : (s.retarget vars).vars = vars := by
  rw [retarget]
  split_ifs with h
  · exact h.symm
  · rfl

/-- To give examples for other variables leaves values behind, if there are any. -/
theorem Agrees.retarget_iff (h : s.Agrees) :
    (s.retarget vars).Agrees ↔ vars = s.vars ∨ s.inputs = [] := by
  rw [retarget]
  split_ifs with hvars
  · exact iff_of_true h (.inl hvars)
  · rw [or_iff_right hvars]
    constructor
    · intro h'
      exact (Except.ok.inj h'.inputs).symm
    · intro hnone
      have hsaved : s.saved = [] := TypedExample.eq_nil_of_inputs (hnone ▸ h.inputs)
      have houtputs := h.outputs
      rw [hsaved] at houtputs
      exact ⟨hnone ▸ rfl, houtputs, by simp⟩

/-- To save a table that is about other variables puts its examples, if it has any and they are made
of numbers, among variables that they do not have. -/
theorem Agrees.save_eq (h : s.Agrees) (ht : t.Fits) :
    ∃ s' notice, s.save t = .ok (s', notice) ∧
      (s'.Agrees ↔ ¬t.IsNumeric ∨ t.rows = [] ∨ t.vars = s.vars) := by
  obtain ⟨c?, hc?, hiff⟩ := TypedExample.complaint?_eq ht.nodup ht.examples 1
  rw [save, hc?]
  cases c? with
  | some c =>
    have hnot : ¬t.IsNumeric := fun h => by cases hiff.mpr h
    exact ⟨s, _, rfl, iff_of_true h (.inl hnot)⟩
  | none =>
    have hnumeric : t.IsNumeric := hiff.mp rfl
    obtain ⟨⟨ins, hins⟩, outs, houts⟩ := TypedExample.succeeds_inputs_outputs hnumeric
    refine ⟨⟨s.vars, t.examples, ins, outs⟩, .success "Examples saved successfully.", ?_, ?_⟩
    · rw [hins, houts]
      rfl
    · rw [or_iff_right (not_not_intro hnumeric), ← ht.forall_examples_iff]
      exact ⟨Agrees.vars, fun hvars => ⟨hins, houts, hvars⟩⟩

end ExampleStore

namespace Application

variable {solver : Solver} {a : Application}

theorem nodup_of_vars? {text : String} {vars : List String} (h : vars? text = .ok (some vars)) :
    vars.Nodup := by
  obtain ⟨t?, ht?, h⟩ := bind_eq_ok.mp h
  cases t? with
  | none => cases h
  | some t =>
    obtain ⟨c, -, -, -, htree, -⟩ := While.parse_sound ht?
    obtain ⟨xs, hxs, h⟩ := bind_eq_ok.mp h
    cases h
    rw [htree.variableNames_eq] at hxs
    split_ifs at hxs
    cases hxs
    exact c.nodup_names

theorem act_openTable {vars : List String} (h : vars? (Text.trim a.program) = .ok (some vars)) :
    (a.act solver .openTable).1 = { a with
      store := a.store.retarget vars,
      table := a.table.openWith (.ofExamples vars (a.store.retarget vars).saved) } := by
  rw [act, openTable, h]
  simp only [ExampleStore.retarget_vars]

theorem act_saveTable {t : ExampleTable} {s : ExampleStore} {notice : Notice}
    (ht : a.table.content? = some t) (hsave : a.store.save t = .ok (s, notice)) :
    (a.act solver .saveTable).1 = { a with store := s, notice := notice } := by
  rw [act, saveTable, ht]
  dsimp only
  rw [hsave]

def TableFits (a : Application) : Prop :=
  ∀ t, a.table.content? = some t → t.Fits

theorem TableFits.act (h : a.TableFits) (x : Action) : (a.act solver x).1.TableFits := by
  cases hx : x.isAboutExamples with
  | false =>
    have htable : (a.act solver x).1.table = a.table := congrArg Prod.snd (act_examplePart hx)
    rwa [TableFits, htable]
  | true =>
    cases x with
    | openTable =>
      rw [Application.act, openTable]
      split
      · exact h
      · exact h
      case h_3 vars hvars =>
        intro t ht
        rw [Pane.content?_openWith] at ht
        cases ht
        cases hshown : a.table.content? with
        | some t => exact h t hshown
        | none =>
          rw [ExampleStore.retarget_vars]
          exact ExampleTable.fits_ofExamples (nodup_of_vars? hvars) _
    | closeTable =>
      intro t ht
      rw [Application.act, Pane.content?_close] at ht
      cases ht
    | typeEntry row column isOutput text =>
      exact Pane.forall_content?_modify fun t ht => (h t ht).type ..
    | addRow => exact Pane.forall_content?_modify fun t ht => (h t ht).add []
    | deleteRow row =>
      rw [Application.act, deleteRow]
      dsimp only
      split
      · exact Pane.forall_content?_modify fun t ht => (h t ht).delete row
      · exact h
    | saveTable =>
      rw [Application.act, saveTable]
      split
      · exact h
      · split <;> exact h
    | _ => cases hx

/-- The table is opened for other variables than those that there are values for. -/
def Strands (a : Application) (x : Action) : Prop :=
  x = .openTable ∧ a.store.inputs ≠ [] ∧
    ∃ vars, vars? (Text.trim a.program) = .ok (some vars) ∧ vars ≠ a.store.vars

/-- Examples are saved from a table that is about other variables. -/
def Mixes (a : Application) (x : Action) : Prop :=
  x = .saveTable ∧ ∃ t, a.table.content? = some t ∧ t.vars ≠ a.store.vars ∧ t.rows ≠ [] ∧ t.IsNumeric

theorem agrees_openTable_iff (h : a.store.Agrees) :
    (a.act solver .openTable).1.store.Agrees ↔ ¬a.Strands .openTable := by
  rw [act, openTable]
  split
  case h_1 f hf => exact iff_of_true h (by simp [Strands, hf])
  case h_2 hnone => exact iff_of_true h (by simp [Strands, hnone])
  case h_3 vars hvars =>
    have hstrands : a.Strands .openTable ↔ a.store.inputs ≠ [] ∧ vars ≠ a.store.vars := by
      simp [Strands, hvars]
    rw [h.retarget_iff, hstrands, not_and_or, not_not, not_not, or_comm]

theorem agrees_saveTable_iff (hfits : a.TableFits) (h : a.store.Agrees) :
    (a.act solver .saveTable).1.store.Agrees ↔ ¬a.Mixes .saveTable := by
  cases ht : a.table.content? with
  | none =>
    rw [act, saveTable, ht]
    exact iff_of_true h (by simp [Mixes, ht])
  | some t =>
    have hmixes : a.Mixes .saveTable ↔ t.vars ≠ a.store.vars ∧ t.rows ≠ [] ∧ t.IsNumeric := by
      simp [Mixes, ht]
    obtain ⟨s, notice, hsave, hagrees⟩ := h.save_eq (hfits t ht)
    rw [act_saveTable ht hsave, hagrees, hmixes]
    grind

theorem act_store {x : Action} (hopen : x ≠ .openTable) (hsave : x ≠ .saveTable) :
    (a.act solver x).1.store = a.store := by
  cases hx : x.isAboutExamples with
  | false => exact congrArg Prod.fst (act_examplePart hx)
  | true =>
    cases x with
    | openTable => exact absurd rfl hopen
    | saveTable => exact absurd rfl hsave
    | closeTable | typeEntry | addRow => rfl
    | deleteRow row =>
      rw [act, deleteRow]
      dsimp only
      split <;> rfl
    | _ => cases hx

/-- A step keeps the examples in agreement unless it strands or mixes some. -/
theorem agrees_act_iff (hfits : a.TableFits) (h : a.store.Agrees) (x : Action) :
    (a.act solver x).1.store.Agrees ↔ ¬(a.Strands x ∨ a.Mixes x) := by
  by_cases hopen : x = .openTable
  · rw [hopen, agrees_openTable_iff h]
    simp [Mixes]
  by_cases hsave : x = .saveTable
  · rw [hsave, agrees_saveTable_iff hfits h]
    simp [Strands]
  · rw [act_store hopen hsave]
    exact iff_of_true h (by simp [Strands, Mixes, hopen, hsave])

theorem tableFits_start : start.TableFits := by
  intro t ht
  cases ht

/-- In all states of a run the values are those of the saved examples, which have the variables of
the program, just when no step strands or mixes examples. -/
theorem agrees_states_iff (solver : Solver) (xs : List Action) :
    (∀ a ∈ states solver xs, a.store.Agrees) ↔
      ∀ p ∈ (states solver xs).zip xs, ¬p.1.Strands p.2 ∧ ¬p.1.Mixes p.2 := by
  have hstep (a : Application) (x : Action) (hfits : a.TableFits) (h : a.store.Agrees) :
      (a.act solver x).1.store.Agrees ↔ ¬(a.Strands x ∨ a.Mixes x) := agrees_act_iff hfits h x
  simp only [← not_or]
  exact forall_mem_scanl_iff (fun a x hfits => hfits.act x) hstep tableFits_start
    ExampleStore.agrees_empty xs

theorem vars?_assign_hole {x : String} (hx : While.isName x = true) (hfree : x ∉ While.reserved)
    (hid : "id" ≠ x) : vars? (While.Stmt.assign x .hole).text = .ok (some [x]) := by
  refine vars?_text (.assign x .hole) ?_ ?_ ?_
  · exact While.Stmt.legible_assign.mpr ⟨hfree, While.OperandText.hole.legible_expr⟩
  · intro y hy
    cases List.mem_singleton.mp hy
    exact hx
  · exact mt List.mem_singleton.mp hid

/-- The values of examples stay when the table is opened for another variable. -/
theorem stranded_values :
    ∃ a ∈ states Solver.ideal [.typeProgram "x := ??", .openTable, .typeEntry 0 0 false "1",
        .saveTable, .typeProgram "y := ??", .openTable],
      a.store = ⟨["y"], [], [[("x", 1)]], [[]]⟩ ∧ ¬a.store.Agrees := by
  have hx : vars? (Text.trim "x := ??") = .ok (some ["x"]) :=
    vars?_assign_hole (x := "x") (by decide) (by decide) (by decide)
  have hy : vars? (Text.trim "y := ??") = .ok (some ["y"]) :=
    vars?_assign_hole (x := "y") (by decide) (by decide) (by decide)
  have hopened : (act Solver.ideal { start with program := "x := ??" } .openTable).1 =
      { start with
        program := "x := ??", store := ⟨["x"], [], [], []⟩,
        table := .shown ⟨["x"], [⟨0, [("x", .blank)]⟩], 1⟩ } := by
    rw [act_openTable (a := { start with program := "x := ??" }) hx]
    rfl
  have hsave : ExampleStore.save ⟨["x"], [], [], []⟩ ⟨["x"], [⟨0, [("x", ⟨"1", ""⟩)]⟩], 1⟩ =
      .ok (⟨["x"], [[("x", ⟨"1", ""⟩)]], [[("x", 1)]], [[]]⟩,
        .success "Examples saved successfully.") := by
    cbv
  have hsaved : (act Solver.ideal (act Solver.ideal { start with
        program := "x := ??", store := ⟨["x"], [], [], []⟩,
        table := .shown ⟨["x"], [⟨0, [("x", .blank)]⟩], 1⟩ } (.typeEntry 0 0 false "1")).1
      .saveTable).1 = { start with
        program := "x := ??", store := ⟨["x"], [[("x", ⟨"1", ""⟩)]], [[("x", 1)]], [[]]⟩,
        table := .shown ⟨["x"], [⟨0, [("x", ⟨"1", ""⟩)]⟩], 1⟩,
        notice := .success "Examples saved successfully." } := act_saveTable rfl hsave
  have htyped (a : Application) (text : String) :
      (act Solver.ideal a (.typeProgram text)).1 = { a with program := text } := rfl
  have hreopened (a : Application) :
      (act Solver.ideal (act Solver.ideal a (.typeProgram "y := ??")).1 .openTable).1.store =
        a.store.retarget ["y"] := by
    rw [htyped, act_openTable (a := { a with program := "y := ??" }) hy]
  refine ⟨_, List.mem_of_getLast? List.getLast?_scanl, ?_⟩
  dsimp only [List.foldl_cons, List.foldl_nil]
  rw [htyped start, hopened, hsaved, hreopened]
  refine ⟨rfl, fun h => ?_⟩
  cases h.inputs

end Application

end WhileSketch
