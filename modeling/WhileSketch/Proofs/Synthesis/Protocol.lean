import Mathlib
import WhileSketch.Proofs.Logic.Decision
import WhileSketch.Proofs.Synthesis.Agreement

/-! The order in which a search by steps goes through its states, and what it shows in them. Whatever
the solver answers, the states come in rounds, and what is shown goes back to the last filling that was
proposed. At the end of a round, fillings are proposed as long as they are the same as the one that
failed; if what the solver answers is true, the first one is not. -/

namespace WhileSketch.Stepping

open Holes Refinement

variable {rounds n : Nat} {o : Order} {phase next : Phase} {e : Event} {before : List Event}

section Runs

/-- What is kept by each step of a search is so of all it shows, however it ends. -/
theorem run_of_step (Inv : List Event → Phase → Prop) (Good : List Event → Ending → Prop)
    (hcut : ∀ {before phase}, Inv before phase → Good before .open)
    (hfault : ∀ {before phase} cause, Inv before phase → Good before (.fault cause))
    (hfinal : ∀ {before program}, Inv before (.finished program) → Good before (.program program))
    (hexhausted : ∀ {before p s}, Inv before (.refining p s) → Good (before ++ [.exhausted]) .open)
    (hstep : ∀ {before phase e next}, Inv before phase → e ≠ .exhausted →
      advanceWithin rounds o phase = .ok (.event e next) → Inv (before ++ [e]) next)
    (h : Inv before phase) (n : Nat) :
    Good (before ++ (traceWithin rounds o n phase).1) (traceWithin rounds o n phase).2 := by
  induction n generalizing before phase with
  | zero =>
    rw [traceWithin, List.append_nil]
    exact hcut h
  | succ n ih =>
    cases hnext : advanceWithin rounds o phase with
    | error cause =>
      rw [traceWithin_error hnext, List.append_nil]
      exact hfault cause h
    | ok progress =>
      cases progress with
      | final program =>
        cases Step.of_eq hnext
        rw [traceWithin, hnext, List.append_nil]
        exact hfinal h
      | event e next =>
        by_cases he : e = .exhausted
        · subst he
          cases Step.of_eq hnext
          rw [traceWithin, hnext]
          exact hexhausted h
        · have hrest := ih (hstep h he hnext)
          rw [List.append_assoc, List.singleton_append] at hrest
          rw [traceWithin_event hnext he]
          exact hrest

theorem length_traceWithin (h : (traceWithin rounds o n phase).2 = .open) :
    (traceWithin rounds o n phase).1.length = n ∨ .exhausted ∈ (traceWithin rounds o n phase).1 := by
  induction n generalizing phase with
  | zero => exact .inl rfl
  | succ n ih =>
    cases hnext : advanceWithin rounds o phase with
    | error cause =>
      rw [traceWithin_error hnext] at h
      cases h
    | ok progress =>
      cases progress with
      | final program =>
        rw [traceWithin, hnext] at h
        cases h
      | event e next =>
        by_cases he : e = .exhausted
        · subst he
          right
          rw [traceWithin, hnext]
          exact List.mem_cons_self
        · rw [traceWithin_event hnext he] at h ⊢
          rcases ih h with hlength | hmem
          · left
            rw [List.length_cons, hlength]
          · exact .inr (List.mem_cons_of_mem e hmem)

end Runs

section Shown

def Event.proposal? : Event → Option (String × Filling)
  | .zeroed program f | .refilled program f => some (program, f)
  | _ => none

def lastProposal? (events : List Event) : Option (String × Filling) :=
  (events.filterMap Event.proposal?).getLast?

/-- What an event shows agrees with the events before it, where the program with names for its holes
is given. -/
def Event.Fits (text : String) (before : List Event) : Event → Prop
  | .named program => program = text
  | .zeroed program f | .refilled program f => program = fill f text
  | .failed _ f => ∃ program, lastProposal? before = some (program, f)
  | .succeeded program => ∃ f, lastProposal? before = some (program, f)
  | _ => True

/-- The event after a new filling proposes another one just if the filling is the same as the one
before it. -/
def Event.Continues (before : List Event) (e : Event) : Prop :=
  ∀ init program f, before = init ++ [.refilled program f] →
    (e.name = "State_5" ↔ ∃ last, lastProposal? init = some last ∧ f.same last.2 = true)

def Coherent (text : String) (events : List Event) : Prop :=
  ∀ before e after, events = before ++ e :: after → e.Fits text before ∧ e.Continues before

variable {text : String}

theorem coherent_nil : Coherent text [] := by
  intro before e after h
  exact absurd h.symm (List.append_ne_nil_of_right_ne_nil _ (List.cons_ne_nil _ _))

theorem Coherent.concat (h : Coherent text before) (hfits : e.Fits text before)
    (hcontinues : e.Continues before) : Coherent text (before ++ [e]) := by
  intro earlier d after hsplit
  rcases List.eq_nil_or_concat after with rfl | ⟨after, c, rfl⟩
  · obtain ⟨rfl, hd⟩ := List.append_inj' hsplit rfl
    rw [List.singleton_inj] at hd
    exact hd ▸ ⟨hfits, hcontinues⟩
  · rw [List.concat_eq_append, ← List.cons_append, ← List.append_assoc] at hsplit
    exact h earlier d after (List.append_inj' hsplit rfl).1

theorem lastProposal?_concat (before : List Event) (e : Event) :
    lastProposal? (before ++ [e]) = e.proposal?.or (lastProposal? before) := by
  unfold lastProposal?
  cases he : e.proposal? with
  | none => simp [he]
  | some proposal => simp [he]

/-- What is to be shown next: the filling of the state is the one that was proposed last. -/
def Told (text : String) (before : List Event) : Phase → Prop
  | .start | .begun => True
  | .named p => p.sketch.text = text
  | .trying p s | .verified p s | .refuted p s _ | .refining p s | .exhausted p s | .searching p s =>
    p.sketch.text = text ∧ lastProposal? before = some (fill s.filling text, s.filling)
  | .finished program => before.getLast? = some (.succeeded program)

theorem Told.step (h : Told (nameAll o.program).1 before phase)
    (hnext : advanceWithin rounds o phase = .ok (.event e next)) :
    e.Fits (nameAll o.program).1 before ∧ Told (nameAll o.program).1 (before ++ [e]) next := by
  have hkept : ∀ {d : Event} {proposal : Option (String × Filling)}, d.proposal? = none →
      lastProposal? before = proposal → lastProposal? (before ++ [d]) = proposal := by
    intro d proposal hd hproposal
    rw [lastProposal?_concat, hd, Option.none_or, hproposal]
  cases Step.of_eq hnext with
  | started => exact ⟨trivial, trivial⟩
  | prepared hprepared =>
    have htext := (Sketch.shows_of_prepare hprepared).2.1
    exact ⟨htext, htext⟩
  | zeroed p =>
    have hfilled : p.filled (zeros p.sketch.holes) = fill (zeros p.sketch.holes) (nameAll o.program).1 :=
      congrArg (fill _) h
    refine ⟨hfilled, h, ?_⟩
    rw [lastProposal?_concat, hfilled]
    rfl
  | verified | refuted | exhausted | solvable | resumed => exact ⟨trivial, h.1, hkept rfl h.2⟩
  | succeeded p s =>
    have hfilled : p.filled s.filling = fill s.filling (nameAll o.program).1 := congrArg (fill _) h.1
    refine ⟨⟨s.filling, ?_⟩, ?_⟩
    · rw [hfilled]
      exact h.2
    · exact List.getLast?_concat
  | learned p s m => exact ⟨⟨_, h.2⟩, h.1, hkept rfl h.2⟩
  | @refilled p s t f hfound =>
    have hfilled : p.filled f = fill f (nameAll o.program).1 := congrArg (fill f) h.1
    have hlast : lastProposal? (before ++ [.refilled (p.filled f) f]) =
        some (fill f (nameAll o.program).1, f) := by
      rw [lastProposal?_concat, hfilled]
      rfl
    refine ⟨hfilled, ?_⟩
    split_ifs <;> exact ⟨h.1, hlast⟩

/-- Where a search goes on after a new filling: to another one if the filling is the same as the one
before it. -/
def Pending (before : List Event) (phase : Phase) : Prop :=
  ∀ init program f, before = init ++ [.refilled program f] →
    ((∃ p s, phase = .searching p s) ↔ ∃ last, lastProposal? init = some last ∧ f.same last.2 = true)

theorem name_eq_iff (hnext : advanceWithin rounds o phase = .ok (.event e next)) :
    e.name = "State_5" ↔ ∃ p s, phase = .searching p s := by
  cases Step.of_eq hnext <;> simp [Event.name]

theorem Pending.continues (h : Pending before phase)
    (hnext : advanceWithin rounds o phase = .ok (.event e next)) : e.Continues before := by
  intro init program f hbefore
  rw [name_eq_iff hnext]
  exact h init program f hbefore

theorem Told.pending (h : Told text before phase)
    (hnext : advanceWithin rounds o phase = .ok (.event e next)) : Pending (before ++ [e]) next := by
  intro init program f hsplit
  obtain ⟨rfl, he⟩ := List.append_inj' hsplit rfl
  cases List.singleton_inj.mp he
  cases Step.of_eq hnext with
  | @refilled p s t f hfound =>
    have hlast : (∃ last, lastProposal? before = some last ∧ f.same last.2 = true) ↔
        f.same s.filling = true := by
      rw [h.2]
      simp
    rw [hlast]
    split_ifs with hsame
    · simp [hsame]
    · simp [hsame]

/-- All that is shown agrees with what was shown before it, and a program that is returned has been
shown last. -/
theorem coherent_traceWithin (rounds : Nat) (o : Order) (n : Nat) :
    Coherent (nameAll o.program).1 (traceWithin rounds o n .start).1 ∧
      ∀ program, (traceWithin rounds o n .start).2 = .program program →
        (traceWithin rounds o n .start).1.getLast? = some (.succeeded program) := by
  let text := (nameAll o.program).1
  have hstart : Coherent text [] ∧ Told text [] .start ∧ Pending [] .start := by
    refine ⟨coherent_nil, trivial, fun init program f h => ?_⟩
    exact absurd h.symm (List.append_ne_nil_of_right_ne_nil _ (List.cons_ne_nil _ _))
  refine run_of_step
    (fun before phase => Coherent text before ∧ Told text before phase ∧ Pending before phase)
    (fun events ending => Coherent text events ∧
      ∀ program, ending = .program program → events.getLast? = some (.succeeded program))
    ?_ ?_ ?_ ?_ ?_ hstart n
  · exact fun h => ⟨h.1, by simp⟩
  · exact fun cause h => ⟨h.1, by simp⟩
  · intro before program h
    refine ⟨h.1, fun program' heq => ?_⟩
    cases heq
    exact h.2.1
  · rintro before p s ⟨hcoherent, -, hpending⟩
    refine ⟨hcoherent.concat trivial fun init program f hbefore => ?_, by simp⟩
    rw [← hpending init program f hbefore]
    simp [Event.name]
  · rintro before phase e next ⟨hcoherent, htold, hpending⟩ _ hnext
    obtain ⟨hfits, htold'⟩ := htold.step hnext
    exact ⟨hcoherent.concat hfits (hpending.continues hnext), htold', htold.pending hnext⟩

end Shown

section Names

def opening : List String :=
  ["State_0", "State_1", "State_2"]

def failing : List String :=
  ["State_3_1", "State_3_3", "State_4_1"]

/-- The states of a round in which a filling fails and another one is found, after the same one has
been found again some number of times. -/
def round (repeats : Nat) : List String :=
  failing ++ List.replicate (repeats + 1) "State_5"

/-- The states of the last round, in which a filling is verified, or fails and no other is left. -/
def closings : List (List String) :=
  [["State_3_1", "State_3_2"], ["State_3_1", "State_3_3", "State_4_2"]]

def afterRounds (repeats : List Nat) : List String :=
  opening ++ repeats.flatMap round

/-- The names of states in the order of the protocol, as far as they go, where the same filling may be
found again as often as is allowed. -/
def Follows (allowed : Nat → Prop) (names : List String) : Prop :=
  ∃ repeats, (∀ m ∈ repeats, allowed m) ∧ ∃ closing ∈ closings, names <+: afterRounds repeats ++ closing

def Returns (allowed : Nat → Prop) (names : List String) : Prop :=
  ∃ repeats, (∀ m ∈ repeats, allowed m) ∧ names = afterRounds repeats ++ ["State_3_1", "State_3_2"]

theorem afterRounds_concat (repeats : List Nat) (m : Nat) :
    afterRounds (repeats ++ [m]) = afterRounds repeats ++ round m := by
  unfold afterRounds
  rw [List.flatMap_append, List.flatMap_singleton, List.append_assoc]

/-- The states of the current round that have been shown in a phase. -/
def Phase.Shows (allowed : Nat → Prop) (shown : List String) : Phase → Prop
  | .verified .. | .refuted .. => shown = ["State_3_1"]
  | .refining .. => shown = ["State_3_1", "State_3_3"]
  | .searching .. => ∃ m, allowed m ∧ shown = failing ++ List.replicate m "State_5"
  | .finished _ => shown = ["State_3_1", "State_3_2"]
  | _ => shown = []

/-- The states that have been shown when a search is in a phase. An exhausted search is not followed
any further. -/
def Reached (allowed : Nat → Prop) (names : List String) : Phase → Prop
  | .start => names = []
  | .begun => names = ["State_0"]
  | .named _ => names = ["State_0", "State_1"]
  | .exhausted .. => False
  | phase => ∃ repeats shown, (∀ m ∈ repeats, allowed m) ∧ phase.Shows allowed shown ∧
      names = afterRounds repeats ++ shown

variable {allowed : Nat → Prop} {names : List String}

theorem follows_of_closing {repeats : List Nat} (h : ∀ m ∈ repeats, allowed m)
    {shown closing : List String} (hclosing : closing ∈ closings) (hshown : shown <+: closing) :
    Follows allowed (afterRounds repeats ++ shown) :=
  ⟨repeats, h, closing, hclosing, (List.prefix_append_right_inj _).mpr hshown⟩

theorem follows_of_prefix {repeats : List Nat} (h : ∀ m ∈ repeats, allowed m)
    (hnames : names <+: afterRounds repeats) : Follows allowed names :=
  ⟨repeats, h, ["State_3_1", "State_3_2"], List.mem_cons_self, hnames.trans (List.prefix_append _ _)⟩

theorem Reached.follows (h : Reached allowed names phase) : Follows allowed names := by
  have hnone : ∀ m ∈ ([] : List Nat), allowed m := by simp
  have hopening : ∀ {names}, names <+: opening → Follows allowed names := follows_of_prefix hnone
  have hverified : ["State_3_1", "State_3_2"] ∈ closings := by decide
  have hexhausted : ["State_3_1", "State_3_3", "State_4_2"] ∈ closings := by decide
  cases phase with
  | start | begun | named p =>
    subst h
    exact hopening (by decide)
  | exhausted p s => exact h.elim
  | trying p s | verified p s | refuted p s m | finished program =>
    obtain ⟨repeats, _, hallowed, rfl, rfl⟩ := h
    exact follows_of_closing hallowed hverified ⟨_, rfl⟩
  | refining p s =>
    obtain ⟨repeats, _, hallowed, rfl, rfl⟩ := h
    exact follows_of_closing hallowed hexhausted ⟨_, rfl⟩
  | searching p s =>
    obtain ⟨repeats, _, hallowed, ⟨m, hm, rfl⟩, rfl⟩ := h
    have hall : ∀ k ∈ repeats ++ [m], allowed k :=
      List.forall_mem_append.mpr ⟨hallowed, List.forall_mem_singleton.mpr hm⟩
    apply follows_of_prefix hall
    rw [afterRounds_concat, List.prefix_append_right_inj, round, List.replicate_succ',
      ← List.append_assoc]
    exact List.prefix_append _ _

/-- A step shows the state that comes next in the protocol, if the same filling may be found as often as
it is. -/
theorem Reached.step (h : Reached allowed (before.map Event.name) phase) (hzero : allowed 0)
    (hagain : ∀ {p s t f}, phase = .searching p s → nextFilling p rounds s = .ok (t, f) →
      f.same s.filling = true → ∀ m, allowed m)
    (he : e ≠ .exhausted) (hnext : advanceWithin rounds o phase = .ok (.event e next)) :
    Reached allowed ((before ++ [e]).map Event.name) next := by
  rw [List.map_append, List.map_singleton]
  cases Step.of_eq hnext with
  | started => exact congrArg (· ++ ["State_0"]) h
  | prepared hprepared => exact congrArg (· ++ ["State_1"]) h
  | zeroed p => exact ⟨[], [], by simp, rfl, congrArg (· ++ ["State_2"]) h⟩
  | verified | refuted | succeeded | learned =>
    obtain ⟨repeats, _, hallowed, rfl, hnames⟩ := h
    rw [hnames, List.append_assoc]
    exact ⟨repeats, _, hallowed, rfl, rfl⟩
  | exhausted => exact absurd rfl he
  | resumed => exact h.elim
  | solvable =>
    obtain ⟨repeats, _, hallowed, rfl, hnames⟩ := h
    rw [hnames, List.append_assoc]
    exact ⟨repeats, _, hallowed, ⟨0, hzero, rfl⟩, rfl⟩
  | @refilled p s t f hfound =>
    obtain ⟨repeats, _, hallowed, ⟨m, hm, rfl⟩, hnames⟩ := h
    have hshown : failing ++ List.replicate m "State_5" ++ ["State_5"] = round m := by
      rw [round, List.replicate_succ', List.append_assoc]
    rw [hnames, List.append_assoc, Event.name, hshown]
    split_ifs with hsame
    · exact ⟨repeats, _, hallowed, ⟨m + 1, hagain rfl hfound hsame _, rfl⟩, rfl⟩
    · refine ⟨repeats ++ [m], [], ?_, rfl, by rw [afterRounds_concat, List.append_nil]⟩
      exact List.forall_mem_append.mpr ⟨hallowed, List.forall_mem_singleton.mpr hm⟩

/-- The states follow the protocol, and if a program is returned, they go through all of it. The phases
of the search may be known to be of some kind. -/
theorem follows_traceWithin (Kept : Phase → Prop) (hstart : Kept .start)
    (hkept : ∀ {phase e next}, Kept phase → e ≠ .exhausted →
      advanceWithin rounds o phase = .ok (.event e next) → Kept next)
    (hzero : allowed 0)
    (hagain : ∀ {p s t f}, Kept (.searching p s) → nextFilling p rounds s = .ok (t, f) →
      f.same s.filling = true → ∀ m, allowed m) (n : Nat) :
    Follows allowed ((traceWithin rounds o n .start).1.map Event.name) ∧
      ∀ program, (traceWithin rounds o n .start).2 = .program program →
        Returns allowed ((traceWithin rounds o n .start).1.map Event.name) := by
  have hfirst : Kept .start ∧ Reached allowed (([] : List Event).map Event.name) .start :=
    ⟨hstart, rfl⟩
  refine run_of_step (fun before phase => Kept phase ∧ Reached allowed (before.map Event.name) phase)
    (fun events ending => Follows allowed (events.map Event.name) ∧
      ∀ program, ending = .program program → Returns allowed (events.map Event.name))
    ?_ ?_ ?_ ?_ ?_ hfirst n
  · exact fun h => ⟨h.2.follows, by simp⟩
  · exact fun cause h => ⟨h.2.follows, by simp⟩
  · rintro before program ⟨-, h⟩
    refine ⟨h.follows, fun _ _ => ?_⟩
    obtain ⟨repeats, _, hallowed, rfl, hnames⟩ := h
    exact ⟨repeats, hallowed, hnames⟩
  · rintro before p s ⟨-, repeats, _, hallowed, rfl, hnames⟩
    have hclosing : ["State_3_1", "State_3_3", "State_4_2"] ∈ closings := by decide
    refine ⟨?_, by simp⟩
    rw [List.map_append, hnames, List.append_assoc]
    exact follows_of_closing hallowed hclosing List.prefix_rfl
  · rintro before phase e next ⟨hphase, h⟩ he hnext
    exact ⟨hkept hphase he hnext, h.step hzero (fun heq => hagain (heq ▸ hphase)) he hnext⟩

def Prepared (o : Order) (p : Problem) : Prop :=
  ∃ sketch, (Sketch.prepare o.session o.limit o.program).result = .ok sketch ∧
    p = ⟨o.solver, o.spec, sketch⟩

/-- The problem is the one that was ordered, and a filling that is to be replaced has been excluded.
An exhausted search is not followed any further. -/
def Settled (o : Order) : Phase → Prop
  | .start | .begun | .finished _ => True
  | .named p | .trying p _ | .verified p _ | .refuted p _ _ => Prepared o p
  | .refining p s | .searching p s => Prepared o p ∧ s.filling ∈ s.excluded
  | .exhausted .. => False

/-- If the answers of the solver are true, the filling that replaces another one is a new one. -/
theorem Settled.not_same (hsolver : o.solver.Honest) {p : Problem} {s t : Refinement.State}
    {f : Filling} (h : Settled o (.searching p s)) (hfound : nextFilling p rounds s = .ok (t, f)) :
    f.same s.filling = false := by
  obtain ⟨⟨sketch, hsketch, rfl⟩, hexcluded⟩ := h
  obtain ⟨hnames, -, _, _, -, -, -, -, hshows⟩ := Sketch.shows_of_prepare hsketch
  have hnodup : sketch.holes.Nodup := by
    rw [hnames]
    exact nodup_holes o.program
  have hseeks := seeks_of_nextFilling hfound
  rw [← hseeks.kept] at hexcluded ⊢
  exact candidate_not_same hshows.isHole hnodup hsolver hseeks.found hexcluded

theorem Settled.step (hsolver : o.solver.Honest) (h : Settled o phase) (he : e ≠ .exhausted)
    (hnext : advanceWithin rounds o phase = .ok (.event e next)) : Settled o next := by
  cases Step.of_eq hnext with
  | started | succeeded => trivial
  | prepared hprepared => exact ⟨_, hprepared, rfl⟩
  | zeroed | verified | refuted | solvable => exact h
  | learned p s m => exact ⟨h, List.mem_append_right _ List.mem_cons_self⟩
  | exhausted => exact absurd rfl he
  | resumed => exact h.elim
  | refilled hfound =>
    rw [h.not_same hsolver hfound, if_neg Bool.false_ne_true]
    exact h.1

theorem follows_of_honest (hsolver : o.solver.Honest) (rounds n : Nat) :
    Follows (· = 0) ((traceWithin rounds o n .start).1.map Event.name) ∧
      ∀ program, (traceWithin rounds o n .start).2 = .program program →
        Returns (· = 0) ((traceWithin rounds o n .start).1.map Event.name) := by
  refine follows_traceWithin (Settled o) trivial (Settled.step hsolver) ?_ ?_ n
  · rfl
  · intro p s t f hsettled hfound hsame
    rw [hsettled.not_same hsolver hfound] at hsame
    cases hsame

/-- The search that decides formulas by itself finds no filling again. -/
theorem follows_of_decision (h : o.solver = Decision.solver) (rounds n : Nat) :
    Follows (· = 0) ((traceWithin rounds o n .start).1.map Event.name) :=
  (follows_of_honest (h ▸ Decision.solver_faithful.honest) rounds n).1

end Names

/-- Whatever the solver answers, a search by steps shows only programs in which the filling shown with
them is put, a filling that fails is the one that was proposed last, and so is the program with which
the search succeeds; it is the one that is returned. The states come in the order of the protocol, to the
end if a program is returned, but that a filling is followed by another one just if it is the same as the
one before it. If what the solver answers is true, it never is. Nothing is left out before the search
comes to an end. -/
theorem trace_follows_protocol (o : Order) (rounds n : Nat) :
    Coherent (nameAll o.program).1 (traceWithin rounds o n .start).1 ∧
    Follows (fun _ => True) ((traceWithin rounds o n .start).1.map Event.name) ∧
    (o.solver.Honest → Follows (· = 0) ((traceWithin rounds o n .start).1.map Event.name)) ∧
    (∀ program, (traceWithin rounds o n .start).2 = .program program →
      (traceWithin rounds o n .start).1.getLast? = some (.succeeded program) ∧
      Returns (fun _ => True) ((traceWithin rounds o n .start).1.map Event.name) ∧
      (o.solver.Honest → Returns (· = 0) ((traceWithin rounds o n .start).1.map Event.name))) ∧
    ((traceWithin rounds o n .start).2 = .open →
      (traceWithin rounds o n .start).1.length = n ∨
        .exhausted ∈ (traceWithin rounds o n .start).1) := by
  obtain ⟨hcoherent, hlast⟩ := coherent_traceWithin rounds o n
  have hany : Follows (fun _ => True) ((traceWithin rounds o n .start).1.map Event.name) ∧ _ :=
    follows_traceWithin (fun _ => True) trivial (fun _ _ _ => trivial) trivial
      (fun _ _ _ _ => trivial) n
  have hhonest := fun hsolver => follows_of_honest (o := o) hsolver rounds n
  refine ⟨hcoherent, hany.1, fun hsolver => (hhonest hsolver).1, fun program hprogram => ?_,
    length_traceWithin⟩
  exact ⟨hlast program hprogram, hany.2 program hprogram,
    fun hsolver => (hhonest hsolver).2 program hprogram⟩

noncomputable def resetOrder : Order :=
  ⟨Solver.ideal, skipSession, resetSpec, 1, "while (x > 0) do (x := ??)"⟩

theorem exists_trace_resetOrder : ∃ rounds n program,
    (traceWithin rounds resetOrder n .start).2 = .program program := by
  obtain ⟨sketch, -, hsketch, -, -, -, hposed⟩ := posed_resetLoop
  obtain ⟨program, hprogram⟩ := synthesize_resetLoop
  have hdecides := Solver.ideal_exact.decides
  have hrun : Problem.runWithin ⟨Solver.ideal, resetSpec, sketch⟩ 1 false (.initial sketch.holes) =
      .ok program := by
    rw [synthesizeWithin, hsketch] at hprogram
    exact hprogram
  have hcourse := (runs_iff (p := ⟨Solver.ideal, resetSpec, sketch⟩) (v := .found program) hdecides
    hposed.shows.isHole (Condition.quiet_eval _) (Condition.quiet_eval _) (Condition.quiet_eval _)
    (by simp) (by simp) (by simp)).mp ⟨1, hrun⟩
  obtain ⟨rounds, n, hreported⟩ := (reported_iff (o := resetOrder) (v := .found program) rfl hsketch
    hdecides hposed.shows.isHole (by simp) (by simp)).mpr hcourse
  exact ⟨rounds, n, program, hreported⟩

theorem trace_plusOrder {s : Session} (hs : s.tree?.isNone = false) (rounds : Nat) :
    (traceWithin rounds { plusOrder with session := s } 5 .start).1 =
      [.started "y := (x + ??)", .named "y := (x + hole_0)",
        .zeroed "y := (x + 0)" [("hole_0", 0)], .checked false,
        .failed [("x", 1)] [("hole_0", 0)]] := by
  let o : Order := { plusOrder with session := s }
  obtain ⟨sketch, -, hsketch, hholes, -, -, hposed⟩ := posed_plusHole
  have hprepare : (Sketch.prepare o.session o.limit o.program).result = .ok sketch := by
    have hsame : s.tree?.isNone = skipSession.tree?.isNone := hs
    rw [Sketch.prepare_congr hsame]
    exact hsketch
  have htext : sketch.text = "y := (x + hole_0)" :=
    (Sketch.shows_of_prepare hsketch).2.1.trans (by decide)
  have hzeros : zeros sketch.holes = [("hole_0", 0)] := by
    rw [hholes]
    rfl
  have hbegun : advanceWithin rounds o .begun =
      .ok (.event (.named sketch.text) (.named (plusProblem sketch))) := by
    rw [advanceWithin, hprepare]
    rfl
  have htrying : advanceWithin rounds o (.trying (plusProblem sketch) (.initial sketch.holes)) =
      .ok (.event (.checked false) (.refuted (plusProblem sketch) (.initial sketch.holes) [("x", 1)])) := by
    have hfails : (plusProblem sketch).counterexample? (zeros sketch.holes) = .ok (some [("x", 1)]) := by
      rw [hholes]
      exact (counterexamples_plusHole hposed hholes).1
    rw [advanceWithin, Refinement.State.initial, hfails]
    rfl
  rw [traceWithin_event rfl (by simp), traceWithin_event hbegun (by simp),
    traceWithin_event rfl (by simp)]
  change _ :: _ :: _ :: (traceWithin rounds o 2 (.trying (plusProblem sketch)
    (.initial sketch.holes))).1 = _
  rw [traceWithin_event htrying (by simp), traceWithin_event rfl (by simp)]
  have hfilled : fill [("hole_0", 0)] "y := (x + hole_0)" = "y := (x + 0)" := by decide +kernel
  simp [traceWithin, Problem.filled, Refinement.State.initial, plusProblem, htext, hzeros, hfilled, plusOrder]

theorem trace_follows_protocol_orders :
    (∃ rounds n program, (traceWithin rounds resetOrder n .start).2 = .program program ∧
      Returns (· = 0) ((traceWithin rounds resetOrder n .start).1.map Event.name)) ∧
    (traceWithin 1 plusOrder 5 .start).1.map Event.name =
      ["State_0", "State_1", "State_2", "State_3_1", "State_3_3"] ∧
    Follows (· = 0) ((traceWithin 1 plusOrder 5 .start).1.map Event.name) := by
  have hhonest := Solver.ideal_exact.faithful.honest
  refine ⟨?_, ?_, (trace_follows_protocol plusOrder 1 5).2.2.1 hhonest⟩
  · obtain ⟨rounds, n, program, hprogram⟩ := exists_trace_resetOrder
    obtain ⟨-, -, -, hreturned, -⟩ := trace_follows_protocol resetOrder rounds n
    exact ⟨rounds, n, program, hprogram, (hreturned program hprogram).2.2 hhonest⟩
  · have htrace : (traceWithin 1 plusOrder 5 .start).1 = _ := trace_plusOrder rfl 1
    rw [htrace]
    rfl

section Repetition

/-- A solver that gives the same answer to all questions. -/
def stubborn : Solver :=
  ⟨fun _ => some [("hole_0", 0)]⟩

theorem stubborn_sound : stubborn.Sound := by
  intro f h
  cases h

noncomputable def stubbornOrder : Order :=
  { plusOrder with solver := stubborn }

noncomputable def stubbornProblem (sketch : Sketch) : Problem :=
  { plusProblem sketch with solver := stubborn }

section Answers

open While

variable {sketch : Sketch}

theorem counterexample_stubborn
    (hposed : Posed (stubbornProblem sketch) 10 plusHole oneOrTwo twoOrDouble (.bool true)) :
    (stubbornProblem sketch).counterexample? [("hole_0", 0)] = .ok (some []) := by
  have hlegible : ((plusHole.unrolled 10).fill [("hole_0", 0)]).Legible :=
    Stmt.legible_assign.mpr ⟨by decide, Expr.legible_operate.mpr
      ⟨Expr.legible_var.mpr (by decide), Expr.legible_num.mpr (by decide)⟩⟩
  have honly : ∀ {x n}, List.lookup x [("hole_0", (0 : Int))] = some n → x = "hole_0" ∧ n = 0 := by
    intro x n hx
    simpa using mem_of_lookup hx
  obtain ⟨m, hm⟩ := hposed.exists_counterexample stubborn_sound (f := [("hole_0", 0)])
    (σ := fun x => if x = "x" then 1 else 0) (fun x n hx => (honly hx).1 ▸ rfl) (by decide)
    (by decide) hlegible (holds_oneOrTwo.mpr (by decide))
    (fun x n hx => by rw [(honly hx).1, (honly hx).2]; rfl) fun hw => by
      have hsuits := weakest_plusHole.mp hw
      simp [Suits] at hsuits
  rw [hm]
  obtain ⟨_, -, h⟩ := bind_eq_ok.mp hm
  obtain ⟨_, -, h⟩ := bind_eq_ok.mp h
  obtain ⟨m?, hanswer, h⟩ := bind_eq_ok.mp h
  obtain ⟨φ, -, hanswer⟩ := bind_eq_ok.mp hanswer
  cases hanswer
  cases h
  rfl

theorem candidate_stubborn
    (hposed : Posed (stubbornProblem sketch) 10 plusHole oneOrTwo twoOrDouble (.bool true))
    (hholes : sketch.holes = ["hole_0"]) (bounded : Bool) :
    (stubbornProblem sketch).candidate? ⟨[("hole_0", 0)], [[("hole_0", 0)]], [], -5, 5⟩ bounded =
      .ok (some [("hole_0", 0)]) := by
  obtain ⟨v, hv⟩ : ∃ v, (stubbornProblem sketch).query ⟨[("hole_0", 0)], [[("hole_0", 0)]], [], -5, 5⟩
      bounded (Env.symbolic ["hole_0", "x", "y"]) = .ok v := by
    simp only [stubbornProblem, plusProblem, Problem.query, hholes]
    cases bounded <;> exact ⟨_, rfl⟩
  have hlegible : (plusHole.unrolled 10).Legible :=
    Stmt.legible_assign.mpr ⟨by decide, Expr.legible_operate.mpr
      ⟨Expr.legible_var.mpr (by decide), Expr.legible_var.mpr (by decide)⟩⟩
  obtain ⟨f, hf⟩ := hposed.exists_candidate stubborn_sound
    (s := ⟨[("hole_0", 0)], [[("hole_0", 0)]], [], -5, 5⟩) (σ := fun _ => 1) (by simp) (by decide)
    hlegible hv ⟨holds_oneOrTwo.mpr (by decide), by simp, by simp [stubbornProblem, plusProblem, hholes]⟩
    (by simp) (weakest_plusHole.mpr (.inl rfl))
  rw [hf]
  obtain ⟨φ, m, -, hm, rfl⟩ := candidate_eq_some hf
  cases hm
  rw [stubbornProblem, plusProblem, hholes]
  rfl

end Answers

theorem exists_rounds_eq_cons (repeats : List Nat) {closing : List String} (h : closing ∈ closings) :
    ∃ rest, repeats.flatMap round ++ closing = "State_3_1" :: rest := by
  cases repeats with
  | nil =>
    have hcases : closing = ["State_3_1", "State_3_2"] ∨
        closing = ["State_3_1", "State_3_3", "State_4_2"] := by simpa [closings] using h
    rcases hcases with rfl | rfl
    · exact ⟨_, rfl⟩
    · exact ⟨_, rfl⟩
  | cons m repeats => exact ⟨_, rfl⟩

theorem not_follows_of_repetition :
    ¬ Follows (· = 0) (opening ++ failing ++ ["State_5", "State_5"]) := by
  rintro ⟨repeats, hzero, closing, hclosing, hprefix⟩
  rw [afterRounds, List.append_assoc, List.append_assoc, List.prefix_append_right_inj] at hprefix
  cases repeats with
  | nil =>
    have hnone : ∀ closing ∈ closings, ¬ failing ++ ["State_5", "State_5"] <+: closing := by decide
    exact hnone closing hclosing hprefix
  | cons m repeats =>
    obtain ⟨rest, hrest⟩ := exists_rounds_eq_cons repeats hclosing
    obtain rfl : m = 0 := hzero m List.mem_cons_self
    rw [List.flatMap_cons, List.append_assoc, hrest] at hprefix
    simp [round, failing] at hprefix

/-- If the solver proposes the filling that failed over and over again, states come again, too. -/
theorem trace_repeats_filling :
    (traceWithin 1 stubbornOrder 8 .start).2 = .open ∧
    (traceWithin 1 stubbornOrder 8 .start).1.map Event.name =
      ["State_0", "State_1", "State_2", "State_3_1", "State_3_3", "State_4_1", "State_5", "State_5"] ∧
    ¬ Follows (· = 0) ((traceWithin 1 stubbornOrder 8 .start).1.map Event.name) := by
  obtain ⟨sketch, -, hsketch, hholes, -, -, hshows, hsorted, hflat, hspec, hpre, hpost, hinv⟩ :=
    posed_plusHole
  have hposed : Posed (stubbornProblem sketch) 10 plusHole oneOrTwo twoOrDouble (.bool true) :=
    ⟨hshows, hsorted, hflat, hspec, hpre, hpost, hinv⟩
  let p := stubbornProblem sketch
  let s : Refinement.State := ⟨[("hole_0", 0)], [[("hole_0", 0)]], [], -5, 5⟩
  have hbegun : advanceWithin 1 stubbornOrder .begun = .ok (.event (.named sketch.text) (.named p)) := by
    have hprepare : (Sketch.prepare stubbornOrder.session stubbornOrder.limit
        stubbornOrder.program).result = .ok sketch := hsketch
    rw [advanceWithin, hprepare]
    rfl
  have hnamed : advanceWithin 1 stubbornOrder (.named p) =
      .ok (.event (.zeroed (p.filled [("hole_0", 0)]) [("hole_0", 0)])
        (.trying p ⟨[("hole_0", 0)], [], [], -5, 5⟩)) := by
    have hinitial : Refinement.State.initial p.sketch.holes = ⟨[("hole_0", 0)], [], [], -5, 5⟩ :=
      congrArg Refinement.State.initial hholes
    rw [advanceWithin, hinitial]
  have htrying : advanceWithin 1 stubbornOrder (.trying p ⟨[("hole_0", 0)], [], [], -5, 5⟩) =
      .ok (.event (.checked false) (.refuted p ⟨[("hole_0", 0)], [], [], -5, 5⟩ [])) := by
    rw [advanceWithin, counterexample_stubborn hposed]
    rfl
  have hrefuted : advanceWithin 1 stubbornOrder (.refuted p ⟨[("hole_0", 0)], [], [], -5, 5⟩ []) =
      .ok (.event (.failed [] [("hole_0", 0)]) (.refining p s)) := rfl
  have hrefining : advanceWithin 1 stubbornOrder (.refining p s) =
      .ok (.event .searching (.searching p s)) := by
    rw [advanceWithin, candidate_stubborn hposed hholes]
    rfl
  have hsearching : advanceWithin 1 stubbornOrder (.searching p s) =
      .ok (.event (.refilled (p.filled [("hole_0", 0)]) [("hole_0", 0)]) (.searching p s)) := by
    rw [advanceWithin, nextFilling, candidate_stubborn hposed hholes]
    rfl
  have htrace : traceWithin 1 stubbornOrder 8 .start = ([.started "y := (x + ??)", .named sketch.text,
      .zeroed (p.filled [("hole_0", 0)]) [("hole_0", 0)], .checked false, .failed [] [("hole_0", 0)],
      .searching, .refilled (p.filled [("hole_0", 0)]) [("hole_0", 0)],
      .refilled (p.filled [("hole_0", 0)]) [("hole_0", 0)]], .open) := by
    rw [traceWithin_event rfl (by simp), traceWithin_event hbegun (by simp),
      traceWithin_event hnamed (by simp), traceWithin_event htrying (by simp),
      traceWithin_event hrefuted (by simp), traceWithin_event hrefining (by simp),
      traceWithin_event hsearching (by simp), traceWithin_event hsearching (by simp)]
    rfl
  rw [htrace]
  exact ⟨rfl, rfl, not_follows_of_repetition⟩

end Repetition

end WhileSketch.Stepping
