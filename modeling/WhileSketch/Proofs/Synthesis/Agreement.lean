import Mathlib
import WhileSketch.Proofs.Synthesis.Course

/-! A search by steps and a search by rounds agree: they try the same fillings and come to the same
end. -/

namespace WhileSketch.Refinement

open While Holes

variable {p : Problem} {retry : Bool} {s : State} {fs : List Filling} {v : Upshot}

theorem Course.fault_ne (hpre : p.spec.pre.Quiet) (hpost : p.spec.post.Quiet)
    (hinv : p.spec.invariant.Quiet) (h : Course p retry s fs v) : v ≠ .fault .notVerified := by
  induction h with
  | cut | found | exhausted => simp
  | stuck h =>
    rintro ⟨⟩
    exact quiet_counterexample hpre hpost hinv _ h
  | stumped h =>
    rintro ⟨⟩
    exact quiet_candidate hpre hpost hinv _ _ h
  | refuted _ _ ih => exact ih
  | refilled _ _ _ ih => exact ih

theorem Course.eq_nil (h : Course p true s fs v) (hnone : p.candidate? s false = .ok none) :
    fs = [] := by
  cases h with
  | cut | stumped | exhausted => rfl
  | refilled hsome =>
    rw [hnone] at hsome
    cases hsome

end WhileSketch.Refinement

namespace WhileSketch.Stepping

open While Holes Refinement

variable {p : Problem} {rounds : Nat} {o : Order} {phase next : Phase} {e : Event}
  {s t : Refinement.State} {f : Filling} {fs : List Filling} {v : Upshot}

section Steps

theorem traceWithin_event (h : advanceWithin rounds o phase = .ok (.event e next))
    (he : e ≠ .exhausted) (n : Nat) : traceWithin rounds o (n + 1) phase =
      (e :: (traceWithin rounds o n next).1, (traceWithin rounds o n next).2) := by
  rw [traceWithin, h]
  cases e with
  | exhausted => exact absurd rfl he
  | _ => rfl

theorem tries_event (h : advanceWithin rounds o phase = .ok (.event e next)) (n : Nat) :
    (bySteps rounds o).tries (n + 1) phase = phase.tried ++ (bySteps rounds o).tries n next := by
  rw [Search.tries]
  simp [bySteps, h]

theorem tries_error {cause : Fault} (h : advanceWithin rounds o phase = .error cause) (n : Nat) :
    (bySteps rounds o).tries (n + 1) phase = phase.tried := by
  rw [Search.tries]
  simp [bySteps, h]

theorem traceWithin_error {cause : Fault} (h : advanceWithin rounds o phase = .error cause) (n : Nat) :
    traceWithin rounds o (n + 1) phase = ([], .fault cause) := by
  rw [traceWithin, h]

end Steps

section Following

/-- What a search shows tells of its upshot. -/
def Reported (shown : List Event × Ending) : Upshot → Prop
  | .found program => shown.2 = .program program
  | .fault cause => shown.2 = .fault cause
  | .exhausted => .exhausted ∈ shown.1
  | .open => True

/-- After enough steps, a search has tried certain fillings and told of an upshot. -/
def Reaches (rounds : Nat) (o : Order) (phase : Phase) (fs : List Filling) (v : Upshot) : Prop :=
  ∃ N, ∀ n, N ≤ n → fs <+: (bySteps rounds o).tries n phase ∧ Reported (traceWithin rounds o n phase) v

theorem reaches_open : Reaches rounds o phase [] .open :=
  ⟨0, fun _ _ => ⟨List.nil_prefix, trivial⟩⟩

theorem Reaches.step (h : advanceWithin rounds o phase = .ok (.event e next)) (he : e ≠ .exhausted)
    (hnext : Reaches rounds o next fs v) : Reaches rounds o phase (phase.tried ++ fs) v := by
  obtain ⟨N, hN⟩ := hnext
  refine ⟨N + 1, fun n hn => ?_⟩
  obtain ⟨k, rfl⟩ : ∃ k, n = k + 1 := ⟨n - 1, by omega⟩
  obtain ⟨hfs, hv⟩ := hN k (by omega)
  rw [traceWithin_event h he, tries_event h]
  refine ⟨(List.prefix_append_right_inj _).mpr hfs, ?_⟩
  cases v with
  | found program | fault cause => exact hv
  | exhausted => exact List.mem_cons_of_mem e hv
  | «open» => trivial

theorem reaches_fault {cause : Fault} (h : advanceWithin rounds o phase = .error cause) :
    Reaches rounds o phase phase.tried (.fault cause) := by
  refine ⟨1, fun n hn => ?_⟩
  obtain ⟨k, rfl⟩ : ∃ k, n = k + 1 := ⟨n - 1, by omega⟩
  rw [traceWithin_error h, tries_error h]
  exact ⟨List.prefix_rfl, rfl⟩

theorem reaches_exhausted (h : advanceWithin rounds o phase = .ok (.event .exhausted next)) :
    Reaches rounds o phase [] .exhausted := by
  refine ⟨1, fun n hn => ⟨List.nil_prefix, ?_⟩⟩
  obtain ⟨k, rfl⟩ : ∃ k, n = k + 1 := ⟨n - 1, by omega⟩
  rw [traceWithin, h]
  exact List.mem_cons_self

theorem reaches_program (program : String) :
    Reaches rounds o (.finished program) [] (.found program) := by
  refine ⟨1, fun n hn => ⟨List.nil_prefix, ?_⟩⟩
  obtain ⟨k, rfl⟩ : ∃ k, n = k + 1 := ⟨n - 1, by omega⟩
  rfl

theorem exists_nextFilling (h : Seeks p s t f) :
    ∃ R, ∀ rounds, R ≤ rounds → nextFilling p rounds s = .ok (t, f) := by
  induction h with
  | here hf =>
    refine ⟨1, fun n hn => ?_⟩
    obtain ⟨k, rfl⟩ : ∃ k, n = k + 1 := ⟨n - 1, by omega⟩
    rw [nextFilling, hf]
    rfl
  | wider hnone _ ih =>
    obtain ⟨R, hR⟩ := ih
    refine ⟨R + 1, fun n hn => ?_⟩
    obtain ⟨k, rfl⟩ : ∃ k, n = k + 1 := ⟨n - 1, by omega⟩
    rw [nextFilling, hnone]
    exact hR k (by omega)

/-- The phase in which a search goes on, where a filling has failed or not. -/
def phaseOf (p : Problem) (retry : Bool) (s : Refinement.State) : Phase :=
  if retry then .refining p s else .trying p s

/-- A search by steps takes each course, and does so from the search for a new filling if there is
one. -/
theorem reaches_of_course (o : Order) {retry : Bool} (h : Course p retry s fs v) :
    ∃ R, ∀ rounds, R ≤ rounds → Reaches rounds o (phaseOf p retry s) fs v ∧
      (retry = true → (∃ g, p.candidate? s false = .ok (some g)) →
        Reaches rounds o (.searching p s) fs v) := by
  induction h with
  | cut => exact ⟨0, fun rounds _ => ⟨reaches_open, fun _ _ => reaches_open⟩⟩
  | @stuck s cause h =>
    refine ⟨0, fun rounds _ => ⟨?_, by simp⟩⟩
    have hstep : advanceWithin rounds o (.trying p s) = .error cause := by
      rw [advanceWithin, h]
      rfl
    exact reaches_fault hstep
  | @found s h =>
    refine ⟨0, fun rounds _ => ⟨?_, by simp⟩⟩
    have hstep : advanceWithin rounds o (.trying p s) = .ok (.event (.checked true) (.verified p s)) := by
      rw [advanceWithin, h]
      rfl
    have hverified : Reaches rounds o (.verified p s) [] (.found (p.filled s.filling)) :=
      (reaches_program _).step rfl (by simp)
    exact hverified.step hstep (by simp)
  | @refuted s m fs v h _ ih =>
    obtain ⟨R, hR⟩ := ih
    refine ⟨R, fun rounds hrounds => ⟨?_, by simp⟩⟩
    have hstep : advanceWithin rounds o (.trying p s) =
        .ok (.event (.checked false) (.refuted p s m)) := by
      rw [advanceWithin, h]
      rfl
    have hrefuted : Reaches rounds o (.refuted p s m) fs v := (hR rounds hrounds).1.step rfl (by simp)
    exact hrefuted.step hstep (by simp)
  | @stumped s cause h =>
    refine ⟨0, fun rounds _ => ⟨?_, fun _ hsome => ?_⟩⟩
    · have hstep : advanceWithin rounds o (.refining p s) = .error cause := by
        rw [advanceWithin, h]
        rfl
      exact reaches_fault hstep
    · obtain ⟨g, hg⟩ := hsome
      rw [h] at hg
      cases hg
  | @exhausted s h =>
    refine ⟨0, fun rounds _ => ⟨?_, fun _ hsome => ?_⟩⟩
    · have hstep : advanceWithin rounds o (.refining p s) = .ok (.event .exhausted (.exhausted p s)) := by
        rw [advanceWithin, h]
        rfl
      exact reaches_exhausted hstep
    · obtain ⟨g, hg⟩ := hsome
      rw [h] at hg
      cases hg
  | @refilled s t f g fs v h hseeks _ ih =>
    obtain ⟨R, hR⟩ := ih
    obtain ⟨R', hnext⟩ := exists_nextFilling hseeks
    refine ⟨max R R', fun rounds hrounds => ?_⟩
    obtain ⟨hrest, hagain⟩ := hR rounds (le_of_max_le_left hrounds)
    have hsearching : Reaches rounds o (.searching p s) fs v := by
      have hstep : advanceWithin rounds o (.searching p s) =
          .ok (.event (.refilled (p.filled f) f) (if f.same s.filling then
            .searching p { t with filling := f } else .trying p { t with filling := f })) := by
        rw [advanceWithin, hnext rounds (le_of_max_le_right hrounds)]
        rfl
      refine Reaches.step hstep (by simp) ?_
      cases hsame : f.same s.filling with
      | true =>
        rw [hsame] at hagain
        exact hagain rfl ⟨g, hseeks.unbounded.trans h⟩
      | false =>
        rw [hsame] at hrest
        exact hrest
    refine ⟨?_, fun _ _ => hsearching⟩
    have hstep : advanceWithin rounds o (.refining p s) = .ok (.event .searching (.searching p s)) := by
      rw [advanceWithin, h]
      rfl
    exact hsearching.step hstep (by simp)

end Following

section Leading

/-- What a search shows is warranted by its upshot. A search that takes too long shows nothing. -/
structure Warranted (shown : List Event × Ending) (v : Upshot) : Prop where
  program : ∀ {program}, shown.2 = .program program → v = .found program
  exhausted : .exhausted ∈ shown.1 → v = .exhausted
  fault : ∀ {cause}, cause ≠ .endless → shown.2 = .fault cause → v = .fault cause

def Fit (p : Problem) : Phase → Prop
  | .start | .begun | .finished _ => True
  | .named q | .verified q _ => q = p
  | .trying q s | .refuted q s _ => q = p ∧ Ready p false s
  | .refining q s => q = p ∧ Ready p true s
  | .exhausted q s | .searching q s => q = p ∧ Ready p true s ∧ ∃ f?, p.candidate? s false = .ok f?

theorem fit_start (p : Problem) : Fit p .start :=
  trivial

/-- The course of a search from a phase on. -/
def CourseFrom (p : Problem) (fs : List Filling) (v : Upshot) : Phase → Prop
  | .start | .begun | .named _ => Course p false (.initial p.sketch.holes) fs v
  | .trying _ s => Course p false s fs v
  | .refuted _ s m => Course p true (Problem.learn s m) fs v
  | .refining _ s | .exhausted _ s | .searching _ s => Course p true s fs v
  | .verified _ s => fs = [] ∧ v = .found (p.filled s.filling)
  | .finished program => fs = [] ∧ v = .found program

theorem exists_courseFrom (p : Problem) (phase : Phase) : ∃ v, CourseFrom p [] v phase := by
  cases phase with
  | verified q s => exact ⟨_, rfl, rfl⟩
  | finished program => exact ⟨_, rfl, rfl⟩
  | _ => exact ⟨.open, .cut⟩

/-- If it is known whether there is a filling at all, the search for one fails only by taking too
long. -/
theorem nextFilling_eq_error (hsolver : p.solver.Decides) (hs : Ready p true s)
    (hknown : ∃ f?, p.candidate? s false = .ok f?) {cause : Fault}
    (h : nextFilling p rounds s = .error cause) : cause = .endless := by
  induction rounds generalizing s with
  | zero =>
    cases h
    rfl
  | succ rounds ih =>
    obtain ⟨f?, hf⟩ := hknown
    rcases bind_eq_error.mp h with herror | ⟨g?, hg, h⟩
    · rcases hs.barred.candidates hsolver with ⟨e, hunbounded, -⟩ | ⟨_, _, -, hbounded, -⟩
      · rw [hf] at hunbounded
        cases hunbounded
      · rw [hbounded] at herror
        cases herror
    · cases g? with
      | none => exact ih hs.widen ⟨f?, hf⟩ h
      | some g => cases h

/-- A step goes along with the course of the search. -/
theorem Fit.step (hsolver : p.solver.Decides) (hholes : ∀ x ∈ p.sketch.holes, isHole x = true)
    {sketch : Sketch} (hp : p = ⟨o.solver, o.spec, sketch⟩)
    (hsketch : (Sketch.prepare o.session o.limit o.program).result = .ok sketch)
    (h : Fit p phase) (hstep : advanceWithin rounds o phase = .ok (.event e next)) :
    Fit p next ∧ ∀ fs v, CourseFrom p fs v next → CourseFrom p (phase.tried ++ fs) v phase := by
  cases Step.of_eq hstep with
  | started => exact ⟨trivial, fun fs v hnext => hnext⟩
  | prepared hprepared =>
    rw [hsketch] at hprepared
    cases hprepared
    exact ⟨hp.symm, fun fs v hnext => hnext⟩
  | zeroed q =>
    cases h
    exact ⟨⟨rfl, ready_initial hholes⟩, fun fs v hnext => hnext⟩
  | verified hm =>
    obtain ⟨rfl, -⟩ := h
    refine ⟨rfl, fun fs v hnext => ?_⟩
    obtain ⟨rfl, rfl⟩ := hnext
    exact .found hm
  | refuted hm =>
    obtain ⟨rfl, hs⟩ := h
    exact ⟨⟨rfl, hs⟩, fun fs v hnext => .refuted hm hnext⟩
  | succeeded q s =>
    cases h
    exact ⟨trivial, fun fs v hnext => hnext⟩
  | learned q s m =>
    obtain ⟨rfl, hs⟩ := h
    exact ⟨⟨rfl, hs.learn m⟩, fun fs v hnext => hnext⟩
  | exhausted hf | solvable hf =>
    obtain ⟨rfl, hs⟩ := h
    exact ⟨⟨rfl, hs, _, hf⟩, fun fs v hnext => hnext⟩
  | resumed q s => exact ⟨h, fun fs v hnext => hnext⟩
  | @refilled q s t g hfound =>
    obtain ⟨rfl, hs, -⟩ := h
    have hseeks := seeks_of_nextFilling hfound
    obtain ⟨f, hf⟩ := hseeks.exists_unbounded hsolver hs
    have hready := hs.refill hholes hseeks
    cases hsame : g.same s.filling with
    | true =>
      refine ⟨⟨rfl, hready true, _, hseeks.unbounded.trans hf⟩, fun fs v hnext => ?_⟩
      refine .refilled hf hseeks ?_
      rw [hsame]
      exact hnext
    | false =>
      refine ⟨⟨rfl, hready false⟩, fun fs v hnext => ?_⟩
      refine .refilled hf hseeks ?_
      rw [hsame]
      exact hnext

/-- If a step fails, so does the search, for the same cause; or it takes too long. -/
theorem Fit.fault (hsolver : p.solver.Decides) {sketch : Sketch}
    (hsketch : (Sketch.prepare o.session o.limit o.program).result = .ok sketch) (h : Fit p phase)
    {cause : Fault} (hstep : advanceWithin rounds o phase = .error cause) :
    ∃ v, CourseFrom p phase.tried v phase ∧ (cause ≠ .endless → v = .fault cause) := by
  cases Step.of_eq hstep with
  | unprepared hunprepared =>
    rw [hsketch] at hunprepared
    cases hunprepared
  | stuck herror =>
    obtain ⟨rfl, -⟩ := h
    exact ⟨_, .stuck herror, fun _ => rfl⟩
  | stumped herror =>
    obtain ⟨rfl, -⟩ := h
    exact ⟨_, .stumped herror, fun _ => rfl⟩
  | lost herror =>
    obtain ⟨rfl, hs, hknown⟩ := h
    exact ⟨_, .cut, fun hne => absurd (nextFilling_eq_error hsolver hs hknown herror) hne⟩

theorem warranted_nil : Warranted ([], .open) v :=
  ⟨by simp, by simp, by simp⟩

theorem warranted_program (program : String) : Warranted ([], .program program) (.found program) :=
  ⟨by simp, by simp, by simp⟩

theorem warranted_exhausted : Warranted ([.exhausted], .open) .exhausted :=
  ⟨by simp, by simp, by simp⟩

theorem warranted_fault {cause : Fault} (h : cause ≠ .endless → v = .fault cause) :
    Warranted ([], .fault cause) v where
  program := by simp
  exhausted := by simp
  fault hne heq := by
    cases heq
    exact h hne

theorem Warranted.step {shown : List Event × Ending} (h : Warranted shown v) (he : e ≠ .exhausted) :
    Warranted (e :: shown.1, shown.2) v where
  program := h.program
  exhausted hmem := by
    rcases List.mem_cons.mp hmem with heq | hmem
    · exact absurd heq.symm he
    · exact h.exhausted hmem
  fault := h.fault

/-- What a search by steps does is its course as far as that is followed. -/
theorem course_of_steps (hsolver : p.solver.Decides)
    (hholes : ∀ x ∈ p.sketch.holes, isHole x = true) {sketch : Sketch}
    (hp : p = ⟨o.solver, o.spec, sketch⟩)
    (hsketch : (Sketch.prepare o.session o.limit o.program).result = .ok sketch) (rounds n : Nat)
    (h : Fit p phase) : ∃ v, CourseFrom p ((bySteps rounds o).tries n phase) v phase ∧
      Warranted (traceWithin rounds o n phase) v := by
  induction n generalizing phase with
  | zero =>
    obtain ⟨v, hv⟩ := exists_courseFrom p phase
    exact ⟨v, hv, warranted_nil⟩
  | succ n ih =>
    cases hstep : advanceWithin rounds o phase with
    | error cause =>
      obtain ⟨v, hv, hcause⟩ := h.fault hsolver hsketch hstep
      rw [tries_error hstep, traceWithin_error hstep]
      exact ⟨v, hv, warranted_fault hcause⟩
    | ok progress =>
      cases progress with
      | final program =>
        cases Step.of_eq hstep
        exact ⟨.found program, ⟨rfl, rfl⟩, warranted_program program⟩
      | event e next =>
        obtain ⟨hnext, hcourse⟩ := h.step hsolver hholes hp hsketch hstep
        obtain ⟨v, hv, hwarranted⟩ := ih hnext
        have hv := hcourse _ v hv
        rw [tries_event hstep]
        by_cases he : e = .exhausted
        · subst he
          cases Step.of_eq hstep with
          | exhausted hnone =>
            obtain ⟨rfl, -⟩ := h
            rw [Course.eq_nil hv hnone, traceWithin, hstep]
            exact ⟨.exhausted, .exhausted hnone, warranted_exhausted⟩
        · rw [traceWithin_event hstep he]
          exact ⟨v, hv, hwarranted.step he⟩

end Leading

section Agreement

variable {sketch : Sketch} (hp : p = ⟨o.solver, o.spec, sketch⟩)
  (hsketch : (Sketch.prepare o.session o.limit o.program).result = .ok sketch)
include hp hsketch

theorem Reaches.start (h : Reaches rounds o (.trying p (.initial p.sketch.holes)) fs v) :
    Reaches rounds o .start fs v := by
  have hnamed : Reaches rounds o (.named p) fs v := h.step rfl (by simp)
  have hbegun : advanceWithin rounds o .begun = .ok (.event (.named sketch.text) (.named p)) := by
    rw [advanceWithin, hsketch, hp]
    rfl
  exact (hnamed.step hbegun (by simp)).step rfl (by simp)

variable (hsolver : p.solver.Decides) (hholes : ∀ x ∈ p.sketch.holes, isHole x = true)
include hsolver hholes

theorem reported_iff (hopen : v ≠ .open) (hendless : v ≠ .fault .endless) :
    (∃ rounds n, Reported (traceWithin rounds o n .start) v) ↔
      ∃ fs, Course p false (.initial p.sketch.holes) fs v := by
  constructor
  · rintro ⟨rounds, n, hreported⟩
    obtain ⟨v', hcourse, hwarranted⟩ :=
      course_of_steps hsolver hholes hp hsketch rounds n (fit_start p)
    have heq : v' = v := by
      cases v with
      | found program => exact hwarranted.program hreported
      | fault cause => exact hwarranted.fault (fun h => hendless (h ▸ rfl)) hreported
      | exhausted => exact hwarranted.exhausted hreported
      | «open» => exact absurd rfl hopen
    exact ⟨_, heq ▸ hcourse⟩
  · rintro ⟨fs, hcourse⟩
    obtain ⟨R, hR⟩ := reaches_of_course o hcourse
    obtain ⟨N, hN⟩ := (hR R le_rfl).1.start hp hsketch
    exact ⟨R, N, (hN N le_rfl).2⟩

omit hp hsketch in
theorem runs_iff (hpre : p.spec.pre.Quiet) (hpost : p.spec.post.Quiet) (hinv : p.spec.invariant.Quiet)
    (hopen : v ≠ .open) (hendless : v ≠ .fault .endless) (hfault : v ≠ .fault .notVerified) :
    (∃ n, p.runWithin n false (.initial p.sketch.holes) = v.result) ↔
      ∃ fs, Course p false (.initial p.sketch.holes) fs v := by
  constructor
  · rintro ⟨n, hrun⟩
    obtain ⟨v', hcourse, hrun'⟩ := course_of_rounds hsolver hholes n (ready_initial hholes)
    have hfault' := hcourse.fault_ne hpre hpost hinv
    have heq : v' = v := by
      rw [hrun] at hrun'
      cases v <;> cases v' <;> simp_all [Upshot.result]
    exact ⟨_, heq ▸ hcourse⟩
  · rintro ⟨fs, hcourse⟩
    obtain ⟨N, hN⟩ := hcourse.comesTo hsolver hholes (ready_initial hholes)
    exact ⟨N, (hN N le_rfl).2 hopen⟩

theorem tries_iff : (∃ n, fs <+: p.byRounds.tries n (false, .initial p.sketch.holes)) ↔
    ∃ rounds n, fs <+: (bySteps rounds o).tries n .start := by
  constructor
  · rintro ⟨n, hfs⟩
    obtain ⟨v, hcourse, -⟩ := course_of_rounds hsolver hholes n (ready_initial hholes)
    obtain ⟨R, hR⟩ := reaches_of_course o hcourse
    obtain ⟨N, hN⟩ := (hR R le_rfl).1.start hp hsketch
    exact ⟨R, N, hfs.trans (hN N le_rfl).1⟩
  · rintro ⟨rounds, n, hfs⟩
    obtain ⟨v, hcourse, -⟩ :=
      course_of_steps hsolver hholes hp hsketch rounds n (fit_start p)
    obtain ⟨N, hN⟩ := Course.comesTo hsolver hholes hcourse (ready_initial hholes)
    exact ⟨N, hfs.trans (hN N le_rfl).1⟩

end Agreement

def Order.synthesizeWithin (o : Order) (rounds : Nat) : Except Fault String :=
  Refinement.synthesizeWithin rounds o.solver o.session o.spec o.limit o.program

def Order.triesWithin (o : Order) (rounds : Nat) : List Filling :=
  match (Sketch.prepare o.session o.limit o.program).result with
  | .ok sketch =>
    (Problem.byRounds ⟨o.solver, o.spec, sketch⟩).tries rounds (false, .initial sketch.holes)
  | .error _ => []

/-- If an order cannot be prepared, a search by steps says so in its second step, and nothing is
tried. -/
theorem traceWithin_of_error {cause : Fault}
    (h : (Sketch.prepare o.session o.limit o.program).result = .error cause) (rounds n : Nat) :
    traceWithin rounds o (n + 2) .start = ([.started o.program], .fault cause) ∧
      Warranted (traceWithin rounds o n .start) (.fault cause) ∧
      (bySteps rounds o).tries n .start = [] := by
  have hstart : advanceWithin rounds o .start = .ok (.event (.started o.program) .begun) := rfl
  have hbegun : advanceWithin rounds o .begun = .error cause := by
    rw [advanceWithin, h]
    rfl
  have hstarted : Event.started o.program ≠ .exhausted := by simp
  constructor
  · rw [traceWithin_event hstart hstarted, traceWithin_error hbegun]
  · cases n with
    | zero => exact ⟨warranted_nil, rfl⟩
    | succ n =>
      rw [traceWithin_event hstart hstarted, tries_event hstart]
      cases n with
      | zero => exact ⟨warranted_nil.step hstarted, rfl⟩
      | succ n =>
        rw [traceWithin_error hbegun, tries_error hbegun]
        exact ⟨(warranted_fault fun _ => rfl).step hstarted, rfl⟩

/-- By rounds and by steps, the same comes of an order: a program is returned, or it is found that
nothing can be verified, or there is another cause to fail, in one way just when in the other; if the
order cannot be prepared, both say so; and the same fillings are tried in the same order. The solver
is to find a model just where there is one, and the conditions must not give the verdict that nothing
can be verified themselves. -/
theorem steps_agree_with_rounds (hsolver : o.solver.Decides) (hpre : o.spec.pre.Quiet)
    (hpost : o.spec.post.Quiet) (hinv : o.spec.invariant.Quiet) :
    (∀ program, (∃ rounds, o.synthesizeWithin rounds = .ok program) ↔
      ∃ rounds n, (traceWithin rounds o n .start).2 = .program program) ∧
    ((∃ rounds, o.synthesizeWithin rounds = .error .notVerified) ↔
      ∃ rounds n, .exhausted ∈ (traceWithin rounds o n .start).1) ∧
    (∀ cause, cause ≠ .notVerified → cause ≠ .endless →
      ((∃ rounds, o.synthesizeWithin rounds = .error cause) ↔
        ∃ rounds n, (traceWithin rounds o n .start).2 = .fault cause)) ∧
    (∀ cause, (Sketch.prepare o.session o.limit o.program).result = .error cause →
      ∀ rounds n, o.synthesizeWithin rounds = .error cause ∧
        traceWithin rounds o (n + 2) .start = ([.started o.program], .fault cause)) ∧
    ∀ fs, (∃ rounds, fs <+: o.triesWithin rounds) ↔
      ∃ rounds n, fs <+: (bySteps rounds o).tries n .start := by
  cases hprepare : (Sketch.prepare o.session o.limit o.program).result with
  | error cause =>
    have hrun : ∀ rounds, o.synthesizeWithin rounds = .error cause := by
      intro rounds
      rw [Order.synthesizeWithin, Refinement.synthesizeWithin, hprepare]
      rfl
    have htrace := traceWithin_of_error hprepare
    have hquiet : cause ≠ .notVerified := by
      rintro rfl
      exact (Sketch.quiet_prepare o.session o.limit o.program).result hprepare
    refine ⟨fun program => ?_, ?_, fun cause' _ hendless => ?_, ?_, fun fs => ?_⟩
    · simp only [hrun, reduceCtorEq, exists_const, false_iff, not_exists]
      intro rounds n hprogram
      cases (htrace rounds n).2.1.program hprogram
    · simp only [hrun, Except.error.injEq, hquiet, exists_const, false_iff, not_exists]
      intro rounds n hmem
      cases (htrace rounds n).2.1.exhausted hmem
    · simp only [hrun, Except.error.injEq, exists_const]
      constructor
      · rintro rfl
        exact ⟨0, 2, by rw [(htrace 0 0).1]⟩
      · rintro ⟨rounds, n, hfault⟩
        cases (htrace rounds n).2.1.fault hendless hfault
        rfl
    · rintro _ ⟨⟩ rounds n
      exact ⟨hrun rounds, (htrace rounds n).1⟩
    · have htries : ∀ rounds, o.triesWithin rounds = [] := by
        intro rounds
        rw [Order.triesWithin, hprepare]
      simp only [htries, (htrace _ _).2.2]
      simp only [exists_const]
  | ok sketch =>
    obtain ⟨-, -, _, _, -, -, -, -, hshows⟩ := Sketch.shows_of_prepare hprepare
    have hrun : ∀ rounds, o.synthesizeWithin rounds =
        Problem.runWithin ⟨o.solver, o.spec, sketch⟩ rounds false (.initial sketch.holes) := by
      intro rounds
      rw [Order.synthesizeWithin, Refinement.synthesizeWithin, hprepare]
      rfl
    have hreported := fun v => reported_iff (v := v) rfl hprepare hsolver hshows.isHole
    have hruns := fun v =>
      runs_iff (v := v) (p := ⟨o.solver, o.spec, sketch⟩) hsolver hshows.isHole hpre hpost hinv
    simp only [hrun]
    refine ⟨fun program => ?_, ?_, fun cause hfault hendless => ?_, by simp, fun fs => ?_⟩
    · exact (hruns (.found program) (by simp) (by simp) (by simp)).trans
        (hreported (.found program) (by simp) (by simp)).symm
    · exact (hruns .exhausted (by simp) (by simp) (by simp)).trans
        (hreported .exhausted (by simp) (by simp)).symm
    · have hne : ∀ {other}, cause ≠ other → Upshot.fault cause ≠ .fault other := by
        rintro other hne ⟨⟩
        exact hne rfl
      exact (hruns (.fault cause) (by simp) (hne hendless) (hne hfault)).trans
        (hreported (.fault cause) (by simp) (hne hendless)).symm
    · rw [← tries_iff rfl hprepare hsolver hshows.isHole]
      simp only [Order.triesWithin, hprepare]

noncomputable def stuckOrder : Order :=
  ⟨Solver.ideal, skipSession, anySpec, 1, "while (0 < 1) do (skip ; assert (?? = 1))"⟩

theorem steps_agree_with_rounds_orders :
    (∃ rounds n, .exhausted ∈ (traceWithin rounds stuckOrder n .start).1) ∧
      ∃ rounds n, [[("hole_0", 0)], [("hole_0", 1)], [("hole_0", 2)]] <+:
        (bySteps rounds plusOrder).tries n .start := by
  have hdecides := Solver.ideal_exact.decides
  constructor
  · obtain ⟨-, hexhausted, -⟩ := steps_agree_with_rounds (o := stuckOrder) hdecides
      (Condition.quiet_eval _) (Condition.quiet_eval _) (Condition.quiet_eval _)
    exact hexhausted.mp ⟨2, synthesize_stuckLoop⟩
  · obtain ⟨-, -, -, -, htries⟩ := steps_agree_with_rounds (o := plusOrder) hdecides
      (Condition.quiet_eval _) (Condition.quiet_eval _) (Condition.quiet_eval _)
    obtain ⟨sketch, -, hsketch, hholes, -, -, hposed⟩ := posed_plusHole
    have hfresh := Problem.fresh_byRounds hposed.shows.isHole (by rw [plusProblem, hholes]; decide)
      Solver.ideal_exact.faithful
    have hprefix := hfresh.tried 2
    have hzeros : zeros (plusProblem sketch).sketch.holes = [("hole_0", 0)] := by
      rw [plusProblem, hholes]
      rfl
    have htried : plusOrder.triesWithin 3 =
        (plusProblem sketch).byRounds.tries 3 (false, .initial sketch.holes) := by
      unfold Order.triesWithin
      have hprepare : (Sketch.prepare plusOrder.session plusOrder.limit plusOrder.program).result =
          .ok sketch := hsketch
      rw [hprepare]
      rfl
    rw [hzeros] at hprefix
    refine (htries _).mp ⟨3, ?_⟩
    rw [htried, ← proposals_plusHole hposed hholes]
    exact hprefix

end WhileSketch.Stepping
