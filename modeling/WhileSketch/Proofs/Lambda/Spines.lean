import Mathlib
import WhileSketch.Proofs.Lambda.Terms
import WhileSketch.Proofs.Text.Words

/-! Terms word by word, from left to right. What has been read of a row of applications is carried
along, so that each word tells what comes next, and some words are read as at most one term. -/

namespace WhileSketch.Lambda

variable {d : Dialect}

/-- A term to which what has been read before it is applied, if there is something. -/
def applied : Option (Tree Label) → Tree Label → Tree Label
  | none, t => t
  | some f, t => Tree.word "@" [f, t]

/-- The term that is read from some words, behind those of what is given first. -/
inductive ReadsOn (d : Dialect) : Option (Tree Label) → Tree Label → List Word → Prop
  | done (f : Tree Label) : ReadsOn d (some f) f []
  | name {f : Option (Tree Label)} {t : Tree Label} {ws : List Word} (x : String)
      (h : ReadsOn d (some (applied f (nameTree (d.shown x)))) t ws) :
      ReadsOn d f t (nameWord x :: ws)
  | numeral {f : Option (Tree Label)} {t : Tree Label} {ws : List Word} (s : String)
      (h : ReadsOn d (some (applied f (Tree.word "num" [Tree.word s []]))) t ws) :
      ReadsOn d f t (numeralWord s :: ws)
  | brackets {f : Option (Tree Label)} {t u : Tree Label} {ws vs : List Word}
      (hu : ReadsOn d none u vs) (h : ReadsOn d (some (applied f u)) t ws) :
      ReadsOn d f t (markWord "(" :: (vs ++ markWord ")" :: ws))
  | abs {bs : List (Tree Label)} {t : Tree Label} {ws vs : List Word} (f : Option (Tree Label))
      (hb : BindersRead d bs ws) (ht : ReadsOn d none t vs) :
      ReadsOn d f (applied f (abstraction bs t)) (markWord "\\" :: (ws ++ markWord "." :: vs))
  | letIn {b t u : Tree Label} {ws vs us : List Word} (hb : BindersRead d [b] ws)
      (ht : ReadsOn d none t vs) (hu : ReadsOn d none u us) :
      ReadsOn d none (Tree.word "let_" [markTree "let", b, markTree "=", t, markTree "in", u])
        (markWord "let" :: (ws ++ markWord "=" :: (vs ++ markWord "in" :: us)))

/-- What some words add to the term that is given first. -/
def Extends (d : Dialect) (f : Option (Tree Label)) (t : Tree Label) (ws : List Word) : Prop :=
  f.elim (TermReads d t ws) fun g => ∀ us, TermReads d g us → TermReads d t (us ++ ws)

theorem Extends.of_applied {f : Option (Tree Label)} {t u : Tree Label} {ws vs : List Word}
    (hu : TermReads d u vs) (h : Extends d (some (applied f u)) t ws) :
    Extends d f t (vs ++ ws) := by
  cases f with
  | none => exact h vs hu
  | some g =>
    intro us hg
    rw [← List.append_assoc]
    exact h (us ++ vs) (.app hg hu)

/-- What is read from left to right is a reading. -/
theorem ReadsOn.extends {f : Option (Tree Label)} {t : Tree Label} {ws : List Word}
    (h : ReadsOn d f t ws) : Extends d f t ws := by
  have hself : ∀ u : Tree Label, Extends d (some u) u [] := by
    intro u us hus
    rwa [List.append_nil]
  induction h with
  | done f => exact hself f
  | name x _ ih => exact .of_applied (.name x) ih
  | numeral s _ ih => exact .of_applied (.numeral s) ih
  | @brackets f t u ws vs _ _ ihu ih =>
    have hall : Extends d f t ((markWord "(" :: (vs ++ [markWord ")"])) ++ ws) :=
      .of_applied (.brackets ihu) ih
    simpa using hall
  | @abs bs t ws vs f hb _ ih =>
    have hall := Extends.of_applied (f := f) (.abs hb ih) (hself _)
    rwa [List.append_nil] at hall
  | letIn hb _ _ iht ihu => exact .letIn hb iht ihu

section Levels

/-- What may stand around a term without brackets: nothing, operands behind it, a function before it, or
either. -/
inductive Level where
  | whole
  | chain
  | tail
  | operand
  deriving DecidableEq

/-- Whether what is read at the first level is also read at the second. -/
def Level.fits : Level → Level → Bool
  | .operand, _ => true
  | _, .whole => true
  | a, b => a = b

def Level.Reads (d : Dialect) : Level → Tree Label → List Word → Prop
  | .whole, u, ws => ReadsOn d none u ws
  | .chain, u, ws => ∀ t vs, ReadsOn d (some u) t vs → ReadsOn d none t (ws ++ vs)
  | .tail, u, ws => ∀ f, ReadsOn d f (applied f u) ws
  | .operand, u, ws =>
    ∀ f t vs, ReadsOn d (some (applied f u)) t vs → ReadsOn d f t (ws ++ vs)

variable {a b : Level} {t u : Tree Label} {ws vs : List Word}

theorem Level.Reads.whole (h : a.Reads d u ws) : ReadsOn d none u ws := by
  cases a with
  | whole => exact h
  | chain =>
    have hall := h u [] (.done u)
    rwa [List.append_nil] at hall
  | tail => exact h none
  | operand =>
    have hall := h none u [] (.done u)
    rwa [List.append_nil] at hall

theorem Level.Reads.fit (h : a.Reads d u ws) (hab : a.fits b = true) : b.Reads d u ws := by
  cases b with
  | whole => exact h.whole
  | chain =>
    cases a with
    | chain => exact h
    | operand => exact h none
    | _ => simp [Level.fits] at hab
  | tail =>
    cases a with
    | tail => exact h
    | operand =>
      intro f
      have hall := h f (applied f u) [] (.done _)
      rwa [List.append_nil] at hall
    | _ => simp [Level.fits] at hab
  | operand =>
    cases a with
    | operand => exact h
    | _ => simp [Level.fits] at hab

/-! How terms are put together. -/

theorem reads_name (x : String) :
    Level.operand.Reads d (nameTree (d.shown x)) [nameWord x] :=
  fun _ _ _ => .name x

theorem reads_numeral (s : String) :
    Level.operand.Reads d (Tree.word "num" [Tree.word s []]) [numeralWord s] :=
  fun _ _ _ => .numeral s

theorem reads_brackets (hu : ReadsOn d none u ws) :
    Level.operand.Reads d u (markWord "(" :: (ws ++ [markWord ")"])) := by
  intro f t vs h
  simpa using ReadsOn.brackets hu h

theorem reads_abs {bs : List (Tree Label)} (hb : BindersRead d bs ws)
    (ht : ReadsOn d none t vs) :
    Level.tail.Reads d (abstraction bs t) (markWord "\\" :: (ws ++ markWord "." :: vs)) :=
  fun f => .abs f hb ht

theorem reads_app (ht : Level.chain.Reads d t ws) (hu : Level.operand.Reads d u vs) :
    Level.chain.Reads d (Tree.word "@" [t, u]) (ws ++ vs) := by
  intro v us h
  rw [List.append_assoc]
  exact ht v (vs ++ us) (hu (some t) v us h)

theorem reads_app_tail (ht : Level.chain.Reads d t ws) (hu : Level.tail.Reads d u vs) :
    Level.whole.Reads d (Tree.word "@" [t, u]) (ws ++ vs) :=
  ht _ vs (hu (some t))

end Levels

section Unique

def Stops (ws : List Word) : Prop :=
  ∀ w ∈ ws.head?, w = markWord ")" ∨ w = markWord "in"

theorem stops_nil : Stops [] := by
  simp [Stops]

theorem stops_close (ws : List Word) : Stops (markWord ")" :: ws) := by
  simp [Stops]

theorem stops_in (ws : List Word) : Stops (markWord "in" :: ws) := by
  simp [Stops]

theorem TypeReads.notMem {t : Tree Label} {ws : List Word} (h : TypeReads d t ws) {s : String}
    (hs : s ∈ [".", "="]) : markWord s ∉ ws := by
  simp only [List.mem_cons, List.not_mem_nil, or_false] at hs
  induction h with
  | name x => obtain rfl | rfl := hs <;> simp [markWord, nameWord]
  | brackets _ ih => obtain rfl | rfl := hs <;> simpa [markWord] using ih
  | arrow _ _ iht ihu => obtain rfl | rfl := hs <;> simpa [markWord] using ⟨iht, ihu⟩

theorem BindersRead.notMem {bs : List (Tree Label)} {ws : List Word} (h : BindersRead d bs ws)
    {s : String} (hs : s ∈ [".", "="]) : markWord s ∉ ws := by
  have hnames : ∀ xs : List String, markWord s ∉ xs.map nameWord := by
    simp only [List.mem_cons, List.not_mem_nil, or_false] at hs
    obtain rfl | rfl := hs <;> simp [markWord, nameWord]
  have hmarks : markWord s ∉ [":", "(", ")"].map markWord := by
    simp only [List.mem_cons, List.not_mem_nil, or_false] at hs
    obtain rfl | rfl := hs <;> decide
  simp only [List.map_cons, List.map_nil, List.mem_cons, List.not_mem_nil, or_false,
    not_or] at hmarks
  obtain ⟨hcolon, hopen, hclose⟩ := hmarks
  induction h with
  | nil => simp
  | name x _ ih =>
    have hname : markWord s ∉ [nameWord x] := hnames [x]
    rw [← List.singleton_append, List.mem_append, not_or]
    exact ⟨hname, ih⟩
  | last _ xs ht =>
    simp only [List.mem_append, List.mem_cons, not_or]
    exact ⟨hnames xs, hcolon, ht.notMem hs⟩
  | group _ xs ht _ ih =>
    simp only [List.mem_append, List.mem_cons, not_or]
    exact ⟨hopen, hnames xs, hcolon, ht.notMem hs, hclose, ih⟩

/-- Parameters end at a mark that cannot be among their words. -/
theorem BindersRead.append_inj {bs bs' : List (Tree Label)} {ws ws' vs vs' : List Word}
    (h : BindersRead d bs ws) (h' : BindersRead d bs' ws') {s : String} (hs : s ∈ [".", "="])
    (heq : ws ++ markWord s :: vs = ws' ++ markWord s :: vs') : ws = ws' ∧ vs = vs' := by
  have hbar : ∀ {bs ws}, BindersRead d bs ws → ∀ vs : List Word,
      (ws ++ markWord s :: vs).takeWhile (· ≠ markWord s) = ws := by
    intro bs ws h vs
    refine takeWhile_append_bar (fun w hw => ?_) (by simp)
    exact decide_eq_true fun heq => h.notMem hs (heq ▸ hw)
  have hws : ws = ws' := by rw [← hbar h vs, heq, hbar h' vs']
  subst hws
  exact ⟨rfl, (List.cons.inj (List.append_cancel_left heq)).2⟩

/-- Some words are read as at most one term, and what follows them tells where it ends. -/
theorem ReadsOn.unique
    (hbinders : ∀ {bs bs' ws}, BindersRead d bs ws → BindersRead d bs' ws → bs = bs')
    {f : Option (Tree Label)} {t t' : Tree Label} {ws ws' rest rest' : List Word}
    (h : ReadsOn d f t ws) (h' : ReadsOn d f t' ws') (heq : ws ++ rest = ws' ++ rest')
    (hrest : Stops rest) (hrest' : Stops rest') : t = t' ∧ ws = ws' := by
  induction h generalizing t' ws' rest rest' with
  | done f =>
    rw [List.nil_append] at heq
    cases h' with
    | done => exact ⟨rfl, rfl⟩
    | _ => simp [Stops, heq, nameWord, numeralWord, markWord] at hrest
  | name x _ ih =>
    cases h' with
    | done =>
      rw [List.nil_append] at heq
      simp [Stops, ← heq, nameWord, markWord] at hrest'
    | name x' h' =>
      simp only [List.cons_append, List.cons.injEq] at heq
      obtain ⟨hx, heq⟩ := heq
      obtain rfl : x = x' := congrArg Word.text hx
      obtain ⟨rfl, rfl⟩ := ih h' heq hrest hrest'
      exact ⟨rfl, rfl⟩
    | _ => simp [nameWord, markWord, numeralWord] at heq
  | numeral s _ ih =>
    cases h' with
    | done =>
      rw [List.nil_append] at heq
      simp [Stops, ← heq, numeralWord, markWord] at hrest'
    | numeral s' h' =>
      simp only [List.cons_append, List.cons.injEq] at heq
      obtain ⟨hs, heq⟩ := heq
      obtain rfl : s = s' := congrArg Word.text hs
      obtain ⟨rfl, rfl⟩ := ih h' heq hrest hrest'
      exact ⟨rfl, rfl⟩
    | _ => simp [nameWord, markWord, numeralWord] at heq
  | brackets _ _ ihu ih =>
    cases h' with
    | done =>
      rw [List.nil_append] at heq
      simp [Stops, ← heq, markWord] at hrest'
    | brackets hu' h' =>
      simp only [List.cons_append, List.append_assoc, List.cons.injEq, true_and] at heq
      obtain ⟨rfl, rfl⟩ := ihu hu' heq (stops_close _) (stops_close _)
      have htail := (List.cons.inj (List.append_cancel_left heq)).2
      obtain ⟨rfl, rfl⟩ := ih h' htail hrest hrest'
      exact ⟨rfl, rfl⟩
    | _ => simp [nameWord, markWord, numeralWord] at heq
  | abs f hb _ ih =>
    cases h' with
    | done =>
      rw [List.nil_append] at heq
      simp [Stops, ← heq, markWord] at hrest'
    | abs _ hb' ht' =>
      simp only [List.cons_append, List.append_assoc, List.cons.injEq, true_and] at heq
      obtain ⟨rfl, hbody⟩ := hb.append_inj hb' (by simp) heq
      obtain ⟨rfl, rfl⟩ := ih ht' hbody hrest hrest'
      rw [hbinders hb hb']
      exact ⟨rfl, rfl⟩
    | _ => simp [nameWord, markWord, numeralWord] at heq
  | letIn hb _ _ iht ihu =>
    cases h' with
    | letIn hb' ht' hu' =>
      simp only [List.cons_append, List.append_assoc, List.cons.injEq, true_and] at heq
      obtain ⟨rfl, hrow⟩ := hb.append_inj hb' (by simp) heq
      obtain ⟨rfl, rfl⟩ := iht ht' hrow (stops_in _) (stops_in _)
      have htail := (List.cons.inj (List.append_cancel_left hrow)).2
      obtain ⟨rfl, rfl⟩ := ihu hu' htail hrest hrest'
      obtain rfl := List.singleton_inj.mp (hbinders hb hb')
      exact ⟨rfl, rfl⟩
    | _ => simp [nameWord, markWord, numeralWord] at heq

end Unique

end WhileSketch.Lambda
