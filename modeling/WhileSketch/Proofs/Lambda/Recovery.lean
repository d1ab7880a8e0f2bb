import Mathlib
import WhileSketch.Proofs.Failure
import WhileSketch.Proofs.Lambda.Ambiguity
import WhileSketch.Proofs.Lambda.PrintedWords

/-! Terms that come back from the words they are printed as. For each of them there is a derivation
that is read as the term, from the symbol of its position, if no local definition stands directly in
an application. -/

namespace WhileSketch.Lambda

variable {d : Dialect}

section Recovering

/-! ### Terms that come back from their words -/

/-- Some words come from a symbol by a derivation that is read as the given term. -/
def Recovers (d : Dialect) (x : String) (t : Tree Label) (ws : List Word) : Prop :=
  ∃ e, Yields d.rules x e ws ∧ ∀ n, e.size ≤ n → d.condenseWithin n e = .ok t

def RecoversAll (d : Dialect) (xs : List String) (ts : List (Tree Label)) (ws : List Word) : Prop :=
  ∃ es, YieldsAll d.rules xs es ws ∧
    ∀ n, Tree.sizeList es ≤ n → es.mapM (d.condenseWithin n) = .ok ts

variable {x y s : String} {xs rhs : List String} {t u b : Tree Label} {ts : List (Tree Label)}
  {ws vs us : List Word}

theorem RecoversAll.nil : RecoversAll d [] [] [] :=
  ⟨[], .nil, fun _ _ => rfl⟩

theorem RecoversAll.cons (h : Recovers d x t ws) (hs : RecoversAll d xs ts vs) :
    RecoversAll d (x :: xs) (t :: ts) (ws ++ vs) := by
  obtain ⟨e, he, hread⟩ := h
  obtain ⟨es, hes, hreads⟩ := hs
  refine ⟨e :: es, .cons he hes, fun n hn => ?_⟩
  rw [Tree.sizeList] at hn
  rw [List.mapM_cons, hread n (by omega), hreads n (by omega)]
  rfl

theorem RecoversAll.one (h : Recovers d x t ws) : RecoversAll d [x] [t] ws := by
  simpa using RecoversAll.cons h .nil

theorem Recovers.kept (hx : x ∈ "@" :: "let_" :: terminals) (hr : ⟨x, rhs⟩ ∈ d.rules)
    (h : RecoversAll d rhs ts ws) : Recovers d x (Tree.word x ts) ws := by
  obtain ⟨es, hes, hreads⟩ := h
  refine ⟨Tree.word x es, .rule hr hes, fun n hn => ?_⟩
  simp only [Tree.word, Tree.size] at hn
  obtain ⟨n, rfl⟩ : ∃ m, n = m + 1 := ⟨n - 1, by omega⟩
  rw [condense_kept hx, hreads n (by omega)]
  rfl

theorem Recovers.level (hx : x ∈ ["E", "E0", "E1", "E1'"]) (hr : ⟨x, [y]⟩ ∈ d.rules)
    (h : Recovers d y t ws) : Recovers d x t ws := by
  have hlevel : ∀ x ∈ ["E", "E0", "E1", "E1'"], x ∈ ["γ", "E", "E0", "E1", "E1'"] := by decide
  obtain ⟨e, he, hread⟩ := h
  refine ⟨Tree.word x [e], .rule hr (yieldsAll_one_iff.mpr ⟨e, rfl, he⟩), fun n hn => ?_⟩
  simp only [Tree.word, Tree.size, Tree.sizeList] at hn
  obtain ⟨n, rfl⟩ : ∃ m, n = m + 1 := ⟨n - 1, by omega⟩
  rw [condense_level (hlevel x hx), hread n (by omega)]

theorem condense_nameTree {n : Nat} (hx : d.keeps x = true) (hn : 2 ≤ n) :
    d.condenseWithin n (nameTree x) = .ok (nameTree x) := by
  obtain ⟨hname, -, -⟩ := keeps_iff.mp hx
  have hword : x.toList.all Text.isWordChar = true := by
    simp only [isName, Bool.and_eq_true] at hname
    exact hname.1.2
  rw [condense_name hword hn, Dialect.reading, shown_eq hx, List.any_cons, isUnread_nameWord hx]
  rfl

theorem recovers_name (hx : d.keeps x = true) : Recovers d "id" (nameTree x) [nameWord x] :=
  ⟨nameTree x, .word (w := nameWord x) (by simp), fun _ => condense_nameTree hx⟩

theorem recovers_numeral (hs : isNumeral s = true) :
    Recovers d "num" (Tree.word "num" [Tree.word s []]) [numeralWord s] := by
  have hdigits : s.toList.all Text.isDigit = true := by
    simp only [isNumeral, Bool.and_eq_true] at hs
    exact hs.2
  refine ⟨_, .word (w := numeralWord s) (by simp), fun n hn => ?_⟩
  exact condense_numeral hdigits hn

theorem recovers_mark (hs : s ∈ marks) : Recovers d s (markTree s) [markWord s] := by
  refine ⟨markTree s, .word (w := markWord s) (by simp), fun n hn => ?_⟩
  rw [condense_mark hs hn, Dialect.reading, List.any_cons, isUnread_markWord hs]
  rfl

theorem Recovers.brackets (h : Recovers d "E" t ws) :
    Recovers d "E0" t (markWord "(" :: (ws ++ [markWord ")"])) := by
  have hr : ⟨"E0", ["(", "E", ")"]⟩ ∈ d.rules := by cases d <;> decide
  obtain ⟨e, he, hread⟩ := h
  have hopen : Yields d.rules "(" (markTree "(") [markWord "("] :=
    .word (w := markWord "(") (by simp)
  have hclose : Yields d.rules ")" (markTree ")") [markWord ")"] :=
    .word (w := markWord ")") (by simp)
  refine ⟨Tree.word "E0" [markTree "(", e, markTree ")"],
    .rule hr (.cons hopen (.cons he (yieldsAll_one_iff.mpr ⟨_, rfl, hclose⟩))), fun n hn => ?_⟩
  simp only [Tree.word, Tree.size, Tree.sizeList] at hn
  obtain ⟨n, rfl⟩ : ∃ m, n = m + 1 := ⟨n - 1, by omega⟩
  rw [markTree, markTree, condense_brackets, hread n (by omega)]

theorem Recovers.app (ht : Recovers d "E1" t ws) (hu : Recovers d "E0" u vs) :
    Recovers d "E1" (Tree.word "@" [t, u]) (ws ++ vs) := by
  have hrules : ⟨"@", ["E1", "E0"]⟩ ∈ d.rules ∧ ⟨"E1", ["@"]⟩ ∈ d.rules := by cases d <;> decide
  exact .level (by simp) hrules.2 (.kept (by simp) hrules.1 (.cons ht (.one hu)))

/-- The last argument of an application may be an abstraction without brackets. -/
theorem Recovers.app_abs (ht : Recovers d "E1" t ws) (hu : Recovers d "\\." u vs) :
    Recovers d "E" (Tree.word "@" [t, u]) (ws ++ vs) := by
  have hrules : ⟨"@'", ["E1", "\\."]⟩ ∈ d.rules ∧ ⟨"E1'", ["@'"]⟩ ∈ d.rules ∧
      ⟨"E", ["E1'"]⟩ ∈ d.rules := by
    cases d <;> decide
  obtain ⟨es, hes, hreads⟩ := RecoversAll.cons ht (.one hu)
  have happ : Recovers d "@'" (Tree.word "@" [t, u]) (ws ++ vs) := by
    refine ⟨Tree.word "@'" es, .rule hrules.1 hes, fun n hn => ?_⟩
    simp only [Tree.word, Tree.size] at hn
    obtain ⟨n, rfl⟩ : ∃ m, n = m + 1 := ⟨n - 1, by omega⟩
    rw [condense_primed, hreads n (by omega)]
    rfl
  exact .level (by simp) hrules.2.2 (.level (by simp) hrules.2.1 happ)

end Recovering

section Typed

/-! ### Parameters and what they belong to -/

variable {x y : String} {b t u : Tree Label} {ws vs us : List Word}

theorem recovers_type (hx : Dialect.keeps .typed x = true) :
    Recovers .typed "T" (nameTree x) [nameWord x] := by
  obtain ⟨e, he, hread⟩ := recovers_name hx
  have hname : Yields (Dialect.rules .typed) "T1" (Tree.word "T1" [e]) [nameWord x] :=
    .rule (r := ⟨"T1", ["id"]⟩) (by decide) (yieldsAll_one_iff.mpr ⟨e, rfl, he⟩)
  refine ⟨Tree.word "T" [Tree.word "T1" [e]],
    .rule (r := ⟨"T", ["T1"]⟩) (by decide) (yieldsAll_one_iff.mpr ⟨_, rfl, hname⟩), fun n hn => ?_⟩
  simp only [Tree.word, Tree.size, Tree.sizeList] at hn
  obtain ⟨n, rfl⟩ : ∃ m, n = m + 2 := ⟨n - 2, by omega⟩
  rw [condense_typeLevel (by simp), condense_typeLevel (by simp), hread n (by omega)]

theorem recovers_names (hx : Dialect.keeps .typed x = true) :
    Recovers .typed "L" (Tree.word "." [nameTree x]) [nameWord x] := by
  have hnone : Yields (Dialect.rules .typed) "L" (Tree.word "L" []) [] :=
    .rule (r := ⟨"L", []⟩) (by decide) .nil
  have hname : Yields (Dialect.rules .typed) "id" (nameTree x) [nameWord x] :=
    .word (w := nameWord x) (by simp)
  refine ⟨Tree.word "L" [nameTree x, Tree.word "L" []],
    .rule (r := ⟨"L", ["id", "L"]⟩) (by decide) (.cons hname (.cons hnone .nil)), fun n hn => ?_⟩
  simp only [Tree.word, Tree.size, Tree.sizeList, nameTree] at hn
  obtain ⟨n, rfl⟩ : ∃ m, n = m + 1 := ⟨n - 1, by omega⟩
  have hsplit : (Tree.word "L" [nameTree x, Tree.word "L" []]).split none = [nameTree x] := rfl
  rw [condense_row rfl, hsplit, List.mapM_cons, condense_nameTree hx (by omega)]
  rfl

/-- A parameter comes back as a row of one parameter, which is left as it is. -/
def RecoversRow (b : Tree Label) (ws : List Word) : Prop :=
  ∃ e, Yields (Dialect.rules .typed) "A" e ws ∧ ∀ n, e.size ≤ n →
    Dialect.condenseWithin .typed n b = .ok b ∧
    ∃ u, Dialect.condenseWithin .typed n e = .ok u ∧ u.split none = [b]

theorem recoversRow_name (hx : Dialect.keeps .typed x = true) :
    RecoversRow (nameTree x) [nameWord x] := by
  obtain ⟨e, he, hread⟩ := recovers_name hx
  have hnone : Yields (Dialect.rules .typed) "A0" (Tree.word "A0" []) [] :=
    .rule (r := ⟨"A0", []⟩) (by decide) .nil
  have hrow : Yields (Dialect.rules .typed) "A1" (Tree.word "A1" [e, Tree.word "A0" []])
      [nameWord x] :=
    .rule (r := ⟨"A1", ["id", "A0"]⟩) (by decide) (.cons he (.cons hnone .nil))
  refine ⟨Tree.word "A" [Tree.word "A1" [e, Tree.word "A0" []]],
    .rule (r := ⟨"A", ["A1"]⟩) (by decide) (yieldsAll_one_iff.mpr ⟨_, rfl, hrow⟩), fun n hn => ?_⟩
  simp only [Tree.word, Tree.size, Tree.sizeList] at hn
  obtain ⟨n, rfl⟩ : ∃ m, n = m + 3 := ⟨n - 3, by omega⟩
  refine ⟨condense_nameTree hx (by omega), Tree.word "." [nameTree x, Tree.word "." []], ?_, rfl⟩
  have hrest : Dialect.condenseWithin .typed (n + 1) (Tree.word "A0" []) = .ok (Tree.word "." []) :=
    rfl
  rw [condense_typeLevel (by simp), condense_parameter, List.mapM_cons, List.mapM_cons,
    hread _ (by omega), hrest]
  rfl

theorem recoversRow_annotated (hx : Dialect.keeps .typed x = true)
    (hy : Dialect.keeps .typed y = true) :
    RecoversRow (Tree.word ":" [nameTree x, nameTree y])
      [nameWord x, markWord ":", nameWord y] := by
  obtain ⟨e, he, hnames⟩ := recovers_names hx
  obtain ⟨m, hm, hsign⟩ := recovers_mark (d := .typed) (s := ":") (by decide)
  obtain ⟨e', he', htype⟩ := recovers_type hy
  have hgroup : Yields (Dialect.rules .typed) "L:T" (Tree.word "L:T" [e, m, e'])
      [nameWord x, markWord ":", nameWord y] :=
    .rule (r := ⟨"L:T", ["L", ":", "T"]⟩) (by decide) (.cons he (.cons hm (.cons he' .nil)))
  refine ⟨Tree.word "A" [Tree.word "L:T" [e, m, e']],
    .rule (r := ⟨"A", ["L:T"]⟩) (by decide) (yieldsAll_one_iff.mpr ⟨_, rfl, hgroup⟩),
    fun n hn => ?_⟩
  simp only [Tree.word, Tree.size, Tree.sizeList] at hn
  have hpos : 1 ≤ e.size := by rw [Tree.size_eq]; omega
  obtain ⟨n, rfl⟩ : ∃ m, n = m + 3 := ⟨n - 3, by omega⟩
  refine ⟨?_, Tree.word "." [Tree.word ":" [nameTree x, nameTree y]], ?_, rfl⟩
  · rw [condense_kept (by decide), List.mapM_cons, List.mapM_cons, condense_nameTree hx (by omega),
      condense_nameTree hy (by omega)]
    rfl
  · rw [condense_typeLevel (by simp), condense_group, hnames _ (by omega), hsign _ (by omega),
      htype _ (by omega)]
    rfl

theorem BinderWritten.recoversRow (h : BinderWritten b ws) : RecoversRow b ws := by
  cases h with
  | name hx => exact recoversRow_name hx
  | annotated hx hy => exact recoversRow_annotated hx hy

theorem Recovers.abs (hb : RecoversRow b ws) (ht : Recovers .typed "E" t vs) :
    Recovers .typed "\\." (Tree.word "\\" [b, t])
      (markWord "\\" :: (ws ++ markWord "." :: vs)) := by
  obtain ⟨e, he, hrow⟩ := hb
  obtain ⟨e', he', hread⟩ := ht
  obtain ⟨m, hm, -⟩ := recovers_mark (d := .typed) (s := "\\") (by decide)
  obtain ⟨m', hm', -⟩ := recovers_mark (d := .typed) (s := ".") (by decide)
  refine ⟨Tree.word "\\." [m, e, m', e'], .rule (r := ⟨"\\.", ["\\", "A", ".", "E"]⟩) (by decide)
    (.cons hm (.cons he (.cons hm' (yieldsAll_one_iff.mpr ⟨e', rfl, he'⟩)))), fun n hn => ?_⟩
  simp only [Tree.word, Tree.size, Tree.sizeList] at hn
  obtain ⟨n, rfl⟩ : ∃ m, n = m + 1 := ⟨n - 1, by omega⟩
  obtain ⟨hb, u, hu, hsplit⟩ := hrow n (by omega)
  rw [condense_abs_typed, hu, ok_bind, hsplit, Dialect.abstract, if_neg (by simp), List.mapM_cons,
    hb, hread n (by omega)]
  rfl

theorem BinderWritten.exists_recovers (h : BinderWritten b ws) :
    ∃ x ∈ ["id", "id:T"], Recovers .typed x b ws := by
  cases h with
  | name hx => exact ⟨"id", by simp, recovers_name hx⟩
  | @annotated x y hx hy =>
    obtain ⟨e, he, hname⟩ := recovers_name hx
    have hm : Yields (Dialect.rules .typed) ":" (markTree ":") [markWord ":"] :=
      .word (w := markWord ":") (by simp)
    obtain ⟨e', he', htype⟩ := recovers_type hy
    refine ⟨"id:T", by simp, Tree.word "id:T" [e, markTree ":", e'],
      .rule (r := ⟨"id:T", ["id", ":", "T"]⟩) (by decide) (.cons he (.cons hm (.cons he' .nil))),
      fun n hn => ?_⟩
    simp only [Tree.word, Tree.size, Tree.sizeList] at hn
    obtain ⟨n, rfl⟩ : ∃ m, n = m + 1 := ⟨n - 1, by omega⟩
    rw [markTree, condense_sign (by simp), hname n (by omega), htype n (by omega)]
    rfl

theorem Recovers.letIn (hb : BinderWritten b ws) (ht : Recovers .typed "E" t vs)
    (hu : Recovers .typed "E" u us) :
    Recovers .typed "E" (Tree.word "let_" [markTree "let", b, markTree "=", t, markTree "in", u])
      (markWord "let" :: (ws ++ markWord "=" :: (vs ++ markWord "in" :: us))) := by
  have hrules : ∀ x ∈ ["id", "id:T"],
      ⟨"let_", ["let", x, "=", "E", "in", "E"]⟩ ∈ Dialect.rules .typed := by
    decide
  obtain ⟨x, hx, hb⟩ := hb.exists_recovers
  have hparts := RecoversAll.cons (recovers_mark (s := "let") (by decide)) (.cons hb
    (.cons (recovers_mark (s := "=") (by decide)) (.cons ht
      (.cons (recovers_mark (s := "in") (by decide)) (.one hu)))))
  exact .level (by simp) (by decide) (.kept (by simp) (hrules x hx) hparts)

end Typed

section Places

/-! ### Brackets that are enough -/

def isLet (t : Tree Label) : Bool :=
  t.root.isWord "let_"

def isApp (t : Tree Label) : Bool :=
  t.root.isWord "@"

mutual

/-- How many local definitions stand directly in an application. -/
def looseLets : Tree Label → Nat
  | .node r ts => (if r.isWord "@" then ts.countP isLet else 0) + looseLetsEach ts

def looseLetsEach : List (Tree Label) → Nat
  | [] => 0
  | t :: ts => looseLets t + looseLetsEach ts

end

/-- What comes back from some words at a level. -/
def Level.Recovers : Level → Tree Label → List Word → Prop
  | .whole, t, ws => Lambda.Recovers .typed "E" t ws
  | .chain, t, ws => Lambda.Recovers .typed "E1" t ws
  | .tail, t, ws => Lambda.Recovers .typed "E0" t ws ∨ Lambda.Recovers .typed "\\." t ws
  | .operand, t, ws => Lambda.Recovers .typed "E0" t ws

variable {a : Level} {p : Position} {b t u : Tree Label} {ws vs : List Word}

theorem recovers_of_operand (h : Recovers .typed "E0" t ws) (a : Level) : a.Recovers t ws := by
  have hchain : Recovers .typed "E1" t ws := .level (by simp) (by decide) h
  cases a with
  | whole => exact .level (by simp) (by decide) hchain
  | chain => exact hchain
  | tail => exact .inl h
  | operand => exact h

theorem recovers_of_chain (h : Recovers .typed "E1" t ws) (ha : Level.chain.fits a = true) :
    a.Recovers t ws := by
  cases a with
  | whole => exact .level (by simp) (by decide) h
  | chain => exact h
  | _ => simp [Level.fits] at ha

theorem recovers_of_tail (h : Recovers .typed "\\." t ws) (ha : Level.tail.fits a = true) :
    a.Recovers t ws := by
  cases a with
  | whole => exact .level (by simp) (by decide) h
  | tail => exact .inr h
  | _ => simp [Level.fits] at ha

/-- Brackets make a term fit everywhere. Without them it has to fit by itself. -/
theorem recovers_enclosed {needed : Bool} (hwhole : Recovers .typed "E" t ws)
    (hbare : needed = false → a.Recovers t ws) : a.Recovers t (enclosedWords needed ws) := by
  cases needed with
  | false => exact hbare rfl
  | true => exact recovers_of_operand hwhole.brackets a

theorem recovers_app (ht : Position.level ⟨"@", 0, "@"⟩ |>.Recovers t ws)
    (hu : Position.level ⟨"@", 1, p.follow⟩ |>.Recovers u vs) :
    p.level.Recovers (Tree.word "@" [t, u])
      (enclosedWords (p.parent == "@" && p.index == 1) (ws ++ vs)) := by
  have hfunction : Recovers .typed "E1" t ws := ht
  by_cases hfollow : p.follow = "@"
  · have hoperand : Level.operand.Recovers u vs := by
      simpa [Position.level, hfollow] using hu
    have hchain := hfunction.app hoperand
    exact recovers_enclosed (recovers_of_chain (a := .whole) hchain rfl) fun hneeded =>
      recovers_of_chain hchain (chain_fits_level hneeded)
  · have htail : Level.tail.Recovers u vs := by
      simpa [Position.level, hfollow] using hu
    have hwhole : Recovers .typed "E" (Tree.word "@" [t, u]) (ws ++ vs) := by
      obtain hoperand | habs := htail
      · exact recovers_of_chain (a := .whole) (hfunction.app hoperand) rfl
      · exact hfunction.app_abs habs
    refine recovers_enclosed hwhole fun hneeded => ?_
    rw [level_eq_whole hneeded hfollow]
    exact hwhole

theorem looseLets_app (t u : Tree Label) : looseLets (Tree.word "@" [t, u]) =
    (if isLet t then 1 else 0) + (if isLet u then 1 else 0) + looseLets t + looseLets u := by
  have hlabel : (Label.word "@").isWord "@" = true := rfl
  simp only [Tree.word, looseLets, looseLetsEach, hlabel, if_true, List.countP_cons,
    List.countP_nil]
  omega

theorem looseLets_other {r : String} (hr : r ≠ "@") (ts : List (Tree Label)) :
    looseLets (Tree.word r ts) = looseLetsEach ts := by
  have hlabel : (Label.word r).isWord "@" = false := by simpa [Label.isWord, Label.text?] using hr
  simp [Tree.word, looseLets, hlabel]

theorem looseLets_abs (b t : Tree Label) :
    looseLets (Tree.word "\\" [b, t]) = looseLets b + looseLets t := by
  simp [looseLets_other (r := "\\") (by decide), looseLetsEach]

theorem looseLets_let (b t u : Tree Label) :
    looseLets (Tree.word "let_" [markTree "let", b, markTree "=", t, markTree "in", u]) =
      looseLets b + looseLets t + looseLets u := by
  have hmarks : ∀ s ∈ ["let", "=", "in"], looseLets (markTree s) = 0 := by decide
  simp only [List.forall_mem_cons] at hmarks
  simp [looseLets_other (r := "let_") (by decide), looseLetsEach, hmarks, Nat.add_assoc]

/-- Where no local definition stands directly in an application, a term comes back from its
words. -/
theorem Written.recovers (h : Written p t ws) (hloose : looseLets t = 0)
    (hplace : p.parent = "@" → isLet t = false) : p.level.Recovers t ws := by
  induction h with
  | name hx =>
    exact recovers_of_operand (.level (by simp) (by decide) (recovers_name hx)) _
  | numeral hs =>
    exact recovers_of_operand (.level (by simp) (by decide) (recovers_numeral hs)) _
  | app _ _ iht ihu =>
    rw [looseLets_app] at hloose
    have hfunction := iht (by omega) fun _ => by
      by_contra hlet
      simp [hlet] at hloose
    have hargument := ihu (by omega) fun _ => by
      by_contra hlet
      simp [hlet] at hloose
    exact recovers_app hfunction hargument
  | abs hb _ ih =>
    rw [looseLets_abs] at hloose
    have hbody := ih (by omega) fun h => absurd h (by simp)
    have habs := Recovers.abs hb.recoversRow hbody
    exact recovers_enclosed (recovers_of_tail (a := .whole) habs rfl) fun hneeded =>
      recovers_of_tail habs (tail_fits_level hneeded)
  | @letIn p b t u ws vs us hb _ _ iht ihu =>
    rw [looseLets_let] at hloose
    have hwhole : p.level = .whole := by
      have hparent : p.parent ≠ "@" := by
        intro hparent
        have hlet : true = false := hplace hparent
        exact absurd hlet (by decide)
      simp [Position.level, hparent]
    have hvalue := iht (by omega) fun h => absurd h (by decide)
    have hbody := ihu (by omega) fun h => absurd h (by decide)
    rw [hwhole]
    exact .letIn hb hvalue hbody

/-- A text is read as the term that comes back from its words. -/
theorem parse_eq_of_recovers {text : String} (h : Recovers d "E" t (d.language.tokens text)) :
    d.parse text = .ok (some t) := by
  obtain ⟨e, he, hread⟩ := h
  obtain ⟨v, hderive, hv⟩ := exists_derivation he
  obtain ⟨n, hn, hparse⟩ := exists_parse_eq hderive
  have halike := alike_of_yields hv he fun w hw => plain_of_isToken (isToken_of_mem hw)
  rw [hparse, halike.condense_eq, hread n (halike.size_eq ▸ hn)]
  rfl

end Places

end WhileSketch.Lambda
