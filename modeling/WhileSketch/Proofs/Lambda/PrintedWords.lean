import Mathlib
import WhileSketch.Proofs.Lambda.RoundTrip

/-! The words of a typed term as it is printed. Brackets depend on the position of a part, but a
local definition never gets any. -/

namespace WhileSketch.Lambda

section Lexemes

variable {text text' s : String} {ws vs us : List Word}

theorem spells_keyword {d : Dialect} (hs : s ∈ keywords) : Spells d s [markWord s] := by
  intro rest hrest
  have hwords : ∀ s ∈ keywords, s.toList.head?.any Text.isNameStart = true ∧
      s.toList.all Text.isWordChar = true := by
    decide
  obtain ⟨hstart, hall⟩ := hwords s hs
  obtain ⟨more, hclasses⟩ := exists_classes d
  cases hcs : s.toList with
  | nil => simp [hcs] at hstart
  | cons c cs =>
    rw [hcs] at hstart hall
    have hfirst : Lexing.firstToken d.language.classes (c :: cs ++ rest) =
        some ((c :: cs).length, none) := by
      rw [hclasses, Lexing.firstToken_word (by simpa using hstart) (List.all_eq_true.mp hall) hrest,
        ← hcs, String.ofList_toList, if_pos (by simpa using hs)]
    rw [Lexing.words_append (by simp) hfirst, ← hcs, String.ofList_toList]
    rfl

theorem spells_sign (hs : s ∈ ["=", ":"]) : Spells .typed s [markWord s] := by
  intro rest _
  have hne : ∀ s ∈ ["=", ":"], s.toList ≠ [] := by decide
  have hfirst : Lexing.firstToken (Dialect.language .typed).classes (s.toList ++ rest) =
      some (s.toList.length, none) := by
    simp only [List.mem_cons, List.not_mem_nil, or_false] at hs
    obtain rfl | rfl := hs <;> rfl
  rw [Lexing.words_append (hne s hs) hfirst, String.ofList_toList]
  rfl

theorem Spells.annotated (h : Spells .typed text ws) (h' : Spells .typed text' vs) :
    Spells .typed (text ++ " : " ++ text') (ws ++ markWord ":" :: vs) := by
  have hall := (h.app (spells_sign (s := ":") (by simp))).app h'
  have htext : text ++ " " ++ ":" ++ " " ++ text' = text ++ " : " ++ text' := by
    simp only [String.append_assoc]
    rfl
  rwa [htext, List.append_assoc] at hall

theorem Spells.letIn {name value body : String} (hname : Spells .typed name ws)
    (hvalue : Spells .typed value vs) (hbody : Spells .typed body us) :
    Spells .typed ("let " ++ name ++ " = " ++ value ++ " in " ++ body)
      (markWord "let" :: (ws ++ markWord "=" :: (vs ++ markWord "in" :: us))) := by
  have hall := (spells_keyword (s := "let") (by decide)).app (hname.app
    ((spells_sign (s := "=") (by simp)).app (hvalue.app
      ((spells_keyword (s := "in") (by decide)).app hbody))))
  have htext : "let" ++ " " ++ (name ++ " " ++ ("=" ++ " " ++ (value ++ " " ++
      ("in" ++ " " ++ body)))) = "let " ++ name ++ " = " ++ value ++ " in " ++ body := by
    apply String.toList_inj.mp
    simp
  rwa [htext] at hall

end Lexemes

section Printing

/-- A parameter, without a type or with one that is a name. -/
inductive IsLegibleBinder : Tree Label → Prop
  | name {x : String} (hx : Dialect.keeps .typed x = true) : IsLegibleBinder (nameTree x)
  | annotated {x y : String} (hx : Dialect.keeps .typed x = true)
      (hy : Dialect.keeps .typed y = true) :
      IsLegibleBinder (Tree.word ":" [nameTree x, nameTree y])

/-- Names, numerals, applications, abstractions over one parameter each, and local definitions. -/
inductive IsLegible : Tree Label → Prop
  | name {x : String} (hx : Dialect.keeps .typed x = true) : IsLegible (nameTree x)
  | numeral {s : String} (hs : isNumeral s = true) : IsLegible (Tree.word "num" [Tree.word s []])
  | app {t u : Tree Label} (ht : IsLegible t) (hu : IsLegible u) : IsLegible (Tree.word "@" [t, u])
  | abs {b t : Tree Label} (hb : IsLegibleBinder b) (ht : IsLegible t) :
      IsLegible (Tree.word "\\" [b, t])
  | letIn {b t u : Tree Label} (hb : IsLegibleBinder b) (ht : IsLegible t) (hu : IsLegible u) :
      IsLegible (Tree.word "let_" [markTree "let", b, markTree "=", t, markTree "in", u])

inductive BinderWritten : Tree Label → List Word → Prop
  | name {x : String} (hx : Dialect.keeps .typed x = true) : BinderWritten (nameTree x) [nameWord x]
  | annotated {x y : String} (hx : Dialect.keeps .typed x = true)
      (hy : Dialect.keeps .typed y = true) :
      BinderWritten (Tree.word ":" [nameTree x, nameTree y]) [nameWord x, markWord ":", nameWord y]

def enclosedWords (needed : Bool) (ws : List Word) : List Word :=
  if needed then markWord "(" :: (ws ++ [markWord ")"]) else ws

/-- The words of a term at a position. -/
inductive Written : Position → Tree Label → List Word → Prop
  | name {p : Position} {x : String} (hx : Dialect.keeps .typed x = true) :
      Written p (nameTree x) [nameWord x]
  | numeral {p : Position} {s : String} (hs : isNumeral s = true) :
      Written p (Tree.word "num" [Tree.word s []]) [numeralWord s]
  | app {p : Position} {t u : Tree Label} {ws vs : List Word} (ht : Written ⟨"@", 0, "@"⟩ t ws)
      (hu : Written ⟨"@", 1, p.follow⟩ u vs) :
      Written p (Tree.word "@" [t, u])
        (enclosedWords (p.parent == "@" && p.index == 1) (ws ++ vs))
  | abs {p : Position} {b t : Tree Label} {ws vs : List Word} (hb : BinderWritten b ws)
      (ht : Written ⟨"\\", 1, p.follow⟩ t vs) :
      Written p (Tree.word "\\" [b, t])
        (enclosedWords (p.parent == "@" && (p.index == 0 || p.follow == "@"))
          (markWord "\\" :: (ws ++ markWord "." :: vs)))
  | letIn {p : Position} {b t u : Tree Label} {ws vs us : List Word} (hb : BinderWritten b ws)
      (ht : Written .top t vs) (hu : Written .top u us) :
      Written p (Tree.word "let_" [markTree "let", b, markTree "=", t, markTree "in", u])
        (markWord "let" :: (ws ++ markWord "=" :: (vs ++ markWord "in" :: us)))

variable {p : Position} {b t u : Tree Label} {name value body : String} {ws : List Word}

theorem printAt_let (hb : printAt .typed .top b = .ok (.word name))
    (ht : printAt .typed .top t = .ok (.word value))
    (hu : printAt .typed .top u = .ok (.word body)) :
    printAt .typed p (Tree.word "let_" [markTree "let", b, markTree "=", t, markTree "in", u]) =
      .ok (.word ("let " ++ name ++ " = " ++ value ++ " in " ++ body)) := by
  have hall : printAt .typed p
      (Tree.word "let_" [markTree "let", b, markTree "=", t, markTree "in", u]) = do
        let name ← printAt .typed .top b
        let value ← printAt .typed .top t
        let body ← printAt .typed .top u
        return .word ("let " ++ name.plain ++ " = " ++ value.plain ++ " in " ++ body.plain) :=
    rfl
  rw [hall, hb, ht, hu]
  rfl

theorem Spells.enclosed {d : Dialect} {text : String} (h : Spells d text ws) (needed : Bool) :
    Spells d (enclosed needed text) (enclosedWords needed ws) := by
  cases needed with
  | false => exact h
  | true => exact h.brackets

theorem IsLegibleBinder.written (h : IsLegibleBinder b) (p : Position) :
    ∃ text ws, printAt .typed p b = .ok (.word text) ∧ Spells .typed text ws ∧
      BinderWritten b ws := by
  cases h with
  | @name x hx => exact ⟨x, _, rfl, spells_name (keeps_iff.mp hx).1, .name hx⟩
  | @annotated x y hx hy =>
    refine ⟨x ++ " : " ++ y, _, ?_, (spells_name (keeps_iff.mp hx).1).annotated
      (spells_name (keeps_iff.mp hy).1), .annotated hx hy⟩
    have hname : ∀ q x, printAt .typed q (nameTree x) = .ok (.word x) := fun _ _ => rfl
    rw [printAt_parts (l := ⟨"", " : ", ""⟩) (by decide) rfl (hname _ x) (hname _ y)]
    simp [Layout.fill, Label.plain]

/-- A term is printed, at each position, as the text of its words. -/
theorem IsLegible.written (h : IsLegible t) (p : Position) :
    ∃ text ws, printAt .typed p t = .ok (.word text) ∧ Spells .typed text ws ∧ Written p t ws := by
  induction h generalizing p with
  | @name x hx => exact ⟨x, _, rfl, spells_name (keeps_iff.mp hx).1, .name hx⟩
  | @numeral s hs => exact ⟨s, _, rfl, spells_numeral hs, .numeral hs⟩
  | app _ _ iht ihu =>
    obtain ⟨a, ws, ha, haw, hws⟩ := iht ⟨"@", 0, "@"⟩
    obtain ⟨b, vs, hb, hbw, hvs⟩ := ihu ⟨"@", 1, p.follow⟩
    exact ⟨_, _, printAt_app ha hb, (haw.app hbw).enclosed _, .app hws hvs⟩
  | abs hb _ ih =>
    obtain ⟨a, ws, ha, haw, hws⟩ := hb.written ⟨"\\", 0, "\\"⟩
    obtain ⟨b, vs, hb, hbw, hvs⟩ := ih ⟨"\\", 1, p.follow⟩
    exact ⟨_, _, printAt_abs ha hb, (haw.abs hbw).enclosed _, .abs hws hvs⟩
  | letIn hb _ _ iht ihu =>
    obtain ⟨a, ws, ha, haw, hws⟩ := hb.written .top
    obtain ⟨b, vs, hb, hbw, hvs⟩ := iht .top
    obtain ⟨c, us, hc, hcw, hus⟩ := ihu .top
    exact ⟨_, _, printAt_let ha hb hc, haw.letIn hbw hcw, .letIn hws hvs hus⟩

end Printing

end WhileSketch.Lambda
