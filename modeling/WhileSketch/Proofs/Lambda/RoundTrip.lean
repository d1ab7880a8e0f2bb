import Mathlib
import WhileSketch.Proofs.Lambda.Parsing

/-! Terms that are printed and read again. The position of a part decides about its brackets, which
are enough for the part to be read at the level of that position. -/

namespace WhileSketch.Lambda

variable {d : Dialect}

section Lexemes

def keywords : List String :=
  ["let", "in"]

/-- Word characters, of which the first is no digit, that are no keyword. -/
def isName (x : String) : Bool :=
  x.toList.head?.any Text.isNameStart && x.toList.all Text.isWordChar && !keywords.contains x

def isNumeral (s : String) : Bool :=
  !s.toList.isEmpty && s.toList.all Text.isDigit

/-- The words of a text, in front of any other that does not go on with a word character. -/
def Spells (d : Dialect) (text : String) (ws : List Word) : Prop :=
  ∀ rest, Lexing.Clear rest → Lexing.words d.language.classes (text.toList ++ rest) =
    ws ++ Lexing.words d.language.classes rest

variable {text text' x s : String} {ws vs : List Word}

theorem Spells.tokens_eq (h : Spells d text ws) : d.language.tokens text = ws := by
  have hall := h [] Lexing.clear_nil
  rw [List.append_nil, Lexing.words_nil, List.append_nil] at hall
  exact hall

theorem exists_classes (d : Dialect) : ∃ more, d.language.classes =
    ⟨.keyword keywords, none⟩ :: ⟨.name, some "id"⟩ :: ⟨.numeral false, some "num"⟩ :: more := by
  cases d <;> exact ⟨_, rfl⟩

theorem spells_name (hx : isName x = true) : Spells d x [nameWord x] := by
  intro rest hrest
  simp only [isName, Bool.and_eq_true, Bool.not_eq_true'] at hx
  obtain ⟨⟨hstart, hall⟩, hkey⟩ := hx
  obtain ⟨more, hclasses⟩ := exists_classes d
  cases hcs : x.toList with
  | nil => simp [hcs] at hstart
  | cons c cs =>
    rw [hcs] at hstart hall
    have hfirst : Lexing.firstToken d.language.classes (c :: cs ++ rest) =
        some ((c :: cs).length, some "id") := by
      rw [hclasses, Lexing.firstToken_word (by simpa using hstart) (List.all_eq_true.mp hall) hrest,
        ← hcs, String.ofList_toList, hkey]
      rfl
    rw [Lexing.words_append (by simp) hfirst, ← hcs, String.ofList_toList]
    rfl

theorem spells_numeral (hs : isNumeral s = true) : Spells d s [numeralWord s] := by
  intro rest hrest
  simp only [isNumeral, Bool.and_eq_true, Bool.not_eq_true'] at hs
  obtain ⟨hne, hall⟩ := hs
  obtain ⟨more, hclasses⟩ := exists_classes d
  cases hcs : s.toList with
  | nil => simp [hcs] at hne
  | cons c cs =>
    rw [hcs] at hall
    have hfirst : Lexing.firstToken d.language.classes (c :: cs ++ rest) =
        some ((c :: cs).length, some "num") := by
      rw [hclasses]
      exact Lexing.firstToken_digits (by decide) (List.all_eq_true.mp hall)
        (Lexing.not_isDigit_of_clear hrest)
    rw [Lexing.words_append (by simp) hfirst, ← hcs, String.ofList_toList]
    rfl

theorem words_mark (hs : s ∈ ["\\", ".", "(", ")"]) (rest : List Char) :
    Lexing.words d.language.classes (s.toList ++ rest) =
      markWord s :: Lexing.words d.language.classes rest := by
  have hne : ∀ s ∈ ["\\", ".", "(", ")"], s.toList ≠ [] := by decide
  have hfirst : Lexing.firstToken d.language.classes (s.toList ++ rest) =
      some (s.toList.length, none) := by
    simp only [List.mem_cons, List.not_mem_nil, or_false] at hs
    cases d <;> obtain rfl | rfl | rfl | rfl := hs <;> rfl
  rw [Lexing.words_append (hne s hs) hfirst, String.ofList_toList]
  rfl

theorem words_blank (rest : List Char) :
    Lexing.words d.language.classes (' ' :: rest) = Lexing.words d.language.classes rest := by
  have hnone : Lexing.firstToken d.language.classes (' ' :: rest) = none := by
    cases d <;> rfl
  exact Lexing.words_of_none hnone

theorem Spells.app (h : Spells d text ws) (h' : Spells d text' vs) :
    Spells d (text ++ " " ++ text') (ws ++ vs) := by
  intro rest hrest
  have hchars : (text ++ " " ++ text').toList ++ rest =
      text.toList ++ ' ' :: (text'.toList ++ rest) := by
    simp
  rw [hchars, h _ (Lexing.clear_cons rfl), words_blank, h' rest hrest, List.append_assoc]

theorem Spells.abs (h : Spells d text ws) (h' : Spells d text' vs) :
    Spells d ("\\" ++ text ++ ". " ++ text') (markWord "\\" :: (ws ++ markWord "." :: vs)) := by
  intro rest hrest
  have hchars : ("\\" ++ text ++ ". " ++ text').toList ++ rest =
      "\\".toList ++ (text.toList ++ (".".toList ++ ' ' :: (text'.toList ++ rest))) := by
    simp
  have hclear : ∀ cs, Lexing.Clear (".".toList ++ cs) := fun cs => Lexing.clear_cons rfl
  rw [hchars, words_mark (by simp), h _ (hclear _), words_mark (by simp), words_blank,
    h' rest hrest]
  simp

theorem Spells.brackets (h : Spells d text ws) :
    Spells d ("(" ++ text ++ ")") (markWord "(" :: (ws ++ [markWord ")"])) := by
  intro rest hrest
  have hchars : ("(" ++ text ++ ")").toList ++ rest =
      "(".toList ++ (text.toList ++ (")".toList ++ rest)) := by
    simp
  have hclear : ∀ cs, Lexing.Clear (")".toList ++ cs) := fun cs => Lexing.clear_cons rfl
  rw [hchars, words_mark (by simp), h _ (hclear _), words_mark (by simp)]
  simp

end Lexemes

section Printing

/-- The level at which a term is read where it is printed. -/
def Position.level (p : Position) : Level :=
  if p.parent = "@" ∧ p.index = 0 ∧ p.follow = "@" then .chain
  else if p.parent = "@" ∧ p.index = 1 then if p.follow = "@" then .operand else .tail
  else .whole

def Dialect.keeps (d : Dialect) (x : String) : Bool :=
  isName x && !d.unread.contains x && !d.dotted.contains x

/-- Names, numerals, applications, and abstractions over one name each. -/
inductive IsPlain (d : Dialect) : Tree Label → Prop
  | name {x : String} (hx : d.keeps x = true) : IsPlain d (nameTree x)
  | numeral {s : String} (hs : isNumeral s = true) : IsPlain d (Tree.word "num" [Tree.word s []])
  | app {t u : Tree Label} (ht : IsPlain d t) (hu : IsPlain d u) : IsPlain d (Tree.word "@" [t, u])
  | abs {x : String} {t : Tree Label} (hx : d.keeps x = true) (ht : IsPlain d t) :
      IsPlain d (Tree.word "\\" [nameTree x, t])

variable {t u : Tree Label} {p : Position} {a b x : String} {ws : List Word}

def enclosed (needed : Bool) (text : String) : String :=
  if needed then "(" ++ text ++ ")" else text

theorem fill_bracketed (l : Layout) (needed : Bool) (a b : String) :
    (l.bracketed needed).fill [.word a, .word b] =
      .ok (.word (enclosed needed (l.before ++ a ++ l.between ++ b ++ l.after))) := by
  cases needed with
  | false => rfl
  | true => simp [Layout.bracketed, Layout.fill, enclosed, Label.plain, String.append_assoc]

theorem printAt_parts {r : String} {l : Layout} {first second : Label} (hr : r ∉ ["id", "num"])
    (hl : layout? d p (.word r) = some l) (hfirst : printAt d ⟨r, 0, r⟩ t = .ok first)
    (hsecond : printAt d ⟨r, 1, p.follow⟩ u = .ok second) :
    printAt d p (Tree.word r [t, u]) = l.fill [first, second] := by
  have hleaf : ((Label.word r).isWord "id" || (Label.word r).isWord "num") = false := by
    simpa [Label.isWord, Label.text?] using hr
  have hparts : printParts d r p.follow 0 [t, u] = .ok [first, second] := by
    have hall : printParts d r p.follow 0 [t, u] = do
        let a ← printAt d ⟨r, 0, r⟩ t
        let b ← printAt d ⟨r, 1, p.follow⟩ u
        return [a, b] := by
      simp only [printParts, bind_assoc, pure_bind]
      rfl
    rw [hall, hfirst, hsecond]
    rfl
  rw [Tree.word, printAt, hleaf]
  simp only [hl, Label.plain, hparts, Bool.false_eq_true, if_false]
  rfl

theorem printAt_app (ha : printAt d ⟨"@", 0, "@"⟩ t = .ok (.word a))
    (hb : printAt d ⟨"@", 1, p.follow⟩ u = .ok (.word b)) :
    printAt d p (Tree.word "@" [t, u]) =
      .ok (.word (enclosed (p.parent == "@" && p.index == 1) (a ++ " " ++ b))) := by
  rw [printAt_parts (by decide) rfl ha hb, fill_bracketed]
  simp

theorem printAt_abs (ha : printAt d ⟨"\\", 0, "\\"⟩ t = .ok (.word a))
    (hb : printAt d ⟨"\\", 1, p.follow⟩ u = .ok (.word b)) :
    printAt d p (Tree.word "\\" [t, u]) =
      .ok (.word (enclosed (p.parent == "@" && (p.index == 0 || p.follow == "@"))
        ("\\" ++ a ++ ". " ++ b))) := by
  rw [printAt_parts (by decide) rfl ha hb, fill_bracketed]
  simp

/-- A term is printed so that it is read at the level of its position. -/
def PrintsAt (d : Dialect) (p : Position) (t : Tree Label) : Prop :=
  ∃ text ws, printAt d p t = .ok (.word text) ∧ Spells d text ws ∧ p.level.Reads d t ws ∧
    ws.any d.isUnread = false

/-- Brackets make a term fit everywhere. Without them it has to fit by itself. -/
theorem printsAt_enclosed {needed : Bool} {text : String}
    (hprint : printAt d p t = .ok (.word (enclosed needed text))) (hspells : Spells d text ws)
    (hwhole : ReadsOn d none t ws) (hbare : needed = false → p.level.Reads d t ws)
    (hlegible : ws.any d.isUnread = false) : PrintsAt d p t := by
  cases needed with
  | false => exact ⟨text, ws, hprint, hspells, hbare rfl, hlegible⟩
  | true =>
    refine ⟨_, _, hprint, hspells.brackets, (reads_brackets hwhole).fit rfl, ?_⟩
    simp [hlegible, isUnread_markWord (show "(" ∈ marks by decide),
      isUnread_markWord (show ")" ∈ marks by decide)]

theorem keeps_iff : d.keeps x = true ↔ isName x = true ∧ x ∉ d.unread ∧ x ∉ d.dotted := by
  simp [Dialect.keeps, and_assoc]

theorem isUnread_nameWord (hx : d.keeps x = true) : d.isUnread (nameWord x) = false := by
  simp [Dialect.isUnread, nameWord, (keeps_iff.mp hx).2.1]

theorem shown_eq (hx : d.keeps x = true) : d.shown x = x :=
  if_neg (keeps_iff.mp hx).2.2

/-! An application or an abstraction without brackets fits where it stands. -/

theorem chain_fits_level (h : (p.parent == "@" && p.index == 1) = false) :
    Level.chain.fits p.level = true := by
  unfold Position.level
  split_ifs with hfirst hsecond hfollow
  · rfl
  · simp [hsecond] at h
  · simp [hsecond] at h
  · rfl

theorem level_eq_whole (h : (p.parent == "@" && p.index == 1) = false) (hfollow : p.follow ≠ "@") :
    p.level = .whole := by
  unfold Position.level
  rw [if_neg (by simp [hfollow]), if_neg (by simpa using h)]

theorem tail_fits_level (h : (p.parent == "@" && (p.index == 0 || p.follow == "@")) = false) :
    Level.tail.fits p.level = true := by
  unfold Position.level
  split_ifs with hfirst hsecond hfollow
  · simp [hfirst] at h
  · simp [hsecond, hfollow] at h
  · rfl
  · rfl

theorem printsAt_app (ht : PrintsAt d ⟨"@", 0, "@"⟩ t) (hu : PrintsAt d ⟨"@", 1, p.follow⟩ u) :
    PrintsAt d p (Tree.word "@" [t, u]) := by
  obtain ⟨a, ws, ha, haw, hat, hws⟩ := ht
  obtain ⟨b, vs, hb, hbw, hbu, hvs⟩ := hu
  have hlegible : (ws ++ vs).any d.isUnread = false := by
    rw [List.any_append, hws, hvs]
    rfl
  by_cases hfollow : p.follow = "@"
  · have hoperand : Level.operand.Reads d u vs := by
      simpa [Position.level, hfollow] using hbu
    have hchain := reads_app hat hoperand
    exact printsAt_enclosed (printAt_app ha hb) (haw.app hbw) hchain.whole
      (fun hneeded => hchain.fit (chain_fits_level hneeded)) hlegible
  · have htail : Level.tail.Reads d u vs := by
      simpa [Position.level, hfollow] using hbu
    have hwhole := reads_app_tail hat htail
    refine printsAt_enclosed (printAt_app ha hb) (haw.app hbw) hwhole (fun hneeded => ?_) hlegible
    rw [level_eq_whole hneeded hfollow]
    exact hwhole

theorem printsAt_abs (hx : d.keeps x = true) (ht : PrintsAt d ⟨"\\", 1, p.follow⟩ t) :
    PrintsAt d p (Tree.word "\\" [nameTree x, t]) := by
  obtain ⟨b, vs, hb, hbw, hbt, hvs⟩ := ht
  have hbinder : BindersRead d [nameTree x] [nameWord x] := by
    simpa only [shown_eq hx] using BindersRead.name (d := d) x .nil
  have htail := reads_abs hbinder hbt.whole
  have hlegible :
      (markWord "\\" :: ([nameWord x] ++ markWord "." :: vs)).any d.isUnread = false := by
    simp [hvs, isUnread_nameWord hx, isUnread_markWord (show "\\" ∈ marks by decide),
      isUnread_markWord (show "." ∈ marks by decide)]
  exact printsAt_enclosed (printAt_abs rfl hb) ((spells_name (keeps_iff.mp hx).1).abs hbw)
    htail.whole (fun hneeded => htail.fit (tail_fits_level hneeded)) hlegible

/-- The parts of a term are printed at the positions that the term gives them. -/
theorem IsPlain.printsAt (h : IsPlain d t) (p : Position) : PrintsAt d p t := by
  induction h generalizing p with
  | @name x hx =>
    refine ⟨x, [nameWord x], rfl, spells_name (keeps_iff.mp hx).1, ?_, ?_⟩
    · have hreads := reads_name (d := d) x
      rw [shown_eq hx] at hreads
      exact hreads.fit rfl
    · simp [isUnread_nameWord hx]
  | @numeral s hs =>
    exact ⟨s, [numeralWord s], rfl, spells_numeral hs, (reads_numeral s).fit rfl, rfl⟩
  | app _ _ iht ihu => exact printsAt_app (iht _) (ihu _)
  | abs hx _ ih => exact printsAt_abs hx (ih _)

end Printing

section Deriving

def Derives (d : Dialect) (x : String) (ws : List Word) : Prop :=
  ∃ t, Yields d.rules x t ws

def DerivesAll (d : Dialect) (xs : List String) (ws : List Word) : Prop :=
  ∃ ts, YieldsAll d.rules xs ts ws

variable {x : String} {xs rhs : List String} {ws vs : List Word} {t : Tree Label}

theorem Derives.of_rule (hr : ⟨x, rhs⟩ ∈ d.rules) (h : DerivesAll d rhs ws) : Derives d x ws := by
  obtain ⟨ts, hts⟩ := h
  exact ⟨_, .rule hr hts⟩

theorem DerivesAll.cons (h : Derives d x ws) (hs : DerivesAll d xs vs) :
    DerivesAll d (x :: xs) (ws ++ vs) := by
  obtain ⟨t, ht⟩ := h
  obtain ⟨ts, hts⟩ := hs
  exact ⟨t :: ts, .cons ht hts⟩

theorem DerivesAll.nil : DerivesAll d [] [] :=
  ⟨[], .nil⟩

theorem DerivesAll.one (h : Derives d x ws) : DerivesAll d [x] ws := by
  simpa using DerivesAll.cons h .nil

theorem derives_word {w : Word} (h : x ∈ w.tags) : Derives d x [w] :=
  ⟨_, .word h⟩

theorem derives_mark (s : String) : Derives d s [markWord s] :=
  derives_word (by simp)

/-- What comes behind the words of a function, if there is one, completes a term. -/
def Completes (f : Option (Tree Label)) (ws : List Word) : Prop :=
  f.elim (Derives .pure "E" ws) fun _ =>
    ∀ us, Derives .pure "E1" us → Derives .pure "E" (us ++ ws)

theorem Completes.of_operand {f : Option (Tree Label)} {g : Tree Label}
    (hvs : Derives .pure "E0" vs) (h : Completes (some g) ws) : Completes f (vs ++ ws) := by
  cases f with
  | none =>
    exact h vs (.of_rule (by decide) (.one hvs))
  | some f =>
    intro us hus
    have happ : Derives .pure "@" (us ++ vs) := .of_rule (by decide) (.cons hus (.one hvs))
    rw [← List.append_assoc]
    exact h (us ++ vs) (.of_rule (by decide) (.one happ))

theorem BindersRead.names {bs : List (Tree Label)} (h : BindersRead .pure bs ws) :
    ∃ xs : List String, ws = xs.map nameWord ∧
      bs = xs.map fun x => nameTree (Dialect.shown .pure x) := by
  induction h with
  | nil => exact ⟨[], rfl, rfl⟩
  | name x _ ih =>
    obtain ⟨xs, rfl, rfl⟩ := ih
    exact ⟨x :: xs, rfl, rfl⟩
  | last hd => cases hd
  | group hd => cases hd

theorem derives_names (xs : List String) : Derives d "L" (xs.map nameWord) := by
  have hrules : ⟨"L", ["id", "L"]⟩ ∈ d.rules ∧ ⟨"L", []⟩ ∈ d.rules := by cases d <;> decide
  induction xs with
  | nil => exact .of_rule hrules.2 .nil
  | cons x xs ih =>
    exact .of_rule hrules.1 (.cons (derives_word (w := nameWord x) (by simp)) (.one ih))

/-- The rules allow all words that are read from left to right. -/
theorem ReadsOn.completes {f : Option (Tree Label)} (h : ReadsOn .pure f t ws) :
    Completes f ws := by
  induction h with
  | done f =>
    intro us hus
    rw [List.append_nil]
    exact .of_rule (by decide) (.one hus)
  | name x _ ih =>
    have hname : Derives .pure "id" [nameWord x] := derives_word (by simp)
    exact .of_operand (.of_rule (by decide) (.one hname)) ih
  | numeral s _ ih =>
    have hnumeral : Derives .pure "num" [numeralWord s] := derives_word (by simp)
    exact .of_operand (.of_rule (by decide) (.one hnumeral)) ih
  | @brackets f t u ws vs _ _ ihu ih =>
    have hbrackets : Derives .pure "E0" ([markWord "("] ++ (vs ++ [markWord ")"])) :=
      .of_rule (by decide) (.cons (derives_mark "(") (.cons ihu (.one (derives_mark ")"))))
    simpa using Completes.of_operand hbrackets ih
  | @abs bs t ws vs f hb _ ih =>
    obtain ⟨xs, rfl, -⟩ := hb.names
    have habs : Derives .pure "\\."
        ([markWord "\\"] ++ (xs.map nameWord ++ ([markWord "."] ++ vs))) :=
      .of_rule (by decide) (.cons (derives_mark "\\") (.cons (derives_names xs)
        (.cons (derives_mark ".") (.one ih))))
    cases f with
    | none => exact .of_rule (by decide) (.one habs)
    | some f =>
      intro us hus
      have happ : Derives .pure "@'" (us ++ _) := .of_rule (by decide) (.cons hus (.one habs))
      have hlevel : Derives .pure "E1'" _ := .of_rule (by decide) (.one happ)
      exact .of_rule (by decide) (.one hlevel)
  | @letIn b t u ws vs us hb _ _ iht ihu =>
    obtain ⟨xs, rfl, hbs⟩ := hb.names
    obtain ⟨x, rfl⟩ : ∃ x, xs = [x] := by
      have hlength := congrArg List.length hbs
      rw [List.length_map] at hlength
      exact List.length_eq_one_iff.mp hlength.symm
    have hname : Derives .pure "id" [nameWord x] := derives_word (by simp)
    have hlet : Derives .pure "let_"
        ([markWord "let"] ++ ([nameWord x] ++ ([markWord "="] ++ (vs ++ ([markWord "in"] ++ us))))) :=
      .of_rule (by decide) (.cons (derives_mark "let") (.cons hname (.cons (derives_mark "=")
        (.cons iht (.cons (derives_mark "in") (.one ihu))))))
    exact .of_rule (by decide) (.one hlet)

theorem BindersRead.unique {bs bs' : List (Tree Label)} (h : BindersRead .pure bs ws)
    (h' : BindersRead .pure bs' ws) : bs = bs' := by
  obtain ⟨xs, rfl, rfl⟩ := h.names
  obtain ⟨xs', hwords, rfl⟩ := h'.names
  have hinjective : Function.Injective nameWord := fun x y hxy => congrArg Word.text hxy
  rw [List.map_injective_iff.mpr hinjective hwords]

/-- Words of terms without types are read as one term. -/
theorem parse_eq_of_readsOn {text : String}
    (h : ReadsOn .pure none t (Pure.language.tokens text)) :
    Pure.parse text = Dialect.reading .pure (Pure.language.tokens text) (some t) := by
  obtain ⟨e, he⟩ := h.completes
  obtain ⟨u, hparse, hu⟩ := exists_parse_readsOn (d := .pure) he
  obtain ⟨rfl, -⟩ := h.unique BindersRead.unique hu rfl stops_nil stops_nil
  exact hparse

end Deriving

/-- Names, numerals, applications and abstractions are printed as a text that is read as the same
term. -/
theorem parse_print_of_isPlain {t : Tree Label} (h : IsPlain .pure t) :
    ∃ text, print .pure t = .ok (.word text) ∧ Pure.parse text = .ok (some t) := by
  obtain ⟨text, ws, hprint, hspells, hreads, hlegible⟩ := h.printsAt .top
  have htokens : Pure.language.tokens text = ws := hspells.tokens_eq
  refine ⟨text, hprint, ?_⟩
  rw [parse_eq_of_readsOn (htokens ▸ hreads.whole), htokens, Dialect.reading, hlegible]
  rfl

def spine : Tree Label :=
  Tree.word "@" [
    Tree.word "@" [
      Tree.word "\\" [nameTree "f",
        Tree.word "@" [
          Tree.word "@" [nameTree "f", Tree.word "\\" [nameTree "x", nameTree "x"]],
          Tree.word "num" [Tree.word "7" []]]],
      nameTree "g"],
    Tree.word "\\" [nameTree "y",
      Tree.word "@" [nameTree "y", Tree.word "@" [nameTree "z", nameTree "y"]]]]

theorem parse_print_spine : IsPlain .pure spine ∧
    print .pure spine = .ok (.word "(\\f. f (\\x. x) 7) g \\y. y (z y)") ∧
    Pure.parse "(\\f. f (\\x. x) 7) g \\y. y (z y)" = .ok (some spine) := by
  have hplain : IsPlain .pure spine := by
    refine .app (.app (.abs ?_ (.app (.app (.name ?_) (.abs ?_ (.name ?_))) (.numeral ?_)))
      (.name ?_)) (.abs ?_ (.app (.name ?_) (.app (.name ?_) (.name ?_)))) <;> decide
  have hprint : print .pure spine = .ok (.word "(\\f. f (\\x. x) 7) g \\y. y (z y)") :=
    rfl
  obtain ⟨text, htext, hparse⟩ := parse_print_of_isPlain hplain
  rw [hprint, Except.ok.injEq, Label.word.injEq] at htext
  subst htext
  exact ⟨hplain, hprint, hparse⟩

end WhileSketch.Lambda
