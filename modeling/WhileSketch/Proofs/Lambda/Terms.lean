import Mathlib
import WhileSketch.Lambda.Printing
import WhileSketch.Lexing.Token

/-! The terms that the readers of both dialects give for a row of tokens, and what the tokens alone
tell about them: the names and numerals in a term, and whether it is well formed. -/

namespace WhileSketch.Lambda

deriving instance DecidableEq for Word

section Tokens

def markWord (s : String) : Word :=
  ⟨s, [s]⟩

def nameWord (x : String) : Word :=
  ⟨x, ["id"]⟩

def numeralWord (s : String) : Word :=
  ⟨s, ["num"]⟩

@[simp] theorem tags_markWord (s : String) : (markWord s).tags = [s] :=
  rfl

@[simp] theorem tags_nameWord (x : String) : (nameWord x).tags = ["id"] :=
  rfl

@[simp] theorem tags_numeralWord (s : String) : (numeralWord s).tags = ["num"] :=
  rfl

/-- How deep in brackets of a type a text is behind a word, where types go from a colon to a dot, an
equals sign or a bracket that is not theirs. Outside types there is no depth. -/
def depthAfter : Option Nat → Word → Option Nat
  | none, w => if w.tags = [":"] then some 0 else none
  | some n, w =>
    if w.tags = ["("] then some (n + 1)
    else if w.tags = [")"] then if n = 0 then none else some (n - 1)
    else if w.tags = ["."] ∨ w.tags = ["="] then none
    else some n

/-- The words outside types, from the given depth on. -/
def outside (depth : Option Nat) : List Word → List Word
  | [] => []
  | w :: ws =>
    if (depthAfter depth w).isNone then w :: outside (depthAfter depth w) ws
    else outside (depthAfter depth w) ws

/-- There is a name between each backslash and the next dot. -/
def bindsNames : List Word → Bool
  | [] => true
  | w :: ws =>
    (w.tags != ["\\"] || (ws.takeWhile (·.tags != ["."])).any (·.tags == ["id"])) && bindsNames ws

def wordAtoms (ws : List Word) : List Word :=
  ws.filter fun w => w.tags == ["id"] || w.tags == ["num"]

theorem outside_append (depth : Option Nat) (ws vs : List Word) :
    outside depth (ws ++ vs) = outside depth ws ++ outside (ws.foldl depthAfter depth) vs := by
  induction ws generalizing depth with
  | nil => rfl
  | cons w ws ih =>
    rw [List.cons_append, outside, outside, ih, List.foldl_cons]
    split_ifs <;> rfl

@[simp] theorem wordAtoms_append (ws vs : List Word) :
    wordAtoms (ws ++ vs) = wordAtoms ws ++ wordAtoms vs :=
  List.filter_append ws vs

theorem bindsNames_append {ws : List Word} (h : ∀ w ∈ ws, w.tags ≠ ["\\"]) (vs : List Word) :
    bindsNames (ws ++ vs) = bindsNames vs := by
  induction ws with
  | nil => rfl
  | cons w ws ih =>
    obtain ⟨hw, hws⟩ := List.forall_mem_cons.mp h
    rw [List.cons_append, bindsNames, ih hws]
    simp [hw]

theorem bindsNames_mark {s : String} (hs : s ≠ "\\") (ws : List Word) :
    bindsNames (markWord s :: ws) = bindsNames ws := by
  have hone : ∀ w ∈ [markWord s], w.tags ≠ ["\\"] := by simpa using hs
  exact bindsNames_append hone ws

theorem bindsNames_abstraction {ws : List Word} (h : ∀ w ∈ ws, w.tags ≠ ["\\"] ∧ w.tags ≠ ["."])
    (vs : List Word) :
    bindsNames (markWord "\\" :: (ws ++ markWord "." :: vs)) =
      (ws.any (·.tags == ["id"]) && bindsNames vs) := by
  have hbar : (ws ++ markWord "." :: vs).takeWhile (·.tags != ["."]) = ws := by
    rw [List.takeWhile_append_of_pos (by simpa using fun w hw => (h w hw).2)]
    simp
  rw [bindsNames, hbar, bindsNames_append (fun w hw => (h w hw).1), bindsNames_mark (by decide)]
  simp

end Tokens

section Trees

def nameTree (x : String) : Tree Label :=
  Tree.word "id" [Tree.word x []]

def markTree (s : String) : Tree Label :=
  Tree.word s [Tree.word s []]

inductive IsType : Tree Label → Prop
  | name (x : String) : IsType (nameTree x)
  | arrow {t u : Tree Label} (ht : IsType t) (hu : IsType u) : IsType (Tree.word "->" [t, u])

/-- A name, in terms with types also one to which a type is given. -/
inductive IsBinder : Dialect → Tree Label → Prop
  | name (d : Dialect) (x : String) : IsBinder d (nameTree x)
  | annotated {t : Tree Label} (x : String) (ht : IsType t) :
      IsBinder .typed (Tree.word ":" [nameTree x, t])

inductive IsTerm (d : Dialect) : Tree Label → Prop
  | name (x : String) : IsTerm d (nameTree x)
  | numeral (s : String) : IsTerm d (Tree.word "num" [Tree.word s []])
  | app {t u : Tree Label} (ht : IsTerm d t) (hu : IsTerm d u) : IsTerm d (Tree.word "@" [t, u])
  | abs {b t : Tree Label} (hb : IsBinder d b) (ht : IsTerm d t) : IsTerm d (Tree.word "\\" [b, t])
  | letIn {b t u : Tree Label} (hb : IsBinder d b) (ht : IsTerm d t) (hu : IsTerm d u) :
      IsTerm d (Tree.word "let_" [markTree "let", b, markTree "=", t, markTree "in", u])

mutual

/-- The names and numerals in a term, from left to right and without those in types. -/
def atoms : Tree Label → List Word
  | .node r ts =>
    if r.isWord "id" || r.isWord "num" then ts.map fun t => ⟨t.root.plain, [r.plain]⟩
    else if r.isWord ":" then atomsOfFirst ts
    else atomsEach ts

def atomsOfFirst : List (Tree Label) → List Word
  | [] => []
  | t :: _ => atoms t

def atomsEach : List (Tree Label) → List Word
  | [] => []
  | t :: ts => atoms t ++ atomsEach ts

end

end Trees

/-- The names that cannot be read, since something is looked up below a node that is called so. -/
def Dialect.unread : Dialect → List String
  | .pure => ["E0"]
  | .typed => ["E0", "T1", "A1"]

/-- The names that are taken for a row of parameters and come out as a dot. -/
def Dialect.dotted : Dialect → List String
  | .pure => ["L"]
  | .typed => ["L", "A0"]

namespace Dialect

variable (d : Dialect)

def shown (x : String) : String :=
  if x ∈ d.dotted then "." else x

def shownWord (w : Word) : Word :=
  if w.tags = ["id"] then nameWord (d.shown w.text) else w

def isUnread (w : Word) : Bool :=
  w.tags == ["id"] && d.unread.contains w.text

end Dialect

section Readings

variable (d : Dialect)

inductive TypeReads : Tree Label → List Word → Prop
  | name (x : String) : TypeReads (nameTree (d.shown x)) [nameWord x]
  | brackets {t : Tree Label} {ws : List Word} (h : TypeReads t ws) :
      TypeReads t (markWord "(" :: (ws ++ [markWord ")"]))
  | arrow {t u : Tree Label} {ws vs : List Word} (ht : TypeReads t ws) (hu : TypeReads u vs) :
      TypeReads (Tree.word "->" [t, u]) (ws ++ markWord "->" :: vs)

def annotated (t : Tree Label) (xs : List String) : List (Tree Label) :=
  xs.map fun x => Tree.word ":" [nameTree (d.shown x), t]

inductive BindersRead : List (Tree Label) → List Word → Prop
  | nil : BindersRead [] []
  | name {bs : List (Tree Label)} {ws : List Word} (x : String) (h : BindersRead bs ws) :
      BindersRead (nameTree (d.shown x) :: bs) (nameWord x :: ws)
  | last {t : Tree Label} {ws : List Word} (hd : d = .typed) (xs : List String)
      (ht : TypeReads d t ws) :
      BindersRead (annotated d t xs) (xs.map nameWord ++ markWord ":" :: ws)
  | group {t : Tree Label} {bs : List (Tree Label)} {ws vs : List Word} (hd : d = .typed)
      (xs : List String) (ht : TypeReads d t ws) (h : BindersRead bs vs) :
      BindersRead (annotated d t xs ++ bs)
        (markWord "(" :: (xs.map nameWord ++ markWord ":" :: (ws ++ markWord ")" :: vs)))

/-- An abstraction over each of some parameters. Without parameters there is a node left over. -/
def abstraction (bs : List (Tree Label)) (t : Tree Label) : Tree Label :=
  if bs.isEmpty then Tree.word "E" [t] else bs.foldr (fun b t => Tree.word "\\" [b, t]) t

inductive TermReads : Tree Label → List Word → Prop
  | name (x : String) : TermReads (nameTree (d.shown x)) [nameWord x]
  | numeral (s : String) : TermReads (Tree.word "num" [Tree.word s []]) [numeralWord s]
  | brackets {t : Tree Label} {ws : List Word} (h : TermReads t ws) :
      TermReads t (markWord "(" :: (ws ++ [markWord ")"]))
  | app {t u : Tree Label} {ws vs : List Word} (ht : TermReads t ws) (hu : TermReads u vs) :
      TermReads (Tree.word "@" [t, u]) (ws ++ vs)
  | abs {bs : List (Tree Label)} {t : Tree Label} {ws vs : List Word} (hb : BindersRead d bs ws)
      (ht : TermReads t vs) :
      TermReads (abstraction bs t) (markWord "\\" :: (ws ++ markWord "." :: vs))
  | letIn {b t u : Tree Label} {ws vs us : List Word} (hb : BindersRead d [b] ws)
      (ht : TermReads t vs) (hu : TermReads u us) :
      TermReads (Tree.word "let_" [markTree "let", b, markTree "=", t, markTree "in", u])
        (markWord "let" :: (ws ++ markWord "=" :: (vs ++ markWord "in" :: us)))

end Readings

section Outline

variable {d : Dialect} {t : Tree Label} {bs : List (Tree Label)} {ws : List Word}

theorem TypeReads.depth_eq (h : TypeReads d t ws) (n : Nat) :
    ws.foldl depthAfter (some n) = some n := by
  induction h generalizing n with
  | name x => simp [depthAfter]
  | brackets _ ih => simp [depthAfter, ih]
  | arrow _ _ iht ihu => simp [depthAfter, iht, ihu]

theorem TypeReads.outside_eq (h : TypeReads d t ws) (n : Nat) : outside (some n) ws = [] := by
  induction h generalizing n with
  | name x => simp [outside, depthAfter]
  | brackets h ih => simp [outside, depthAfter, outside_append, ih, h.depth_eq]
  | arrow ht _ iht ihu => simp [outside, depthAfter, outside_append, iht, ihu, ht.depth_eq]

theorem foldl_depthAfter_names (xs : List String) :
    (xs.map nameWord).foldl depthAfter none = none := by
  induction xs with
  | nil => rfl
  | cons x xs ih => simpa [depthAfter] using ih

theorem outside_names (xs : List String) : outside none (xs.map nameWord) = xs.map nameWord := by
  induction xs with
  | nil => rfl
  | cons x xs ih => simpa [outside, depthAfter] using ih

/-- Behind parameters a dot or an equals sign is outside types. -/
theorem BindersRead.depth_eq (h : BindersRead d bs ws) :
    ws.foldl depthAfter none = none ∨ ws.foldl depthAfter none = some 0 := by
  induction h with
  | nil => exact .inl rfl
  | name x _ ih => simpa [depthAfter] using ih
  | last _ xs ht =>
    right
    simp [foldl_depthAfter_names, depthAfter, ht.depth_eq]
  | group _ xs ht _ ih => simpa [foldl_depthAfter_names, depthAfter, ht.depth_eq] using ih

@[simp] theorem outside_name (x : String) (ws : List Word) :
    outside none (nameWord x :: ws) = nameWord x :: outside none ws := by
  simp [outside, depthAfter]

theorem TypeReads.outside_last (h : TypeReads d t ws) (xs : List String) :
    outside none (xs.map nameWord ++ markWord ":" :: ws) = xs.map nameWord := by
  simp [outside_append, outside_names, foldl_depthAfter_names, outside, depthAfter, h.outside_eq]

theorem TypeReads.outside_group (h : TypeReads d t ws) (xs : List String) (vs : List Word) :
    outside none (markWord "(" :: (xs.map nameWord ++ markWord ":" :: (ws ++ markWord ")" :: vs))) =
      markWord "(" :: (xs.map nameWord ++ markWord ")" :: outside none vs) := by
  simp [outside_append, outside_names, foldl_depthAfter_names, outside, depthAfter, h.outside_eq,
    h.depth_eq]

theorem BindersRead.tags_mem (h : BindersRead d bs ws) :
    ∀ w ∈ outside none ws, w.tags ∈ [["id"], ["("], [")"]] := by
  induction h with
  | nil => simp [outside]
  | name x _ ih => simpa using ih
  | last _ xs ht => simp [ht.outside_last]
  | group _ xs ht _ ih =>
    rw [ht.outside_group]
    simpa [or_imp, forall_and] using ih

theorem BindersRead.tags_ne (h : BindersRead d bs ws) :
    ∀ w ∈ outside none ws, w.tags ≠ ["\\"] ∧ w.tags ≠ ["."] := by
  intro w hw
  have hmem := h.tags_mem w hw
  constructor <;> (intro htags; simp [htags] at hmem)

/-- There are parameters just where there is a name outside types. -/
theorem BindersRead.any_name (h : BindersRead d bs ws) :
    (outside none ws).any (·.tags == ["id"]) = !bs.isEmpty := by
  induction h with
  | nil => rfl
  | name x _ _ => simp
  | last _ xs ht =>
    rw [ht.outside_last]
    cases xs <;> simp [annotated]
  | group _ xs ht _ ih =>
    rw [ht.outside_group]
    cases xs <;> simp [annotated, ih]

theorem wordAtoms_names (xs : List String) : wordAtoms (xs.map nameWord) = xs.map nameWord := by
  simp [wordAtoms, List.filter_eq_self]

theorem flatMap_atoms_annotated (t : Tree Label) (xs : List String) :
    (annotated d t xs).flatMap atoms = (xs.map nameWord).map d.shownWord := by
  induction xs with
  | nil => rfl
  | cons x xs ih =>
    rw [annotated, List.map_cons, List.flatMap_cons, ← annotated, ih]
    rfl

theorem BindersRead.atoms_eq (h : BindersRead d bs ws) :
    bs.flatMap atoms = (wordAtoms (outside none ws)).map d.shownWord := by
  induction h with
  | nil => rfl
  | @name bs ws x _ ih =>
    rw [outside_name, List.flatMap_cons, ih]
    rfl
  | last _ xs ht => rw [ht.outside_last, wordAtoms_names, flatMap_atoms_annotated]
  | @group t bs ws vs _ xs ht _ ih =>
    have hwords : wordAtoms (markWord "(" :: (xs.map nameWord ++ markWord ")" :: outside none vs)) =
        xs.map nameWord ++ wordAtoms (outside none vs) := by
      simp [wordAtoms, List.filter_eq_self]
    rw [ht.outside_group, hwords, List.map_append, List.flatMap_append, ih, flatMap_atoms_annotated]

theorem TypeReads.isType (h : TypeReads d t ws) : IsType t := by
  induction h with
  | name x => exact .name _
  | brackets _ ih => exact ih
  | arrow _ _ iht ihu => exact .arrow iht ihu

theorem BindersRead.isBinder (h : BindersRead d bs ws) : ∀ b ∈ bs, IsBinder d b := by
  have hannotated : ∀ {t ws}, d = .typed → TypeReads d t ws → ∀ xs : List String,
      ∀ b ∈ annotated d t xs, IsBinder d b := by
    rintro t ws rfl ht xs b hb
    obtain ⟨x, -, rfl⟩ := List.mem_map.mp hb
    exact .annotated _ ht.isType
  induction h with
  | nil => simp
  | name x _ ih => exact List.forall_mem_cons.mpr ⟨.name d _, ih⟩
  | last hd xs ht => exact hannotated hd ht xs
  | group hd xs ht _ ih => exact List.forall_mem_append.mpr ⟨hannotated hd ht xs, ih⟩

variable {b u : Tree Label}

theorem isTerm_app_iff : IsTerm d (Tree.word "@" [t, u]) ↔ IsTerm d t ∧ IsTerm d u := by
  constructor
  · intro h
    generalize hv : Tree.word "@" [t, u] = v at h
    cases h with
    | app ht hu =>
      simp only [Tree.word, Tree.node.injEq, List.cons.injEq, and_true, true_and] at hv
      obtain ⟨rfl, rfl⟩ := hv
      exact ⟨ht, hu⟩
    | _ => simp [Tree.word, nameTree] at hv
  · exact fun h => .app h.1 h.2

theorem isTerm_abs_iff (hb : IsBinder d b) : IsTerm d (Tree.word "\\" [b, t]) ↔ IsTerm d t := by
  constructor
  · intro h
    generalize hv : Tree.word "\\" [b, t] = v at h
    cases h with
    | abs _ ht =>
      simp only [Tree.word, Tree.node.injEq, List.cons.injEq, and_true, true_and] at hv
      exact hv.2 ▸ ht
    | _ => simp [Tree.word, nameTree] at hv
  · exact .abs hb

theorem isTerm_letIn_iff (hb : IsBinder d b) :
    IsTerm d (Tree.word "let_" [markTree "let", b, markTree "=", t, markTree "in", u]) ↔
      IsTerm d t ∧ IsTerm d u := by
  constructor
  · intro h
    generalize hv : Tree.word "let_" [markTree "let", b, markTree "=", t, markTree "in", u] = v at h
    cases h with
    | letIn _ ht hu =>
      simp only [Tree.word, Tree.node.injEq, List.cons.injEq, and_true, true_and] at hv
      obtain ⟨-, rfl, rfl⟩ := hv
      exact ⟨ht, hu⟩
    | _ => simp [Tree.word, nameTree] at hv
  · exact fun h => .letIn hb h.1 h.2

theorem not_isTerm_remnant (t : Tree Label) : ¬ IsTerm d (Tree.word "E" [t]) := by
  intro h
  generalize hv : Tree.word "E" [t] = v at h
  cases h <;> simp [Tree.word, nameTree] at hv

theorem isTerm_abstraction_iff (hbs : ∀ b ∈ bs, IsBinder d b) :
    IsTerm d (abstraction bs t) ↔ bs.isEmpty = false ∧ IsTerm d t := by
  have hfold : IsTerm d (bs.foldr (fun b t => Tree.word "\\" [b, t]) t) ↔ IsTerm d t := by
    induction bs with
    | nil => rfl
    | cons b bs ih =>
      obtain ⟨hb, hbs⟩ := List.forall_mem_cons.mp hbs
      rw [List.foldr_cons, isTerm_abs_iff hb, ih hbs]
  rw [abstraction]
  cases bs with
  | nil => simpa using not_isTerm_remnant t
  | cons b bs => simpa using hfold

theorem atoms_abstraction (bs : List (Tree Label)) (t : Tree Label) :
    atoms (abstraction bs t) = bs.flatMap atoms ++ atoms t := by
  have hfold : atoms (bs.foldr (fun b t => Tree.word "\\" [b, t]) t) =
      bs.flatMap atoms ++ atoms t := by
    induction bs with
    | nil => rfl
    | cons b bs ih =>
      rw [List.foldr_cons, List.flatMap_cons, List.append_assoc, ← ih]
      exact congrArg (atoms b ++ ·) (List.append_nil _)
  rw [abstraction]
  cases bs with
  | nil => exact List.append_nil _
  | cons b bs => exact hfold

theorem atoms_letIn (b t u : Tree Label) :
    atoms (Tree.word "let_" [markTree "let", b, markTree "=", t, markTree "in", u]) =
      atoms b ++ (atoms t ++ atoms u) := by
  have hall : atoms (Tree.word "let_" [markTree "let", b, markTree "=", t, markTree "in", u]) =
      atoms b ++ (atoms t ++ (atoms u ++ [])) := rfl
  rw [hall, List.append_nil]

/-- What the words tell about the term read from them: whether more words are outside types, what
names and numerals it has, and whether it is well formed. -/
structure Outline (d : Dialect) (t : Tree Label) (ws : List Word) : Prop where
  depth_eq : ws.foldl depthAfter none = none
  atoms_eq : atoms t = (wordAtoms (outside none ws)).map d.shownWord
  bindsNames_iff : ∀ vs, bindsNames (outside none ws ++ vs) = true ↔
    IsTerm d t ∧ bindsNames vs = true

/-- Behind parameters, a word that ends types is outside them, and what follows it. -/
theorem BindersRead.outside_append (h : BindersRead d bs ws) {s : String} (hs : s ∈ [".", "="])
    (vs : List Word) :
    outside none (ws ++ markWord s :: vs) =
      outside none ws ++ markWord s :: outside none vs ∧
    (ws ++ markWord s :: vs).foldl depthAfter none = vs.foldl depthAfter none := by
  have hends : depthAfter (ws.foldl depthAfter none) (markWord s) = none := by
    simp only [List.mem_cons, List.not_mem_nil, or_false] at hs
    obtain hdepth | hdepth := h.depth_eq <;> obtain rfl | rfl := hs <;>
      simp [hdepth, depthAfter]
  refine ⟨?_, ?_⟩
  · rw [Lambda.outside_append, outside, hends]
    rfl
  · rw [List.foldl_append, List.foldl_cons, hends]

namespace Outline

variable {vs us : List Word}

theorem atom {w : Word} (hw : w.tags = ["id"] ∨ w.tags = ["num"]) (hatoms : atoms t = [d.shownWord w])
    (ht : IsTerm d t) : Outline d t [w] := by
  have htags : w.tags ≠ [":"] ∧ w.tags ≠ ["\\"] := by
    obtain hw | hw := hw <;> rw [hw] <;> decide
  have hwords : outside none [w] = [w] := by simp [outside, depthAfter, htags.1]
  refine ⟨by simp [depthAfter, htags.1], ?_, fun vs => ?_⟩
  · rw [hwords, hatoms, wordAtoms, List.filter_cons_of_pos (by simpa using hw)]
    rfl
  · rw [hwords, bindsNames_append (by simpa using htags.2)]
    exact ⟨fun h => ⟨ht, h⟩, And.right⟩

theorem brackets (h : Outline d t ws) :
    Outline d t (markWord "(" :: (ws ++ [markWord ")"])) := by
  have hwords : outside none (markWord "(" :: (ws ++ [markWord ")"])) =
      markWord "(" :: (outside none ws ++ [markWord ")"]) := by
    simp [outside, outside_append, depthAfter, h.depth_eq]
  refine ⟨by simp [depthAfter, h.depth_eq], ?_, fun vs => ?_⟩
  · rw [hwords, h.atoms_eq]
    simp [wordAtoms]
  · rw [hwords, List.cons_append, List.append_assoc, bindsNames_mark (by simp),
      h.bindsNames_iff, List.singleton_append, bindsNames_mark (by simp)]

theorem app (ht : Outline d t ws) (hu : Outline d u vs) :
    Outline d (Tree.word "@" [t, u]) (ws ++ vs) := by
  refine ⟨by simp [ht.depth_eq, hu.depth_eq], ?_, fun us => ?_⟩
  · rw [outside_append, ht.depth_eq, wordAtoms_append, List.map_append, ← ht.atoms_eq,
      ← hu.atoms_eq]
    exact congrArg (atoms t ++ ·) (List.append_nil _)
  · rw [outside_append, ht.depth_eq, List.append_assoc, ht.bindsNames_iff, hu.bindsNames_iff,
      isTerm_app_iff, and_assoc]

theorem abs (hb : BindersRead d bs ws) (ht : Outline d t vs) :
    Outline d (abstraction bs t) (markWord "\\" :: (ws ++ markWord "." :: vs)) := by
  obtain ⟨houtside, hdepth⟩ := hb.outside_append (s := ".") (by simp) vs
  have hwords : outside none (markWord "\\" :: (ws ++ markWord "." :: vs)) =
      markWord "\\" :: (outside none ws ++ markWord "." :: outside none vs) := by
    rw [outside, ← houtside]
    rfl
  refine ⟨?_, ?_, fun us => ?_⟩
  · rw [List.foldl_cons]
    exact hdepth.trans ht.depth_eq
  · rw [hwords, atoms_abstraction, hb.atoms_eq, ht.atoms_eq]
    simp [wordAtoms]
  · rw [hwords, List.cons_append, List.append_assoc, List.cons_append,
      bindsNames_abstraction hb.tags_ne, hb.any_name, isTerm_abstraction_iff hb.isBinder]
    simp [ht.bindsNames_iff, and_assoc]

theorem letIn (hb : BindersRead d [b] ws) (ht : Outline d t vs) (hu : Outline d u us) :
    Outline d (Tree.word "let_" [markTree "let", b, markTree "=", t, markTree "in", u])
      (markWord "let" :: (ws ++ markWord "=" :: (vs ++ markWord "in" :: us))) := by
  obtain ⟨houtside, hdepth⟩ := hb.outside_append (s := "=") (by simp) (vs ++ markWord "in" :: us)
  have hwords :
      outside none (markWord "let" :: (ws ++ markWord "=" :: (vs ++ markWord "in" :: us))) =
      markWord "let" :: (outside none ws ++ markWord "=" ::
        (outside none vs ++ markWord "in" :: outside none us)) := by
    have hin : outside none (vs ++ markWord "in" :: us) =
        outside none vs ++ markWord "in" :: outside none us := by
      simp [outside_append, ht.depth_eq, outside, depthAfter]
    rw [outside, ← hin, ← houtside]
    rfl
  refine ⟨?_, ?_, fun rest => ?_⟩
  · rw [List.foldl_cons]
    refine hdepth.trans ?_
    simp [ht.depth_eq, hu.depth_eq, depthAfter]
  · have hatoms : atoms b = (wordAtoms (outside none ws)).map d.shownWord := by
      rw [← hb.atoms_eq, List.flatMap_singleton]
    rw [hwords, atoms_letIn, hatoms, ht.atoms_eq, hu.atoms_eq]
    simp [wordAtoms]
  · rw [hwords, isTerm_letIn_iff (hb.isBinder b (by simp))]
    simp only [List.cons_append, List.append_assoc]
    rw [bindsNames_mark (by decide), bindsNames_append (fun w hw => (hb.tags_ne w hw).1),
      bindsNames_mark (by decide), ht.bindsNames_iff, bindsNames_mark (by decide),
      hu.bindsNames_iff, and_assoc]

end Outline

theorem TermReads.outline (h : TermReads d t ws) : Outline d t ws := by
  induction h with
  | name x => exact .atom (.inl rfl) rfl (.name _)
  | numeral s => exact .atom (.inr rfl) rfl (.numeral s)
  | brackets _ ih => exact ih.brackets
  | app _ _ iht ihu => exact iht.app ihu
  | abs hb _ ih => exact .abs hb ih
  | letIn hb _ _ iht ihu => exact .letIn hb iht ihu

end Outline

end WhileSketch.Lambda
