import Mathlib
import WhileSketch.Proofs.Lambda.Recovery

/-! Typed terms that are printed and read again. A local definition that stands directly in an
application has to be read from brackets of its own, which are not printed. So a term comes back
just where there is no such definition. -/

namespace WhileSketch.Lambda

section Opens

/-! ### Opening brackets before local definitions -/

/-- How many opening brackets stand directly before local definitions, with some of them before the
first word. -/
def opens (k : Nat) : List Word → Nat
  | [] => 0
  | w :: ws =>
    if w = markWord "(" then opens (k + 1) ws
    else if w = markWord "let" then k + opens 0 ws
    else opens 0 ws

variable {k : Nat} {w : Word} {s : String} {ws vs : List Word}

theorem opens_nil (k : Nat) : opens k [] = 0 :=
  rfl

theorem opens_open (k : Nat) (ws : List Word) :
    opens k (markWord "(" :: ws) = opens (k + 1) ws := by
  rw [opens, if_pos rfl]

theorem opens_let (k : Nat) (ws : List Word) :
    opens k (markWord "let" :: ws) = k + opens 0 ws := by
  rw [opens, if_neg (by decide), if_pos rfl]

theorem opens_other (k : Nat) (hw : w.tags ≠ ["("] ∧ w.tags ≠ ["let"]) (ws : List Word) :
    opens k (w :: ws) = opens 0 ws := by
  rw [opens, if_neg, if_neg]
  · rintro rfl
    exact hw.2 rfl
  · rintro rfl
    exact hw.1 rfl

theorem opens_name (k : Nat) (x : String) (ws : List Word) :
    opens k (nameWord x :: ws) = opens 0 ws :=
  opens_other k (by simp) ws

theorem opens_numeral (k : Nat) (s : String) (ws : List Word) :
    opens k (numeralWord s :: ws) = opens 0 ws :=
  opens_other k (by simp) ws

theorem opens_mark (hs : s ∉ ["(", "let"]) (k : Nat) (ws : List Word) :
    opens k (markWord s :: ws) = opens 0 ws :=
  opens_other k (by simpa using hs) ws

theorem opens_append_mark (hs : s ∉ ["(", "let"]) (k : Nat) (ws vs : List Word) :
    opens k (ws ++ markWord s :: vs) = opens k ws + opens 0 vs := by
  induction ws generalizing k with
  | nil => simp [opens_mark hs, opens_nil]
  | cons v ws ih =>
    rw [List.cons_append, opens, opens]
    split_ifs
    · exact ih (k + 1)
    · rw [ih 0, Nat.add_assoc]
    · exact ih 0

end Opens

section Need

/-! ### Brackets that a reading takes -/

mutual

/-- How many opening brackets stand at least before the local definitions of a term, where some of
them stand before the term. -/
def need (k : Nat) : Tree Label → Nat
  | .node r ts =>
    if r.isWord "@" then needApp k ts
    else (if r.isWord "let_" then k else 0) + needEach false ts

def needApp (k : Nat) : List (Tree Label) → Nat
  | [] => 0
  | t :: ts => need (k + if isLet t then 1 else 0) t + needEach true ts

/-- In an application, definitions and other applications need brackets of their own. -/
def needEach (inApp : Bool) : List (Tree Label) → Nat
  | [] => 0
  | t :: ts => need (if inApp && (isLet t || isApp t) then 1 else 0) t + needEach inApp ts

end

variable {k : Nat} {t u b : Tree Label} {bs : List (Tree Label)} {ws vs : List Word}

theorem need_app (k : Nat) (t u : Tree Label) : need k (Tree.word "@" [t, u]) =
    need (k + if isLet t then 1 else 0) t + need (if isLet u || isApp u then 1 else 0) u := by
  have hlabel : (Label.word "@").isWord "@" = true := rfl
  simp [Tree.word, need, needApp, needEach, hlabel]

theorem need_let (k : Nat) (b t u : Tree Label) :
    need k (Tree.word "let_" [markTree "let", b, markTree "=", t, markTree "in", u]) =
      k + (need 0 b + need 0 t + need 0 u) := by
  have hlabel : (Label.word "let_").isWord "@" = false ∧ (Label.word "let_").isWord "let_" = true :=
    ⟨rfl, rfl⟩
  have hmarks : ∀ s ∈ ["let", "=", "in"], need 0 (markTree s) = 0 := by decide
  simp only [List.forall_mem_cons] at hmarks
  simp [Tree.word, need, needEach, hlabel, hmarks, Nat.add_assoc]

theorem need_other {r : String} (hr : r ∉ ["@", "let_"]) (k : Nat) (ts : List (Tree Label)) :
    need k (Tree.word r ts) = needEach false ts := by
  have hlabel : (Label.word r).isWord "@" = false ∧ (Label.word r).isWord "let_" = false := by
    simpa [Label.isWord, Label.text?] using hr
  simp [Tree.word, need, hlabel]

theorem need_leaf (x : String) : need 0 (Tree.word x []) = 0 := by
  simp [Tree.word, need, needApp, needEach]

theorem need_name (k : Nat) (x : String) : need k (nameTree x) = 0 := by
  simp [nameTree, need_other (r := "id") (by decide), needEach, need_leaf]

theorem need_numeral (k : Nat) (s : String) : need k (Tree.word "num" [Tree.word s []]) = 0 := by
  simp [need_other (r := "num") (by decide), needEach, need_leaf]

theorem need_abs (k : Nat) (b t : Tree Label) :
    need k (Tree.word "\\" [b, t]) = need 0 b + need 0 t := by
  simp [need_other (r := "\\") (by decide), needEach]

mutual

theorem need_mono {k m : Nat} (h : k ≤ m) : (t : Tree Label) → need k t ≤ need m t
  | .node r ts => by
    have happ := needApp_mono h ts
    rw [need, need]
    split_ifs <;> omega

theorem needApp_mono {k m : Nat} (h : k ≤ m) :
    (ts : List (Tree Label)) → needApp k ts ≤ needApp m ts
  | [] => le_rfl
  | t :: ts => by
    have hfirst := need_mono (Nat.add_le_add_right h (if isLet t then 1 else 0)) t
    rw [needApp, needApp]
    omega

end

theorem isLet_of_isApp (h : isApp t = true) : isLet t = false := by
  simp only [isApp, isLet, Label.isWord, beq_iff_eq] at h ⊢
  rw [h]
  decide

/-- Before a local definition all brackets count. -/
theorem need_add (k : Nat) (t : Tree Label) :
    need (k + if isLet t then 1 else 0) t = need k t + if isLet t then 1 else 0 := by
  cases hlet : isLet t with
  | false => rfl
  | true =>
    obtain ⟨r, ts⟩ := t
    have hword : r.isWord "let_" = true := hlet
    have happ : ¬ r.isWord "@" = true := fun happ =>
      absurd hlet (by simp [isLet_of_isApp (t := .node r ts) happ])
    simp only [need, if_neg happ, if_pos hword, if_true]
    omega

theorem need_argument (t : Tree Label) : need (if isLet t || isApp t then 1 else 0) t =
    need (if isApp t then 1 else 0) t + if isLet t then 1 else 0 := by
  rw [← need_add]
  cases happ : isApp t with
  | false => simp
  | true => simp [isLet_of_isApp happ]

/-! Nothing in a type or a parameter needs brackets. -/

theorem TypeReads.need_eq {d : Dialect} (h : TypeReads d t ws) : need 0 t = 0 := by
  induction h with
  | name x => exact need_name 0 _
  | brackets _ ih => exact ih
  | arrow _ _ iht ihu => simp [need_other (r := "->") (by decide), needEach, iht, ihu]

theorem BindersRead.need_eq {d : Dialect} (h : BindersRead d bs ws) : ∀ b ∈ bs, need 0 b = 0 := by
  have hannotated : ∀ {t ws}, TypeReads d t ws → ∀ xs, ∀ b ∈ annotated d t xs, need 0 b = 0 := by
    intro t ws ht xs b hb
    obtain ⟨x, -, rfl⟩ := List.mem_map.mp hb
    simp [need_other (r := ":") (by decide), needEach, need_name, ht.need_eq]
  induction h with
  | nil => simp
  | name x _ ih => exact List.forall_mem_cons.mpr ⟨need_name 0 _, ih⟩
  | last _ xs ht => exact hannotated ht xs
  | group _ xs ht _ ih => exact List.forall_mem_append.mpr ⟨hannotated ht xs, ih⟩

theorem need_abstraction (h : ∀ b ∈ bs, need 0 b = 0) (k : Nat) (t : Tree Label) :
    need k (abstraction bs t) = need 0 t := by
  have hfold : ∀ {bs : List (Tree Label)}, (∀ b ∈ bs, need 0 b = 0) →
      need 0 (bs.foldr (fun b t => Tree.word "\\" [b, t]) t) = need 0 t := by
    intro bs hbs
    induction bs with
    | nil => rfl
    | cons b bs ih =>
      obtain ⟨hb, hbs⟩ := List.forall_mem_cons.mp hbs
      rw [List.foldr_cons, need_abs, hb, ih hbs, Nat.zero_add]
  cases bs with
  | nil => simp [abstraction, need_other (r := "E") (by decide), needEach]
  | cons b bs =>
    obtain ⟨hb, hbs⟩ := List.forall_mem_cons.mp h
    rw [abstraction, if_neg (by simp), List.foldr_cons, need_abs, hb, hfold hbs, Nat.zero_add]

end Need

section Reading

/-! ### Each reading takes the brackets that a term needs -/

variable {d : Dialect} {f : Option (Tree Label)} {k : Nat} {t u : Tree Label} {ws vs : List Word}

/-- The brackets that a term needs are among the words from which it is read, or among those of what
has been read before. -/
def Covered (f : Option (Tree Label)) (t : Tree Label) (ws : List Word) : Prop :=
  ∀ k, need k t ≤
    f.elim (opens k ws) fun g => need (k + if isLet g then 1 else 0) g + opens 0 ws

theorem Covered.of_operand
    (hu : ∀ k, need (k + if isLet u || isApp u then 1 else 0) u + opens 0 ws ≤ opens k (vs ++ ws))
    (h : Covered (some (applied f u)) t ws) : Covered f t (vs ++ ws) := by
  intro k
  have hall := h k
  cases f with
  | none =>
    have hmono : need (k + if isLet u then 1 else 0) u ≤
        need (k + if isLet u || isApp u then 1 else 0) u := by
      refine need_mono (Nat.add_le_add_left ?_ k) u
      cases isLet u <;> simp
    have hwords := hu k
    simp only [applied, Option.elim_some] at hall
    simp only [Option.elim_none]
    omega
  | some g =>
    have hwords := hu 0
    have happ : isLet (Tree.word "@" [g, u]) = false := rfl
    simp only [applied, Option.elim_some, happ, need_app, Bool.false_eq_true, if_false,
      Nat.add_zero] at hall
    simp only [Nat.zero_add] at hwords
    simp only [Option.elim_some]
    omega

theorem ReadsOn.covered (h : ReadsOn d f t ws) : Covered f t ws := by
  induction h with
  | done g =>
    intro k
    exact (need_mono (Nat.le_add_right k _) g).trans (Nat.le_add_right _ _)
  | @name f t ws x _ ih =>
    change Covered f t ([nameWord x] ++ ws)
    refine Covered.of_operand (fun k => ?_) ih
    rw [need_name, List.singleton_append, opens_name, Nat.zero_add]
  | @numeral f t ws s _ ih =>
    change Covered f t ([numeralWord s] ++ ws)
    refine Covered.of_operand (fun k => ?_) ih
    rw [need_numeral, List.singleton_append, opens_numeral, Nat.zero_add]
  | @brackets f t u ws vs _ _ ihu ih =>
    have hsplit : markWord "(" :: (vs ++ markWord ")" :: ws) =
        markWord "(" :: (vs ++ [markWord ")"]) ++ ws := by
      simp
    rw [hsplit]
    refine Covered.of_operand (fun k => ?_) ih
    have hmono : need (k + if isLet u || isApp u then 1 else 0) u ≤ need (k + 1) u :=
      need_mono (Nat.add_le_add_left (by split_ifs <;> simp) k) u
    have hinner : need (k + 1) u ≤ opens (k + 1) vs := ihu (k + 1)
    rw [← hsplit, opens_open, opens_append_mark (by decide)]
    omega
  | @abs bs t ws vs f hb _ ih =>
    intro k
    have hbody : need 0 t ≤ opens 0 vs := ih 0
    have hwords : ∀ k, opens k (markWord "\\" :: (ws ++ markWord "." :: vs)) =
        opens 0 ws + opens 0 vs := by
      intro k
      rw [opens_mark (by decide), opens_append_mark (by decide)]
    cases f with
    | none =>
      simp only [applied, need_abstraction hb.need_eq, Option.elim_none, hwords]
      omega
    | some g =>
      simp only [applied, need_app, need_abstraction hb.need_eq, Option.elim_some, hwords]
      omega
  | @letIn b t u ws vs us hb _ _ iht ihu =>
    intro k
    have hvalue : need 0 t ≤ opens 0 vs := iht 0
    have hbody : need 0 u ≤ opens 0 us := ihu 0
    have hbinder : need 0 b = 0 := hb.need_eq b (by simp)
    simp only [need_let, hbinder, Option.elim_none, opens_let,
      opens_append_mark (s := "=") (by decide), opens_append_mark (s := "in") (by decide)]
    omega

end Reading

section Printed

/-! ### Each local definition in an application lacks a bracket -/

variable {k : Nat} {p : Position} {b t u : Tree Label} {ws vs : List Word}

/-- The count begins again behind some words. -/
def Sealed (ws : List Word) : Prop :=
  ∀ k vs, opens k (ws ++ vs) = opens k ws + opens 0 vs

theorem opens_enclosed (needed : Bool) (k : Nat) (ws : List Word) :
    opens k (enclosedWords needed ws) = opens (k + if needed then 1 else 0) ws := by
  cases needed with
  | false => rfl
  | true => simp [enclosedWords, opens_open, opens_append_mark (s := ")") (by decide), opens_nil]

theorem Sealed.enclosed (h : Sealed ws) (needed : Bool) : Sealed (enclosedWords needed ws) := by
  intro k vs
  rw [opens_enclosed]
  cases needed with
  | false => exact h k vs
  | true => simp [enclosedWords, opens_open, opens_append_mark (s := ")") (by decide)]

theorem Written.isSealed (h : Written p t ws) : Sealed ws := by
  induction h with
  | name | numeral =>
    intro k vs
    simp [opens_name, opens_numeral, opens_nil]
  | @app _ _ _ ws us _ _ iht ihu =>
    refine Sealed.enclosed (fun k vs => ?_) _
    rw [List.append_assoc, iht, iht, ihu, Nat.add_assoc]
  | abs _ _ ih =>
    refine Sealed.enclosed (fun k vs => ?_) _
    simp only [List.cons_append, List.append_assoc, opens_mark (s := "\\") (by decide),
      opens_append_mark (s := ".") (by decide), ih 0 vs, Nat.add_assoc]
  | letIn _ _ _ _ ihu =>
    intro k vs
    simp only [List.cons_append, List.append_assoc, opens_let,
      opens_append_mark (s := "=") (by decide), opens_append_mark (s := "in") (by decide), ihu 0 vs,
      Nat.add_assoc]

theorem looseLets_leaf (x : String) : looseLets (Tree.word x []) = 0 := by
  simp [Tree.word, looseLets, looseLetsEach]

theorem looseLets_name (x : String) : looseLets (nameTree x) = 0 := by
  simp [nameTree, looseLets_other (r := "id") (by decide), looseLetsEach, looseLets_leaf]

theorem BinderWritten.counts_eq (h : BinderWritten b ws) :
    looseLets b = 0 ∧ need 0 b = 0 ∧ ∀ k, opens k ws = 0 := by
  cases h with
  | @name x _ => exact ⟨looseLets_name x, need_name 0 x, fun k => by simp [opens_name, opens_nil]⟩
  | @annotated x y _ _ =>
    refine ⟨?_, ?_, fun k => ?_⟩
    · simp [looseLets_other (r := ":") (by decide), looseLetsEach, looseLets_name]
    · simp [need_other (r := ":") (by decide), needEach, need_name]
    · simp [opens_name, opens_mark (s := ":") (by decide), opens_nil]

/-- The printed text has all brackets that the term needs, except for one at each local definition
that stands directly in an application. -/
theorem Written.opens_eq (h : Written p t ws) (k : Nat) : opens k ws + looseLets t =
    need (k + if isApp t && (p.parent == "@" && p.index == 1) then 1 else 0) t := by
  induction h generalizing k with
  | @name p x _ => simp [opens_name, opens_nil, looseLets_name, need_name]
  | @numeral p s _ =>
    simp [opens_numeral, opens_nil, looseLets_other (r := "num") (by decide), looseLetsEach,
      looseLets_leaf, need_numeral]
  | @app p t u ws vs ht hu iht ihu =>
    have hself : isApp (Tree.word "@" [t, u]) = true := rfl
    have hfunction : opens (k + if p.parent == "@" && p.index == 1 then 1 else 0) ws +
        looseLets t = need (k + if p.parent == "@" && p.index == 1 then 1 else 0) t := by
      simpa using iht (k + if p.parent == "@" && p.index == 1 then 1 else 0)
    have hargument : opens 0 vs + looseLets u = need (if isApp u then 1 else 0) u := by
      simpa using ihu 0
    rw [opens_enclosed, ht.isSealed, looseLets_app, need_app, hself, Bool.true_and, need_add,
      need_argument]
    omega
  | @abs p b t ws vs hb _ ih =>
    obtain ⟨hloose, hneed, hopens⟩ := hb.counts_eq
    have hbody : opens 0 vs + looseLets t = need 0 t := by simpa using ih 0
    rw [opens_enclosed, opens_mark (by decide), opens_append_mark (by decide), hopens,
      looseLets_abs, hloose, need_abs, hneed]
    omega
  | @letIn p b t u ws vs us hb _ _ iht ihu =>
    obtain ⟨hloose, hneed, hopens⟩ := hb.counts_eq
    have hself : isApp (Tree.word "let_" [markTree "let", b, markTree "=", t, markTree "in", u]) =
        false := rfl
    have hvalue : opens 0 vs + looseLets t = need 0 t := by simpa [Position.top] using iht 0
    have hbody : opens 0 us + looseLets u = need 0 u := by simpa [Position.top] using ihu 0
    rw [opens_let, opens_append_mark (by decide), opens_append_mark (by decide), hopens,
      looseLets_let, hloose, need_let, hneed, hself, Bool.false_and, if_neg (by simp)]
    omega

end Printed

theorem readsOn_of_parse {d : Dialect} {text : String} {t : Tree Label}
    (h : d.parse text = .ok (some t)) : ReadsOn d none t (d.language.tokens text) := by
  have hderive : (d.language.derive? text).isSome = true := by
    cases hderive : d.language.derive? text with
    | none =>
      have hnone : d.parse text = .ok none := by
        cases d with
        | pure => exact congrArg (Option.mapM Pure.condense) hderive
        | typed => exact congrArg (Option.mapM Typed.condense) hderive
      rw [hnone] at h
      simp at h
    | some e => rfl
  obtain ⟨e, he⟩ := exists_yields_of_derive d text hderive
  obtain ⟨u, hparse, hreads⟩ := exists_parse_readsOn he
  rw [hparse, Dialect.reading] at h
  split_ifs at h
  simp only [Except.ok.injEq, Option.some.injEq] at h
  exact h ▸ hreads

/-- A typed term is printed as a text that is read as the same term just where no local definition
stands directly in an application. -/
theorem parse_print_iff_of_isLegible {t : Tree Label} (h : IsLegible t) :
    ∃ text, print .typed t = .ok (.word text) ∧
      (Typed.parse text = .ok (some t) ↔ looseLets t = 0) := by
  obtain ⟨text, ws, hprint, hspells, hwritten⟩ := h.written .top
  have htokens : Typed.language.tokens text = ws := hspells.tokens_eq
  refine ⟨text, hprint, fun hparse => ?_, fun hloose => ?_⟩
  · have hreads : ReadsOn .typed none t ws := htokens ▸ readsOn_of_parse (d := .typed) hparse
    have hcovered : need 0 t ≤ opens 0 ws := hreads.covered 0
    have hopens : opens 0 ws + looseLets t = need 0 t := by
      simpa [Position.top] using hwritten.opens_eq 0
    omega
  · have hrecovers : Recovers .typed "E" t ws :=
      hwritten.recovers hloose fun h => absurd h (by decide)
    exact parse_eq_of_recovers (d := .typed) (htokens ▸ hrecovers)

def letTree (b t u : Tree Label) : Tree Label :=
  Tree.word "let_" [markTree "let", b, markTree "=", t, markTree "in", u]

def nestedLets : Tree Label :=
  letTree (Tree.word ":" [nameTree "f", nameTree "a"])
    (letTree (nameTree "x") (Tree.word "num" [Tree.word "1" []]) (nameTree "x"))
    (Tree.word "@" [
      Tree.word "@" [nameTree "f",
        Tree.word "\\" [nameTree "y", letTree (nameTree "z") (nameTree "y") (nameTree "z")]],
      nameTree "w"])

theorem parse_print_nestedLets : IsLegible nestedLets ∧ looseLets nestedLets = 0 ∧
    print .typed nestedLets =
      .ok (.word "let f : a = let x = 1 in x in f (\\y. let z = y in z) w") ∧
    Typed.parse "let f : a = let x = 1 in x in f (\\y. let z = y in z) w" =
      .ok (some nestedLets) := by
  have hlegible : IsLegible nestedLets := by
    refine .letIn (.annotated ?_ ?_) (.letIn (.name ?_) (.numeral ?_) (.name ?_))
      (.app (.app (.name ?_) (.abs (.name ?_) (.letIn (.name ?_) (.name ?_) (.name ?_))))
        (.name ?_)) <;> decide
  have hprint : print .typed nestedLets =
      .ok (.word "let f : a = let x = 1 in x in f (\\y. let z = y in z) w") :=
    rfl
  have hloose : looseLets nestedLets = 0 := by decide
  obtain ⟨text, htext, hparse⟩ := parse_print_iff_of_isLegible hlegible
  rw [hprint, Except.ok.injEq, Label.word.injEq] at htext
  subst htext
  exact ⟨hlegible, hloose, hprint, hparse.mpr hloose⟩

/-- A local definition that is applied is printed like one whose body is applied. -/
theorem print_appliedLet :
    Typed.parse "(let x = 1 in x) y" = .ok (some (Tree.word "@" [
      letTree (nameTree "x") (Tree.word "num" [Tree.word "1" []]) (nameTree "x"), nameTree "y"])) ∧
    print .typed (Tree.word "@" [
      letTree (nameTree "x") (Tree.word "num" [Tree.word "1" []]) (nameTree "x"), nameTree "y"]) =
      .ok (.word "let x = 1 in x y") ∧
    Typed.parse "let x = 1 in x y" = .ok (some (letTree (nameTree "x")
      (Tree.word "num" [Tree.word "1" []]) (Tree.word "@" [nameTree "x", nameTree "y"]))) := by
  have hname : ∀ {x}, Dialect.keeps .typed x = true →
      Recovers .typed "E0" (nameTree x) [nameWord x] :=
    fun hx => .level (by simp) (by decide) (recovers_name hx)
  have hone : Recovers .typed "E" (Tree.word "num" [Tree.word "1" []]) [numeralWord "1"] :=
    recovers_of_operand (.level (by simp) (by decide) (recovers_numeral (by decide))) .whole
  have hx : BinderWritten (nameTree "x") [nameWord "x"] := .name (by decide)
  refine ⟨?_, rfl, ?_⟩
  · have htokens : Typed.language.tokens "(let x = 1 in x) y" =
        (markWord "(" :: ((markWord "let" :: ([nameWord "x"] ++ markWord "=" ::
          ([numeralWord "1"] ++ markWord "in" :: [nameWord "x"]))) ++ [markWord ")"])) ++
          [nameWord "y"] := by
      decide +kernel
    have hlet := Recovers.letIn hx hone (recovers_of_operand (hname (x := "x") (by decide)) .whole)
    have hfunction : Recovers .typed "E1" _ _ := recovers_of_operand hlet.brackets .chain
    have hall := recovers_of_chain (a := .whole) (hfunction.app (hname (x := "y") (by decide))) rfl
    exact parse_eq_of_recovers (d := .typed) (htokens ▸ hall)
  · have htokens : Typed.language.tokens "let x = 1 in x y" =
        markWord "let" :: ([nameWord "x"] ++ markWord "=" ::
          ([numeralWord "1"] ++ markWord "in" :: ([nameWord "x"] ++ [nameWord "y"]))) := by
      decide +kernel
    have hfunction : Recovers .typed "E1" _ _ :=
      recovers_of_operand (hname (x := "x") (by decide)) .chain
    have hbody := recovers_of_chain (a := .whole) (hfunction.app (hname (x := "y") (by decide))) rfl
    exact parse_eq_of_recovers (d := .typed) (htokens ▸ Recovers.letIn hx hone hbody)

end WhileSketch.Lambda
