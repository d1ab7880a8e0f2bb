import Mathlib
import WhileSketch.Proofs.Synthesis.Filling
import WhileSketch.Proofs.While.RoundTrip
import WhileSketch.Proofs.While.Succession

/-! Program texts with numbers in place of the names of holes. -/

namespace WhileSketch

namespace Holes

section Characters

variable {value : String → Option String} {before : Option Char} {c : Char} {w cs rest : List Char}

theorem stem_eq : stem = ['h', 'o', 'l', 'e', '_'] := by
  decide

theorem isWordChar_of_mem_stem (hc : c ∈ stem) : Text.isWordChar c = true := by
  have hall : stem.all Text.isWordChar = true := by decide
  exact List.all_eq_true.mp hall c hc

theorem nameLength?_of_ne (hc : c ≠ 'h') : nameLength? (c :: cs) = none := by
  have hstem : stem.isPrefixOf (c :: cs) = false := by
    simp [stem_eq, List.isPrefixOf, hc.symm]
  simp [nameLength?, hstem]

theorem fillChars_keep (h : before.any Text.isWordChar = true ∨ c ≠ 'h') :
    fillChars value before (c :: cs) = c :: fillChars value (some c) cs := by
  have hnone : (if before.any Text.isWordChar then none else nameLength? (c :: cs)) = none := by
    obtain hb | hc := h
    · rw [if_pos hb]
    · rw [nameLength?_of_ne hc, ite_self]
  rw [fillChars, hnone]

/-- The character in front after some characters have been read. -/
def lastOf (before : Option Char) (w : List Char) : Option Char :=
  (w.getLast?).or before

theorem lastOf_cons : lastOf before (c :: w) = lastOf (some c) w := by
  cases w <;> simp [lastOf, List.getLast?_cons]

theorem fillChars_keepAll (hw : 'h' ∉ w) :
    fillChars value before (w ++ rest) = w ++ fillChars value (lastOf before w) rest := by
  induction w generalizing before with
  | nil => rfl
  | cons c w ih =>
    simp only [List.mem_cons, not_or] at hw
    rw [List.cons_append, fillChars_keep (.inr (Ne.symm hw.1)), ih hw.2, lastOf_cons]
    rfl

theorem fillChars_inside (hb : before.any Text.isWordChar = true)
    (hw : ∀ c ∈ w, Text.isWordChar c = true) :
    fillChars value before (w ++ rest) = w ++ fillChars value (lastOf before w) rest := by
  induction w generalizing before with
  | nil => rfl
  | cons c w ih =>
    have hc : (some c).any Text.isWordChar = true := hw c List.mem_cons_self
    rw [List.cons_append, fillChars_keep (.inl hb), ih hc fun d hd =>
      hw d (List.mem_cons_of_mem _ hd), lastOf_cons]
    rfl

theorem stem_prefix_word (hrest : Lexing.Clear rest) (h : stem <+: w ++ rest) : stem <+: w := by
  obtain hw | ⟨z, hz⟩ := List.prefix_or_prefix_of_prefix h (List.prefix_append w rest)
  · exact hw
  · cases z with
    | nil => rw [← hz, List.append_nil]
    | cons c z =>
      exfalso
      rw [← hz, List.prefix_append_right_inj] at h
      obtain ⟨y, rfl⟩ := h
      have hc : Text.isWordChar c = true := isWordChar_of_mem_stem (by simp [← hz])
      rw [hrest c rfl] at hc
      cases hc

theorem nameLength?_stem {ds : List Char} (hds : ∀ c ∈ ds, Text.isDigit c = true)
    (hrest : ∀ c ∈ rest.head?, Text.isDigit c = false) :
    nameLength? (stem ++ (ds ++ rest)) =
      if ds.isEmpty || rest.head?.any Text.isWordChar then none
      else some (stem.length + ds.length) := by
  have hstem : stem.isPrefixOf (stem ++ (ds ++ rest)) = true :=
    List.isPrefixOf_iff_prefix.mpr (List.prefix_append stem _)
  have hdigits : (ds ++ rest).takeWhile Text.isDigit = ds := takeWhile_append_bar hds hrest
  have hdrop : (stem ++ (ds ++ rest)).drop (stem.length + ds.length) = rest := by
    rw [← List.append_assoc, ← List.length_append, List.drop_left]
  rw [nameLength?, if_pos hstem, List.drop_left, hdigits]
  dsimp only
  rw [hdrop]

theorem nameLength?_word (hw : ∀ c ∈ w, Text.isWordChar c = true) (hrest : Lexing.Clear rest) :
    nameLength? (w ++ rest) = if (nameLength? w).isSome then some w.length else none := by
  by_cases hstem : stem <+: w
  · obtain ⟨y, rfl⟩ := hstem
    obtain ⟨ds, y', hds, hy', rfl⟩ : ∃ ds y', (∀ c ∈ ds, Text.isDigit c = true) ∧
        (∀ c ∈ y'.head?, Text.isDigit c = false) ∧ y = ds ++ y' := by
      refine ⟨y.takeWhile Text.isDigit, y.dropWhile Text.isDigit, ?_, ?_, ?_⟩
      · exact fun c hc => List.mem_takeWhile_imp hc
      · intro c hc
        have hhead := List.head?_dropWhile_not Text.isDigit y
        rwa [hc] at hhead
      · exact List.takeWhile_append_dropWhile.symm
    rw [nameLength?_stem hds hy', List.append_assoc, List.append_assoc]
    cases y' with
    | nil =>
      rw [List.nil_append, nameLength?_stem hds (Lexing.not_isDigit_of_clear hrest)]
      have hclear : rest.head?.any Text.isWordChar = false := by
        cases hhead : rest.head? with
        | none => rfl
        | some c => exact hrest c hhead
      rw [hclear]
      cases ds <;> simp
    | cons c y' =>
      have hc : Text.isWordChar c = true := hw c (by simp)
      have hlonger : nameLength? (stem ++ (ds ++ c :: (y' ++ rest))) = _ :=
        nameLength?_stem hds fun d hd => hy' d hd
      rw [List.cons_append, hlonger]
      simp [hc]
  · have hno : ¬ stem <+: w ++ rest := fun h => hstem (stem_prefix_word hrest h)
    rw [← List.isPrefixOf_iff_prefix] at hstem hno
    simp [nameLength?, hstem, hno]

/-- A word that stands alone is replaced if it is the name of a hole that has a value. -/
theorem fillChars_word (hne : w ≠ []) (hw : ∀ c ∈ w, Text.isWordChar c = true)
    (hb : before.any Text.isWordChar = false) (hrest : Lexing.Clear rest)
    (hvalue : ∀ v, value (String.ofList w) = some v → isHole (String.ofList w) = true) :
    fillChars value before (w ++ rest) =
      ((value (String.ofList w)).getD (String.ofList w)).toList ++
        fillChars value (lastOf before w) rest := by
  obtain ⟨c, w, rfl⟩ := List.exists_cons_of_ne_nil hne
  have hlength := nameLength?_word hw hrest
  cases hhole : isHole (String.ofList (c :: w)) with
  | true =>
    rw [isHole, String.toList_ofList] at hhole
    rw [hhole, if_pos rfl] at hlength
    have hlast : lastOf before (c :: w) = some (w.getLastD c) := by
      simp [lastOf, List.getLast?_cons]
    have htake : (w ++ rest).take ((c :: w).length - 1) = w := List.take_left
    have hdrop : (w ++ rest).drop ((c :: w).length - 1) = rest := List.drop_left
    rw [List.cons_append] at hlength ⊢
    rw [fillChars, hb, if_neg (by decide), hlength]
    dsimp only
    rw [htake, hdrop, hlast]
  | false =>
    have hnone : value (String.ofList (c :: w)) = none := by
      cases hv : value (String.ofList (c :: w)) with
      | none => rfl
      | some v =>
        rw [hvalue v hv] at hhole
        cases hhole
    rw [isHole, String.toList_ofList] at hhole
    rw [hhole] at hlength
    have hc : (some c).any Text.isWordChar = true := hw c List.mem_cons_self
    rw [List.cons_append] at hlength ⊢
    rw [fillChars, hb, if_neg (by decide), hlength, if_neg (by decide)]
    dsimp only
    rw [fillChars_inside hc fun d hd => hw d (List.mem_cons_of_mem _ hd), hnone, Option.getD_none,
      String.toList_ofList, lastOf_cons, List.cons_append]

end Characters

abbrev Filling.numerals (f : Filling) : String → Option String := fun h =>
  (f.lookup h).map toString

end Holes

namespace While

open Layout Holes

def Token.fill (f : Filling) : Token → Token
  | name x =>
    match f.lookup x with
    | some n => numeral (toString n)
    | none => name x
  | t => t

def Layout.fill (f : Filling) (l : Layout) : Layout :=
  l.map (Option.map (Token.fill f))

section Texts

variable {f : Filling} {l : Layout} {before : Option Char} {rest : List Char}

theorem Mark.fillChars_text (m : Mark) {value : String → Option String} :
    fillChars value before (m.text.toList ++ rest) =
      m.text.toList ++ fillChars value (lastOf before m.text.toList) rest := by
  have hm : ('h' ∉ m.text.toList) ∨
      m.text.toList.head? ≠ some 'h' ∧ m.text.toList.all Text.isWordChar = true := by
    cases m <;> decide
  obtain hm | ⟨hhead, hall⟩ := hm
  · exact fillChars_keepAll hm
  · cases hcs : m.text.toList with
    | nil => rfl
    | cons c w =>
      rw [hcs] at hhead hall
      simp only [List.all_cons, Bool.and_eq_true, List.all_eq_true] at hall
      have hc : c ≠ 'h' := by simpa using hhead
      have hword : (some c).any Text.isWordChar = true := hall.1
      rw [List.cons_append, fillChars_keep (.inr hc), fillChars_inside hword hall.2, lastOf_cons]
      rfl

theorem not_mem_numeral {s : String} (hs : isNumeral s = true) : 'h' ∉ s.toList := by
  have hdigit : Text.isDigit 'h' = false := rfl
  obtain ⟨c, ds, hcs, hds, hc⟩ := isNumeral_chars hs
  rw [hcs, List.mem_cons, not_or]
  constructor
  · rintro rfl
    simp [hdigit] at hc
  · intro hmem
    rw [hds _ hmem] at hdigit
    cases hdigit

/-- Only names are replaced, and these only if they stand alone. -/
theorem Token.fillChars_text (hf : ∀ x n, f.lookup x = some n → isHole x = true) {t : Token}
    (ht : t.Stands rest) (hb : ∀ x, t = .name x → before.any Text.isWordChar = false) :
    fillChars f.numerals before (t.text.toList ++ rest) =
      (t.fill f).text.toList ++ fillChars f.numerals (lastOf before t.text.toList) rest := by
  cases t with
  | name x =>
    obtain ⟨c, cs, hcs, -, hall, -⟩ := isName_chars ht.1
    rw [← hcs] at hall
    have hvalue : ∀ v, f.numerals (String.ofList x.toList) = some v →
        isHole (String.ofList x.toList) = true := by
      intro v hv
      rw [String.ofList_toList] at hv ⊢
      obtain ⟨n, hn, -⟩ := Option.map_eq_some_iff.mp hv
      exact hf x n hn
    have hword := fillChars_word (by simp [hcs]) hall (hb x rfl) ht.2 hvalue
    rw [String.ofList_toList] at hword
    rw [Token.text, hword, Token.fill, Filling.numerals]
    cases f.lookup x <;> rfl
  | numeral s => exact fillChars_keepAll (not_mem_numeral ht.1)
  | sign op => exact fillChars_keepAll (by cases op <;> decide)
  | hole => exact fillChars_keepAll (by decide)
  | mark m => exact m.fillChars_text

theorem fillChars_render (hf : ∀ x n, f.lookup x = some n → isHole x = true)
    (hl : l.IsChain Apart) (hproper : ∀ t, some t ∈ l → Proper t)
    (hb : ∀ x, l.head? = some (some (.name x)) → before.any Text.isWordChar = false) :
    fillChars f.numerals before (render l) = render (l.fill f) := by
  induction l generalizing before with
  | nil => rw [render_nil, fillChars]; rfl
  | cons g l ih =>
    have htail := hl.tail
    have hrest : ∀ t, some t ∈ l → Proper t := fun t ht => hproper t (List.mem_cons_of_mem _ ht)
    rw [render_cons]
    cases g with
    | none =>
      rw [chars, fillChars_keepAll (by decide), ih htail hrest fun _ _ => rfl]
      rfl
    | some t =>
      have halone : ∀ x, t = .name x → before.any Text.isWordChar = false := by
        rintro x rfl
        exact hb x rfl
      rw [chars, Token.fillChars_text hf (stands_render hl (hproper t List.mem_cons_self)) halone,
        ih htail hrest]
      · rfl
      · intro x hx
        obtain ⟨l', rfl⟩ : ∃ l', l = some (.name x) :: l' := List.head?_eq_some_iff.mp hx
        obtain rfl | ⟨hclosing, -⟩ := (List.isChain_cons_cons.mp hl).1
        · rfl
        · cases hclosing

/-- Filling a text that has been laid out is filling the layout. -/
theorem fill_render (hf : ∀ x n, f.lookup x = some n → isHole x = true) (hl : Spaced l)
    (hproper : ∀ t, some t ∈ l → Proper t) :
    Holes.fill f (String.ofList (render l)) = String.ofList (render (l.fill f)) := by
  rw [Holes.fill, fillWith, String.toList_ofList]
  exact congrArg String.ofList (fillChars_render hf hl.chain hproper fun _ _ => rfl)

theorem Token.fill_ne_sign {t : Token} (ht : ∀ op, t ≠ .sign op) (op : Operator) :
    t.fill f ≠ .sign op := by
  cases t with
  | name x =>
    rw [Token.fill]
    cases f.lookup x <;> simp
  | sign op' => exact absurd rfl (ht op')
  | _ => simp [Token.fill]

theorem Layout.Apart.fill {g g' : Option Token} (h : Apart g g') :
    Apart (g.map (Token.fill f)) (g'.map (Token.fill f)) := by
  cases g with
  | none => trivial
  | some t =>
    cases g' with
    | none => trivial
    | some u =>
      obtain rfl | ⟨rfl, ht⟩ := h
      · exact .inl rfl
      · exact .inr ⟨rfl, Token.fill_ne_sign ht⟩

theorem Layout.Spaced.fill (hl : Spaced l) : Spaced (l.fill f) where
  chain := (List.isChain_map _).mpr (hl.chain.imp fun _ _ h => h.fill)
  last := by
    intro g hg
    rw [Layout.fill, List.getLast?_map] at hg
    obtain ⟨g', hg', rfl⟩ := Option.map_eq_some_iff.mp hg
    exact (hl.last g' hg').fill

theorem Layout.proper_fill (hproper : ∀ t, some t ∈ l → Proper t) :
    ∀ t, some t ∈ l.fill f → Proper t := by
  intro t ht
  obtain ⟨g, hg, hgt⟩ := List.mem_map.mp ht
  obtain ⟨u, rfl, rfl⟩ := Option.map_eq_some_iff.mp hgt
  have hu := hproper u hg
  cases u with
  | name x =>
    rw [Token.fill]
    cases f.lookup x with
    | none => exact hu
    | some n => exact ⟨n, rfl⟩
  | _ => exact hu

end Texts

section Programs

variable {f : Filling}

theorem Expr.layout_fill (e : Expr) : (e.fill f).layout = e.layout.fill f := by
  induction e with
  | var x =>
    rw [Expr.fill]
    cases hx : f.lookup x <;> simp [layout, Layout.fill, Token.fill, hx]
  | num n => rfl
  | operate op a b iha ihb => simp [Expr.fill, layout, bracket, iha, ihb, Layout.fill, Token.fill]
  | invalid _ => rfl

theorem Stmt.layout_fill {c : Stmt} (hf : ∀ x ∈ c.assigned, f.lookup x = none) :
    (c.fill f).layout = c.layout.fill f := by
  induction c with
  | skip => rfl
  | assign x e =>
    have hx := hf x (by simp [assigned])
    simp [fill, layout, e.layout_fill, Layout.fill, Token.fill, hx]
  | seq a b iha ihb =>
    have ha := iha fun x hx => hf x (by simp [assigned, hx])
    have hb := ihb fun x hx => hf x (by simp [assigned, hx])
    simp [fill, layout, ha, hb, Layout.fill, Token.fill]
  | ite c a b iha ihb | step c a b iha ihb =>
    have ha := iha fun x hx => hf x (by simp [assigned, hx])
    have hb := ihb fun x hx => hf x (by simp [assigned, hx])
    simp [fill, layout, conditionalLayout, bracket, c.layout_fill, ha, hb, Layout.fill, Token.fill]
  | loop c body ih =>
    simp [fill, layout, bracket, c.layout_fill, ih hf, Layout.fill, Token.fill]
  | assert c | exit c => simp [fill, layout, c.layout_fill, Layout.fill, Token.fill]
  | invalid _ => rfl

open Token (mark) in
theorem Stmt.becomes_infix_tokens {x : String} {c : Stmt} (hx : x ∈ c.assigned) :
    [.name x, .mark .becomes] <:+: c.tokens := by
  induction c with
  | skip | assert c | exit c | invalid _ => simp [assigned] at hx
  | assign y e =>
    obtain rfl : x = y := by simpa [assigned] using hx
    rw [tokens_assign]
    exact (List.prefix_append [.name x, mark .becomes] e.tokens).isInfix
  | seq a b iha ihb =>
    rw [tokens_seq]
    obtain hx | hx := List.mem_append.mp hx
    · exact (iha hx).trans ⟨[], mark .next :: b.tokens, by simp⟩
    · exact (ihb hx).trans ⟨a.tokens ++ [mark .next], [], by simp⟩
  | ite c a b iha ihb =>
    rw [tokens_ite]
    obtain hx | hx := List.mem_append.mp hx
    · exact (iha hx).trans ⟨mark .cond :: (c.tokens ++ [mark .yes, mark .opening]),
        mark .closing :: mark .no :: mark .opening :: (b.tokens ++ [mark .closing]), by simp⟩
    · exact (ihb hx).trans ⟨mark .cond :: (c.tokens ++ mark .yes :: mark .opening :: (a.tokens ++
        [mark .closing, mark .no, mark .opening])), [mark .closing], by simp⟩
  | step c a b iha ihb =>
    rw [tokens_step]
    obtain hx | hx := List.mem_append.mp hx
    · exact (iha hx).trans ⟨mark .condStep :: (c.tokens ++ [mark .yes, mark .opening]),
        mark .closing :: mark .no :: mark .opening :: (b.tokens ++ [mark .closing]), by simp⟩
    · exact (ihb hx).trans ⟨mark .condStep :: (c.tokens ++ mark .yes :: mark .opening ::
        (a.tokens ++ [mark .closing, mark .no, mark .opening])), [mark .closing], by simp⟩
  | loop c body ih =>
    rw [tokens_loop]
    exact (ih hx).trans ⟨mark .loop :: (c.tokens ++ [mark .body, mark .opening]),
      [mark .closing], by simp⟩

/-- Where something is assigned there is still a name, so that name has not been replaced. -/
theorem lookup_of_becomes {p : Place} {ts : List Token} {x : String}
    (hts : (p.follow (ts.map (Token.fill f))).isSome = true)
    (hx : [.name x, .mark .becomes] <:+: ts) : f.lookup x = none := by
  obtain ⟨y, hy⟩ := Place.name_of_becomes hts (hx.map (Token.fill f))
  cases hlookup : f.lookup x with
  | none => rfl
  | some n => simp [Token.fill, hlookup] at hy

/-- Putting values into the text of a program gives the text of the program with the values. -/
theorem Stmt.text_fill {c : Stmt} (hvars : ∀ x ∈ c.vars, isName x = true)
    (hf : ∀ x n, f.lookup x = some n → isHole x = true)
    (hassigned : ∀ x ∈ c.assigned, f.lookup x = none) :
    Holes.fill f c.text = (c.fill f).text := by
  rw [Stmt.text, fill_render hf c.layout_spaced (Stmt.layout_proper hvars),
    ← Stmt.layout_fill hassigned, Stmt.text]

/-- If a printed program can be read after its holes have been filled in the text, no assigned
variable has been replaced, and what is read is the program with its holes filled. -/
theorem StmtTree.of_parse_fill {c : Stmt} {t u : Tree Label} (ht : StmtTree c t)
    (hvars : ∀ x ∈ c.vars, isName x = true) (hf : ∀ x n, f.lookup x = some n → isHole x = true)
    (h : parse (Holes.fill f c.text) = .ok (some u)) :
    (∀ x ∈ c.assigned, f.lookup x = none) ∧ StmtTree (c.fill f).chained u := by
  have hproper := Stmt.layout_proper hvars
  have hassigned : ∀ x ∈ c.assigned, f.lookup x = none := by
    rw [Stmt.text, fill_render hf c.layout_spaced hproper] at h
    obtain ⟨c', hc', -⟩ := parse_render c.layout_spaced.fill (proper_fill hproper) h
    have hfollow : (Place.statement.follow (c.tokens.map (Token.fill f))).isSome = true := by
      rw [Layout.fill, List.reduceOption_map] at hc'
      rw [Stmt.tokens, hc'.follow]
      rfl
    exact fun x hx => lookup_of_becomes hfollow (Stmt.becomes_infix_tokens hx)
  rw [Stmt.text_fill hvars hf hassigned] at h
  refine ⟨hassigned, (ht.fill hassigned).of_parse_text (fun x hx => ?_) h⟩
  rw [Stmt.vars_fill hassigned] at hx
  exact hvars x (List.mem_filter.mp hx).1

end Programs

end While

end WhileSketch
