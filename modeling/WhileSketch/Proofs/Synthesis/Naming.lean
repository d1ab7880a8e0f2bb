import Mathlib
import WhileSketch.Proofs.Synthesis.FilledText
import WhileSketch.Proofs.While.Succession

/-! Program texts with names in place of the question marks. If no hole stands directly beside a
word, the names stand for the holes and nothing else changes. If one does, its name is read together
with that word, and the text with names is that of no program. -/

namespace WhileSketch

namespace Holes

section Characters

variable {i : Nat} {c : Char} {w cs : List Char}

def named (i : Nat) (cs : List Char) : List Char :=
  (nameChars i cs).1

@[simp] theorem named_nil : named i [] = [] :=
  rfl

@[simp] theorem named_hole : named i ('?' :: '?' :: cs) = (name i).toList ++ named (i + 1) cs :=
  rfl

theorem not_hole_of_ne (h : '?' ≠ c) : ¬ ['?', '?'] <+: c :: cs := by
  rintro ⟨rest, hrest⟩
  exact h (List.cons.inj hrest).1

theorem named_cons (h : ¬ ['?', '?'] <+: c :: cs) : named i (c :: cs) = c :: named i cs := by
  unfold named
  rw [nameChars]
  rintro rest rfl rfl
  exact h ⟨rest, rfl⟩

theorem named_append (hw : '?' ∉ w) : named i (w ++ cs) = w ++ named i cs := by
  induction w with
  | nil => rfl
  | cons d w ih =>
    rw [List.mem_cons, not_or] at hw
    rw [List.cons_append, named_cons (not_hole_of_ne hw.1), ih hw.2, List.cons_append]

theorem snd_nameChars_cons (h : ¬ ['?', '?'] <+: c :: cs) :
    (nameChars i (c :: cs)).2 = (nameChars i cs).2 := by
  rw [nameChars]
  rintro rest rfl rfl
  exact h ⟨rest, rfl⟩

theorem snd_nameChars_append (hw : '?' ∉ w) :
    (nameChars i (w ++ cs)).2 = (nameChars i cs).2 := by
  induction w with
  | nil => rfl
  | cons d w ih =>
    rw [List.mem_cons, not_or] at hw
    rw [List.cons_append, snd_nameChars_cons (not_hole_of_ne hw.1), ih hw.2]

theorem head_name : ∃ cs, (name i).toList = 'h' :: cs := by
  rw [name, String.toList_append]
  exact ⟨_, rfl⟩

theorem head_named {d : Char} (h : (named i cs).head? = some d) :
    cs.head? = some d ∨ d = 'h' ∧ ['?', '?'] <+: cs := by
  by_cases hcs : ['?', '?'] <+: cs
  · right
    obtain ⟨rest, rfl⟩ := hcs
    obtain ⟨tail, htail⟩ : ∃ cs, (name i).toList = 'h' :: cs := head_name
    rw [List.cons_append, List.cons_append, List.nil_append, named_hole, htail] at h
    exact ⟨(Option.some.inj h).symm, rest, rfl⟩
  · left
    cases cs with
    | nil => simp at h
    | cons c cs =>
      rw [named_cons hcs] at h
      exact h

/-- Whether a hole stands directly beside a word character. -/
def touches : List Char → Bool
  | '?' :: '?' :: rest => rest.head?.any Text.isWordChar || touches rest
  | c :: rest => Text.isWordChar c && ['?', '?'].isPrefixOf rest || touches rest
  | [] => false

theorem touches_hole :
    touches ('?' :: '?' :: cs) = (cs.head?.any Text.isWordChar || touches cs) :=
  rfl

theorem touches_cons (h : ¬ ['?', '?'] <+: c :: cs) :
    touches (c :: cs) = (Text.isWordChar c && ['?', '?'].isPrefixOf cs || touches cs) := by
  rw [touches]
  rintro rest rfl rfl
  exact h ⟨rest, rfl⟩

theorem touches_append (hw : '?' ∉ w) : touches (w ++ cs) =
    (w.getLast?.any Text.isWordChar && ['?', '?'].isPrefixOf cs || touches cs) := by
  induction w with
  | nil => rfl
  | cons d w ih =>
    rw [List.mem_cons, not_or] at hw
    rw [List.cons_append, touches_cons (not_hole_of_ne hw.1), ih hw.2]
    cases w with
    | nil => simp
    | cons e w =>
      have he : '?' ≠ e := by
        rintro rfl
        exact hw.2 List.mem_cons_self
      rw [List.getLast?_cons_cons]
      simp [he]

theorem head_of_clear_named (h : Lexing.Clear (named i cs)) :
    cs.head?.any Text.isWordChar = false := by
  cases cs with
  | nil => rfl
  | cons c cs =>
    by_cases hcs : ['?', '?'] <+: c :: cs
    · obtain ⟨rest, hrest⟩ := hcs
      rw [← (List.cons.inj hrest).1]
      rfl
    · rw [named_cons hcs] at h
      exact h c rfl

end Characters

end Holes

namespace While

open Holes Place

open Lexing (Clear clear_nil clear_cons)

section Tokens

def nameTokens (i : Nat) : List Token → List Token
  | [] => []
  | .hole :: ts => .name (Holes.name i) :: nameTokens (i + 1) ts
  | t :: ts => t :: nameTokens i ts

variable {i : Nat} {t : Token} {c : Char} {w cs rest : List Char} {ts us : List Token}

theorem nameTokens_cons (ht : t ≠ .hole) : nameTokens i (t :: ts) = t :: nameTokens i ts := by
  rw [nameTokens]
  exact ht

theorem Skipped.named (h : Skipped c cs) : Skipped c (named i cs) := by
  refine h.of_head fun d hd => ?_
  obtain hd | ⟨rfl, -⟩ := head_named hd
  · exact .inl hd
  · right
    decide

theorem Token.Stands.named (h : t.Stands cs)
    (hword : (∃ x, t = .name x) ∨ t.text ∈ keywords → ¬ ['?', '?'] <+: cs) :
    t.Stands (named i cs) := by
  have hclear : Clear cs → ¬ ['?', '?'] <+: cs → Clear (Holes.named i cs) := by
    intro hcs hhole d hd
    obtain hd | ⟨-, hd⟩ := head_named hd
    · exact hcs d hd
    · exact absurd hd hhole
  have hdigit : (∀ d ∈ cs.head?, Text.isDigit d = false) →
      ∀ d ∈ (Holes.named i cs).head?, Text.isDigit d = false := by
    intro hcs d hd
    obtain hd | ⟨rfl, -⟩ := head_named hd
    · exact hcs d hd
    · rfl
  cases t with
  | name x => exact ⟨h.1, hclear h.2 (hword (.inl ⟨x, rfl⟩))⟩
  | numeral s => exact ⟨h.1, hdigit h.2⟩
  | sign op =>
    refine ⟨fun hop => hdigit (h.1 hop), fun hop hequal => ?_⟩
    obtain hd | ⟨hd, -⟩ := head_named hequal
    · exact h.2 hop hd
    · cases hd
  | hole => trivial
  | mark m => exact fun hm => hclear (h hm) (hword (.inr hm))

theorem Token.Stands.not_mem_text (h : t.Stands rest) (ht : t ≠ .hole) : '?' ∉ t.text.toList := by
  have hword : Text.isWordChar '?' = false := rfl
  intro hmem
  cases t with
  | name x =>
    obtain ⟨c, cs, hcs, -, hall, -⟩ := isName_chars h.1
    rw [Token.text, hcs] at hmem
    rw [hall _ hmem] at hword
    cases hword
  | numeral s =>
    obtain ⟨c, ds, hcs, hds, hc⟩ := isNumeral_chars h.1
    rw [Token.text, hcs] at hmem
    obtain rfl | hmem := List.mem_cons.mp hmem
    · obtain ⟨hc, -⟩ | hc := hc
      · revert hc
        decide
      · rw [Text.isWordChar_of_isDigit hc] at hword
        cases hword
    · rw [Text.isWordChar_of_isDigit (hds _ hmem)] at hword
      cases hword
  | sign op => cases op <;> revert hmem <;> decide
  | hole => exact ht rfl
  | mark m => cases m <;> revert hmem <;> decide

theorem Lexes.unique (h : Lexes cs ts) (h' : Lexes cs us) : ts = us :=
  Token.word_injective.list_map (h.words_eq.symm.trans h'.words_eq)

theorem Lexes.token_inv (ht : t.Stands rest) (h : Lexes (t.text.toList ++ rest) ts) :
    ∃ us, ts = t :: us ∧ Lexes rest us := by
  obtain ⟨us, hus⟩ := exists_lexes rest
  exact ⟨us, h.unique (.token ht hus), hus⟩

structure HoleWord (w : List Char) : Prop where
  head : ∀ c ∈ w.head?, Text.isNameStart c = true
  word : ∀ c ∈ w, Text.isWordChar c = true
  stem : stem <:+: w

theorem HoleWord.isName (h : HoleWord w) : isName (String.ofList w) = true := by
  have hkeyword : ∀ x ∈ keywords, ¬ Holes.stem <:+: x.toList := by decide
  have hne : w ≠ [] := by
    rintro rfl
    have := List.eq_nil_of_infix_nil h.stem
    simp [Holes.stem_eq] at this
  obtain ⟨c, cs, rfl⟩ := List.exists_cons_of_ne_nil hne
  have hkey : String.ofList (c :: cs) ∉ keywords := by
    intro hmem
    apply hkeyword _ hmem
    rw [String.toList_ofList]
    exact h.stem
  rw [While.isName, String.toList_ofList, List.all_eq_true.mpr h.word]
  simp only [List.head?_cons, Option.any_some, h.head c rfl, Bool.true_and, Bool.not_eq_true']
  simpa using hkey

theorem HoleWord.append {v : List Char} (h : HoleWord w) (hv : ∀ c ∈ v, Text.isWordChar c = true) :
    HoleWord (w ++ v) where
  head := by
    intro c hc
    cases w with
    | nil =>
      have hstem := List.eq_nil_of_infix_nil h.stem
      simp [Holes.stem_eq] at hstem
    | cons d w => exact h.head c hc
  word := by
    intro c hc
    exact (List.mem_append.mp hc).elim (h.word c) (hv c)
  stem := h.stem.trans (List.prefix_append w v).isInfix

theorem HoleWord.name (hw : w = [] ∨ ∃ x ∈ keywords, w = x.toList) (i : Nat) :
    HoleWord (w ++ (Holes.name i).toList) := by
  have hname : (Holes.name i).toList = Holes.stem ++ Nat.toDigits 10 i := by
    rw [Holes.name, String.toList_append, Nat.toString_eq_repr, Nat.toList_repr]
    rfl
  have hword : ∀ c ∈ (Holes.name i).toList, Text.isWordChar c = true := by
    rw [hname]
    intro c hc
    obtain hc | hc := List.mem_append.mp hc
    · exact isWordChar_of_mem_stem hc
    · have hdigit : c.isDigit = true := Nat.isDigit_of_mem_toDigits (by decide) (by decide) hc
      exact Text.isWordChar_of_isDigit (Text.isDigit_of_ascii hdigit)
  have hinfix : Holes.stem <:+: w ++ (Holes.name i).toList :=
    ⟨w, Nat.toDigits 10 i, by rw [hname, List.append_assoc]⟩
  obtain rfl | ⟨x, hx, rfl⟩ := hw
  · refine ⟨?_, hword, hinfix⟩
    obtain ⟨cs, hcs⟩ : ∃ cs, (Holes.name i).toList = 'h' :: cs := head_name
    rw [List.nil_append, hcs]
    rintro c ⟨⟩
    decide
  · obtain ⟨c, cs, hcs, hstart, hall⟩ := keyword_chars hx
    rw [hcs] at hinfix ⊢
    refine ⟨?_, fun d hd => ?_, hinfix⟩
    · rintro d ⟨⟩
      exact hstart
    · exact (List.mem_append.mp hd).elim (hall d) (hword d)

/-- Each token is an old one, or a name in which that of a hole is contained. -/
def Traced (ts us : List Token) : Prop :=
  ∀ u ∈ us, u ∈ ts ∨ ∃ x, u = .name x ∧ stem <:+: x.toList

theorem Traced.tail {u : Token} (h : Traced ts (u :: us)) : Traced ts us :=
  fun v hv => h v (List.mem_cons_of_mem u hv)

theorem Traced.cons {u : Token} (h : Traced ts us)
    (hu : u = t ∨ ∃ x, u = .name x ∧ stem <:+: x.toList) : Traced (t :: ts) (u :: us) := by
  intro v hv
  obtain rfl | hv := List.mem_cons.mp hv
  · obtain rfl | hu := hu
    · exact .inl List.mem_cons_self
    · exact .inr hu
  · exact (h v hv).imp_left (List.mem_cons_of_mem t)

/-- What has become of tokens: if no hole touches a word, the holes have got names and nothing else
has changed; if one does, there are more operands than needed now, or as many as before and fewer
parts. -/
structure Kept (i : Nat) (touching : Bool) (ts us : List Token) : Prop where
  surplus_le : surplus ts ≤ surplus us
  parts_le : surplus ts = surplus us → parts us ≤ parts ts
  same : touching = false → us = nameTokens i ts
  lost : touching = true → surplus ts = surplus us → parts us < parts ts
  traced : Traced ts us

theorem Kept.cons {touching : Bool} (ht : t ≠ .hole) (h : Kept i touching ts us) :
    Kept i touching (t :: ts) (t :: us) where
  surplus_le := by simpa using h.surplus_le
  parts_le := by simpa using h.parts_le
  same htouch := by rw [nameTokens_cons ht, h.same htouch]
  lost htouch := by simpa using h.lost htouch
  traced := h.traced.cons (.inl rfl)

/-- In front of a hole there is no name, and if there is a keyword, it needs an operand. -/
theorem surplus_of_next_operand {p : Place} (h : p.next t = some operand)
    (ht : (∃ x, t = .name x) ∨ t.text ∈ keywords) : t.text ∈ keywords ∧ t.surplus = -1 := by
  cases t with
  | name x | numeral s | hole => cases p <;> simp [next] at h
  | sign op =>
    have hop : op.programSign ∉ keywords := by cases op <;> decide
    simp [Token.text, hop] at ht
  | mark m =>
    have hm : m.text ∈ keywords := by simpa [Token.text] using ht
    refine ⟨hm, ?_⟩
    cases p <;> cases m <;> simp [next] at h <;> first | rfl | exact absurd hm (by decide)

/-- Behind an operand, a token that could be read with it stands in front of a part. -/
theorem parts_of_next_finished {q : Place} (h : finished.next t = some q)
    (hword : ¬ Clear (t.text.toList ++ rest)) :
    q = statement ∧ ∃ m : Mark, t = .mark m ∧ m.text ∈ keywords ∧ t.surplus = 0 ∧ t.parts = 1 := by
  cases t with
  | name x | numeral s | hole => simp [next] at h
  | sign op =>
    refine absurd ?_ hword
    cases op <;> exact clear_cons rfl
  | mark m =>
    cases m with
    | closing | next => exact absurd (clear_cons rfl) hword
    | yes | no | body =>
      cases h
      exact ⟨rfl, _, rfl, by decide, rfl, rfl⟩
    | _ => simp [Place.next] at h

theorem isName_name (i : Nat) : isName (Holes.name i) = true := by
  have hname := (HoleWord.name (.inl rfl) i).isName
  rwa [List.nil_append, String.ofList_toList] at hname

theorem Lexes.name_inv (h : Lexes ((Holes.name i).toList ++ cs) us) :
    ∃ v rest us', (∀ c ∈ v, Text.isWordChar c = true) ∧ Clear rest ∧ cs = v ++ rest ∧
      us = .name (String.ofList ((Holes.name i).toList ++ v)) :: us' ∧ Lexes rest us' := by
  have hsplit : cs.takeWhile Text.isWordChar ++ cs.dropWhile Text.isWordChar = cs :=
    List.takeWhile_append_dropWhile
  have hv : ∀ c ∈ cs.takeWhile Text.isWordChar, Text.isWordChar c = true :=
    fun c hc => List.mem_takeWhile_imp hc
  have hclear : Clear (cs.dropWhile Text.isWordChar) := by
    intro d hd
    have hhead := List.head?_dropWhile_not Text.isWordChar cs
    rwa [hd] at hhead
  have hstands : (Token.name (String.ofList
      ((Holes.name i).toList ++ cs.takeWhile Text.isWordChar))).Stands
      (cs.dropWhile Text.isWordChar) :=
    ⟨((HoleWord.name (.inl rfl) i).append hv).isName, hclear⟩
  rw [← hsplit, ← List.append_assoc] at h
  obtain ⟨us', hus, hrest⟩ := Lexes.token_inv hstands (by rwa [Token.text, String.toList_ofList])
  exact ⟨_, _, us', hv, hclear, hsplit.symm, hus, hrest⟩

/-- A word in front of a name of a hole makes one name with it. -/
theorem Lexes.join (hw : ∃ x ∈ keywords, w = x.toList)
    (h : Lexes ((Holes.name i).toList ++ cs) us) :
    ∃ x x' us', us = .name x :: us' ∧ stem <:+: x'.toList ∧
      Lexes (w ++ ((Holes.name i).toList ++ cs)) (.name x' :: us') := by
  obtain ⟨v, rest, us', hv, hrest, rfl, rfl, hus⟩ := h.name_inv
  have hword := (HoleWord.name (.inr hw) i).append hv
  have hlexes := Lexes.token (t := .name _) ⟨hword.isName, hrest⟩ hus
  rw [Token.text, String.toList_ofList, List.append_assoc, List.append_assoc] at hlexes
  exact ⟨_, _, us', rfl, by rw [String.toList_ofList]; exact hword.stem, hlexes⟩

/-- A hole gets a name, unless that name is read together with the word that stands in front of a
part. Then there is one part less. -/
theorem Lexes.named_hole (h : Lexes cs ts) (hts : (finished.follow ts).isSome = true)
    (hus : Lexes (Holes.named (i + 1) cs) us) (hkept : Kept (i + 1) (touches cs) ts us) :
    ∃ us, Lexes ((Holes.name i).toList ++ Holes.named (i + 1) cs) us ∧
      Kept i (touches ('?' :: '?' :: cs)) (.hole :: ts) us := by
  have hword : HoleWord (Holes.name i).toList := HoleWord.name (.inl rfl) i
  by_cases hclear : Clear (Holes.named (i + 1) cs)
  · have hlexes := Lexes.token (t := .name _) ⟨isName_name i, hclear⟩ hus
    rw [touches_hole, head_of_clear_named hclear, Bool.false_or]
    refine ⟨.name (Holes.name i) :: us, hlexes, ?_, ?_, fun htouch => ?_, ?_, ?_⟩
    · simpa using hkept.surplus_le
    · simpa using hkept.parts_le
    · rw [nameTokens, hkept.same htouch]
    · simpa using hkept.lost
    · exact hkept.traced.cons (.inr ⟨_, rfl, hword.stem⟩)
  · cases h with
    | nil => exact absurd clear_nil hclear
    | skip hc _ =>
      rw [named_cons (hc.2 "??" (by decide))] at hclear
      exact absurd (clear_cons hc.1) hclear
    | @token t rest ts ht h =>
      obtain ⟨q, hq, hnext⟩ := isSome_follow_cons hts
      have hhole : t ≠ .hole := by
        rintro rfl
        simp [next] at hq
      rw [named_append (ht.not_mem_text hhole)] at hclear hus ⊢
      have hbeside : ¬ Clear (t.text.toList ++ rest) := by
        obtain ⟨c, cs, hcs⟩ := List.exists_cons_of_ne_nil (Token.text_ne_nil ht)
        rw [hcs] at hclear ⊢
        exact hclear
      obtain ⟨rfl, m, rfl, hm, hsurplus, hparts⟩ := parts_of_next_finished hq hbeside
      have hstands : (Token.mark m).Stands (Holes.named (i + 1) rest) := by
        refine ht.named fun _ hrest => ?_
        obtain ⟨rest, rfl⟩ := hrest
        obtain ⟨ts, rfl, -⟩ : ∃ us, ts = .hole :: us ∧ Lexes rest us := h.token_inv trivial
        simp [next] at hnext
      obtain ⟨us, rfl, hafter⟩ := Lexes.token_inv hstands hus
      obtain ⟨c, cs, hcs, -, hall⟩ := keyword_chars hm
      have hjoined := hword.append (hcs ▸ hall)
      have hlexes := Lexes.token (t := .name _) ⟨hjoined.isName, hstands hm⟩ hafter
      rw [Token.text, String.toList_ofList, List.append_assoc] at hlexes
      have htouch : touches ('?' :: '?' :: ((Token.mark m).text.toList ++ rest)) = true := by
        rw [touches_hole, Token.text, hcs, List.cons_append, List.head?_cons, Option.any_some,
          hall c List.mem_cons_self, Bool.true_or]
      rw [htouch]
      have hle := hkept.surplus_le
      have hfewer := hkept.parts_le
      simp only [surplus_cons, parts_cons] at hle hfewer
      have hstem : stem <:+: (String.ofList ((Holes.name i).toList ++ m.text.toList)).toList := by
        rw [String.toList_ofList]
        exact hjoined.stem
      refine ⟨_, hlexes, ?_, fun heq => ?_, by simp, fun _ heq => ?_,
        hkept.traced.tail.cons (.inr ⟨_, rfl, hstem⟩)⟩
      · simp only [surplus_cons, hsurplus, Token.surplus_hole, Token.surplus_name]
        omega
      · simp only [surplus_cons, hsurplus, Token.surplus_hole, Token.surplus_name] at heq
        simp only [parts_cons, hparts, Token.parts_hole, Token.parts_name]
        omega
      · simp only [surplus_cons, hsurplus, Token.surplus_hole, Token.surplus_name] at heq
        simp only [parts_cons, hparts, Token.parts_hole, Token.parts_name]
        omega

theorem Token.word_or_numeral (hlast : t.text.toList.getLast?.any Text.isWordChar = true) :
    ((∃ x, t = .name x) ∨ t.text ∈ keywords) ∨ ∃ s, t = .numeral s := by
  cases t with
  | name x => exact .inl (.inl ⟨x, rfl⟩)
  | numeral s => exact .inr ⟨s, rfl⟩
  | sign op => cases op <;> cases hlast
  | hole => cases hlast
  | mark m =>
    left
    right
    cases m with
    | opening | closing | next | becomes => cases hlast
    | _ => decide

theorem Token.Stands.last_word (h : t.Stands rest) (ht : (∃ x, t = .name x) ∨ t.text ∈ keywords) :
    t.text.toList.getLast?.any Text.isWordChar = true := by
  have hall : ∀ c ∈ t.text.toList, Text.isWordChar c = true := by
    obtain ⟨x, rfl⟩ | ht := ht
    · obtain ⟨c, cs, hcs, -, hall, -⟩ := isName_chars h.1
      rw [Token.text, hcs]
      exact hall
    · obtain ⟨c, cs, hcs, -, hall⟩ := keyword_chars ht
      rw [hcs]
      exact hall
  rw [List.getLast?_eq_some_getLast (Token.text_ne_nil h)]
  exact hall _ (List.getLast_mem _)

/-- The tokens of a text with names. -/
theorem Lexes.named (h : Lexes cs ts) (i : Nat) {p : Place} (hts : (p.follow ts).isSome = true) :
    ∃ us, Lexes (named i cs) us ∧ Kept i (touches cs) ts us := by
  induction h generalizing i p with
  | nil => exact ⟨[], .nil, le_rfl, fun _ => le_rfl, fun _ => rfl, by simp [touches], by simp [Traced]⟩
  | @skip c cs ts hc h ih =>
    obtain ⟨us, hus, hkept⟩ := ih i hts
    have hhole : ¬ ['?', '?'] <+: c :: cs := hc.2 "??" (by decide)
    rw [named_cons hhole, touches_cons hhole, hc.1, Bool.false_and, Bool.false_or]
    exact ⟨us, .skip hc.named hus, hkept⟩
  | @token t rest ts ht h ih =>
    obtain ⟨q, hq, hts⟩ := isSome_follow_cons hts
    by_cases hhole : t = .hole
    · subst hhole
      obtain rfl : finished = q := by
        cases p <;> simp_all [next]
      obtain ⟨us, hus, hkept⟩ := ih (i + 1) hts
      exact h.named_hole hts hus hkept
    · obtain ⟨us, hus, hkept⟩ := ih i hts
      rw [named_append (ht.not_mem_text hhole), touches_append (ht.not_mem_text hhole)]
      by_cases hjoin : ((∃ x, t = .name x) ∨ t.text ∈ keywords) ∧ ['?', '?'] <+: rest
      · obtain ⟨hword, rest, rfl⟩ := hjoin
        obtain ⟨ts, rfl, -⟩ : ∃ us, ts = .hole :: us ∧ Lexes rest us := h.token_inv trivial
        obtain rfl : operand = q := by
          cases q <;> simp [next] at hts ⊢
        obtain ⟨hkeyword, hsurplus⟩ := surplus_of_next_operand hq hword
        obtain ⟨x, x', us, rfl, hstem, hlexes⟩ := Lexes.join ⟨_, hkeyword, rfl⟩ hus
        have hmore : surplus (t :: .hole :: ts) < surplus (.name x' :: us) := by
          have hle := hkept.surplus_le
          simp only [surplus_cons, hsurplus, Token.surplus_hole, Token.surplus_name] at hle ⊢
          omega
        exact ⟨.name x' :: us, hlexes, hmore.le, fun heq => absurd heq hmore.ne,
          by simp [ht.last_word hword], fun _ heq => absurd heq hmore.ne,
          hkept.traced.tail.cons (.inr ⟨x', rfl, hstem⟩)⟩
      · have hstands : t.Stands (Holes.named i rest) :=
          ht.named fun hword hrest => hjoin ⟨hword, hrest⟩
        have hfree : (t.text.toList.getLast?.any Text.isWordChar && ['?', '?'].isPrefixOf rest) =
            false := by
          rw [Bool.and_eq_false_imp]
          intro hlast
          rw [← Bool.not_eq_true, List.isPrefixOf_iff_prefix]
          rintro ⟨rest, rfl⟩
          obtain hword | ⟨s, rfl⟩ := Token.word_or_numeral hlast
          · exact hjoin ⟨hword, rest, rfl⟩
          · obtain ⟨ts, rfl, -⟩ : ∃ us, ts = .hole :: us ∧ Lexes rest us := h.token_inv trivial
            obtain rfl : finished = q := by
              cases p <;> simp_all [next]
            simp [next] at hts
        rw [hfree, Bool.false_or]
        exact ⟨t :: us, .token hstands hus, hkept.cons hhole⟩

section Programs

variable {a b : Stmt}

theorem StmtText.kept (ha : StmtText a ts) (hts : Lexes cs ts)
    (hus : Lexes (Holes.named i cs) us) : Kept i (touches cs) ts us := by
  have hfollow : (statement.follow ts).isSome = true := by
    rw [ha.follow]
    rfl
  obtain ⟨vs, hvs, hkept⟩ := hts.named i hfollow
  obtain rfl := hvs.unique hus
  exact hkept

/-- If a text with holes and the one with names both are programs, then no hole touches a word. -/
theorem StmtText.not_touches (ha : StmtText a ts) (hts : Lexes cs ts) (hb : StmtText b us)
    (hus : Lexes (Holes.named i cs) us) : touches cs = false := by
  have hkept := ha.kept hts hus
  obtain ⟨hsurplus, hparts⟩ := ha.count
  obtain ⟨hsurplus', hparts'⟩ := hb.count
  by_contra htouch
  have hfewer := hkept.lost (by simpa using htouch) (hsurplus.trans hsurplus'.symm)
  omega

/-- If a text with holes and the one with names both are programs, then their tokens are the same
but for the names of the holes. -/
theorem StmtText.eq_nameTokens (ha : StmtText a ts) (hts : Lexes cs ts) (hb : StmtText b us)
    (hus : Lexes (Holes.named i cs) us) : us = nameTokens i ts :=
  (ha.kept hts hus).same (ha.not_touches hts hb hus)

end Programs

end Tokens

section Names

variable {i : Nat} {cs : List Char} {ts : List Token} {x : String}

theorem name_mem_nameTokens :
    .name x ∈ nameTokens i ts ↔
      .name x ∈ ts ∨ ∃ j, x = Holes.name j ∧ i ≤ j ∧ j < i + ts.count .hole := by
  induction ts generalizing i with
  | nil =>
    simp only [nameTokens, List.not_mem_nil, List.count_nil, false_or, false_iff, not_exists]
    rintro j ⟨-, hle, hlt⟩
    omega
  | cons t ts ih =>
    by_cases hhole : t = .hole
    · subst hhole
      rw [nameTokens, List.mem_cons, ih, List.mem_cons, List.count_cons_self]
      constructor
      · rintro (hx | hx | ⟨j, hx, hle, hlt⟩)
        · exact .inr ⟨i, Token.name.inj hx, le_rfl, by omega⟩
        · exact .inl (.inr hx)
        · exact .inr ⟨j, hx, by omega, by omega⟩
      · rintro ((hx | hx) | ⟨j, rfl, hle, hlt⟩)
        · cases hx
        · exact .inr (.inl hx)
        · obtain rfl | hlt' := Nat.eq_or_lt_of_le hle
          · exact .inl rfl
          · exact .inr (.inr ⟨j, rfl, hlt', by omega⟩)
    · rw [nameTokens_cons hhole, List.mem_cons, List.mem_cons, ih, List.count_cons_of_ne hhole,
        or_assoc]

theorem Lexes.snd_nameChars (h : Lexes cs ts) (i : Nat) :
    (nameChars i cs).2 = i + ts.count .hole := by
  induction h generalizing i with
  | nil => rfl
  | @skip c cs ts hc _ ih => rw [snd_nameChars_cons (hc.2 "??" (by decide)), ih]
  | @token t rest ts ht _ ih =>
    by_cases hhole : t = .hole
    · subst hhole
      rw [List.count_cons_self, ← Nat.add_assoc, Nat.add_right_comm, ← ih]
      rfl
    · rw [snd_nameChars_append (ht.not_mem_text hhole), ih, List.count_cons_of_ne hhole]

theorem Lexes.snd_nameAll {program : String} (h : Lexes program.toList ts) :
    (nameAll program).2 = (List.range (ts.count .hole)).map name := by
  have hcount := h.snd_nameChars 0
  rw [Nat.zero_add] at hcount
  rw [← hcount]
  rfl

theorem name_mem_of_becomes {p : Place} (hts : (p.follow ts).isSome = true) {us vs : List Token}
    (h : nameTokens i ts = us ++ .name x :: .mark .becomes :: vs) : .name x ∈ ts := by
  induction us generalizing i p ts with
  | nil =>
    cases ts with
    | nil => cases h
    | cons t ts =>
      obtain ⟨q, hq, hnext⟩ := isSome_follow_cons hts
      by_cases hhole : t = .hole
      · subst hhole
        rw [nameTokens, List.nil_append, List.cons.injEq] at h
        obtain rfl : finished = q := by
          cases p <;> simp_all [next]
        cases ts with
        | nil => cases h.2
        | cons u ts =>
          obtain ⟨q, hq, -⟩ := isSome_follow_cons hnext
          have hu : u = .mark .becomes := by
            cases u <;> simp_all [nameTokens]
          simp [hu, next] at hq
      · rw [nameTokens_cons hhole, List.nil_append, List.cons.injEq] at h
        rw [h.1]
        exact List.mem_cons_self
  | cons u us ih =>
    cases ts with
    | nil => cases h
    | cons t ts =>
      obtain ⟨q, -, hnext⟩ := isSome_follow_cons hts
      apply List.mem_cons_of_mem
      by_cases hhole : t = .hole
      · subst hhole
        rw [nameTokens, List.cons_append, List.cons.injEq] at h
        exact ih hnext h.2
      · rw [nameTokens_cons hhole, List.cons_append, List.cons.injEq] at h
        exact ih hnext h.2

/-- What a text with names denotes, next to what the text without names does. -/
theorem parse_named {program : String} {t₀ t : Tree Label} (h₀ : parse program = .ok (some t₀))
    (h : parse (nameAll program).1 = .ok (some t)) :
    ∃ a b ts, StmtTree a t₀ ∧ t = b.tree ∧ StmtText b (nameTokens 0 ts) ∧
      Lexes (nameAll program).1.toList (nameTokens 0 ts) ∧
      (∀ x, x ∈ b.vars ↔ x ∈ a.vars ∨ x ∈ (nameAll program).2) ∧ ∀ x ∈ b.assigned, x ∈ a.vars := by
  obtain ⟨ts, hts⟩ := exists_lexes program.toList
  obtain ⟨us, hus⟩ := exists_lexes (nameAll program).1.toList
  obtain ⟨a, ha, rfl⟩ := (parse_eq_some_iff hts.tokens_eq).mp h₀
  obtain ⟨b, hb, rfl⟩ := (parse_eq_some_iff hus.tokens_eq).mp h
  have hname : (nameAll program).1.toList = named 0 program.toList := String.toList_ofList
  have hholes := hts.snd_nameAll
  obtain rfl := ha.eq_nameTokens hts hb (hname ▸ hus)
  refine ⟨a, b, ts, ha.stmtTree, rfl, hb, hus, fun x => ?_, fun x hx => ?_⟩
  · rw [← hb.name_mem_iff, name_mem_nameTokens, ha.name_mem_iff, hholes, List.mem_map]
    simp only [List.mem_range, Nat.zero_le, Nat.zero_add, true_and]
    exact or_congr_right (exists_congr fun j => by rw [and_comm, eq_comm])
  · obtain ⟨us, vs, huv⟩ := hb.becomes_infix x hx
    have hfollow : (statement.follow ts).isSome = true := by
      rw [ha.follow]
      rfl
    rw [List.append_assoc] at huv
    exact (ha.name_mem_iff x).mp (name_mem_of_becomes hfollow huv.symm)

end Names

end While

end WhileSketch
