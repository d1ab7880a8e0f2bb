import Mathlib
import WhileSketch.Lambda.Pure
import WhileSketch.Lambda.Typed
import WhileSketch.Proofs.Lexing.Segments
import WhileSketch.While.Parsing

/-! Texts whose tokens are set apart by single blanks. A token is found again in front of a blank,
whatever followed it before, so such a text has the tokens it was made of. -/

namespace WhileSketch

def Language.respaced (l : Language) (text : String) : String :=
  " ".intercalate ((l.tokens text).map Word.text)

namespace Lexing

variable {classes : List TokenClass} {k : Shape} {a rest rest' : List Char} {tag : Option String}

/-- The text ends here, or a blank comes next. -/
def Spaced (cs : List Char) : Prop :=
  ∀ c ∈ cs.head?, c = ' '

theorem spaced_nil : Spaced [] := by
  intro c hc
  cases hc

theorem spaced_cons (cs : List Char) : Spaced (' ' :: cs) := by
  rintro c ⟨⟩
  rfl

section Shapes

theorem takeWhile_respaced {p : Char → Bool} (hp : p ' ' = false) (hrest : Spaced rest')
    (h : ((a ++ rest).takeWhile p).length ≤ a.length) :
    (a ++ rest').takeWhile p = (a ++ rest).takeWhile p := by
  have hstop : rest'.takeWhile p = [] := by
    cases rest' with
    | nil => rfl
    | cons c cs => rw [hrest c rfl, List.takeWhile_cons_of_neg (by simp [hp])]
  rw [List.takeWhile_append] at h ⊢
  rw [List.takeWhile_append]
  split_ifs at h ⊢ with hall
  · rw [List.length_append] at h
    rw [hstop, List.length_eq_zero_iff.mp (by omega : (rest.takeWhile p).length = 0)]
  · rfl

/-- Forms that do not look at what follows, and whose texts have no blanks. -/
def Shape.isPlain : Shape → Bool
  | keyword _ => false
  | name => true
  | numeral _ => true
  | spelling texts => texts.all fun s => !s.toList.contains ' '
  | run c => c != ' '

theorem isDigit_blank : Text.isDigit ' ' = false := by
  decide

theorem isWordChar_blank : Text.isWordChar ' ' = false := by
  decide +kernel

theorem prefix_of_prefix_respaced {s : List Char} (hs : ' ' ∉ s) (hrest : Spaced rest')
    (h : s <+: a ++ rest') : s <+: a := by
  obtain hshort | ⟨t, rfl⟩ := List.prefix_or_prefix_of_prefix h (List.prefix_append a rest')
  · exact hshort
  · have ht : t <+: rest' := (List.prefix_append_right_inj a).mp h
    cases t with
    | nil => simp
    | cons c t =>
      obtain ⟨u, rfl⟩ := ht
      rw [hrest c rfl] at hs
      simp at hs

theorem find?_respaced {texts : List String} (htexts : ∀ s ∈ texts, ' ' ∉ s.toList)
    (hrest : Spaced rest') {found : Option String}
    (h : texts.find? (fun s => s.toList.isPrefixOf (a ++ rest)) = found)
    (hle : ∀ s ∈ found, s.length ≤ a.length) :
    texts.find? (fun s => s.toList.isPrefixOf (a ++ rest')) = found := by
  have hback : ∀ s ∈ texts, s.toList.isPrefixOf (a ++ rest') = true →
      s.toList.isPrefixOf (a ++ rest) = true := by
    intro s hs hprefix
    rw [List.isPrefixOf_iff_prefix] at hprefix ⊢
    exact (prefix_of_prefix_respaced (htexts s hs) hrest hprefix).trans (List.prefix_append a rest)
  cases found with
  | none =>
    rw [List.find?_eq_none] at h ⊢
    exact fun s hs hprefix => h s hs (hback s hs hprefix)
  | some s =>
    obtain ⟨hfits, before, after, rfl, hbefore⟩ := List.find?_eq_some_iff_append.mp h
    refine List.find?_eq_some_iff_append.mpr ⟨?_, before, after, rfl, fun t ht => ?_⟩
    · have hlen : s.toList.length ≤ a.length := String.length_toList.trans_le (hle s rfl)
      rw [List.isPrefixOf_iff_prefix] at hfits ⊢
      exact (List.prefix_of_prefix_length_le hfits (List.prefix_append a rest) hlen).trans
        (List.prefix_append a rest')
    · have hnot := hbefore t ht
      rw [Bool.not_eq_true'] at hnot ⊢
      exact Bool.eq_false_of_not_eq_true fun htrue =>
        Bool.eq_false_iff.mp hnot (hback t (by simp [ht]) htrue)

theorem digitCount_respaced (hrest : Spaced rest') (h : digitCount (a ++ rest) ≤ a.length) :
    digitCount (a ++ rest') = digitCount (a ++ rest) := by
  rw [digitCount, digitCount, takeWhile_respaced isDigit_blank hrest h]

/-- A plain form reaches as far in front of a blank as it did, if that is within the text. -/
theorem Shape.reach_respaced (hk : k.isPlain = true) (ha : a ≠ []) (hrest : Spaced rest')
    (h : k.reach (a ++ rest) ≤ a.length) : k.reach (a ++ rest') = k.reach (a ++ rest) := by
  obtain ⟨c, cs, rfl⟩ := List.exists_cons_of_ne_nil ha
  cases k with
  | keyword words => cases hk
  | name =>
    simp only [List.cons_append, reach] at h ⊢
    split_ifs at h ⊢
    · rw [← List.cons_append, ← List.cons_append, takeWhile_respaced isWordChar_blank hrest h]
    · rfl
  | numeral signed =>
    simp only [List.cons_append, reach] at h ⊢
    by_cases hsign : (signed && (c == '+' || c == '-')) = true
    · rw [if_pos hsign] at h ⊢
      have hdigits : digitCount (cs ++ rest) ≤ cs.length := by
        rw [List.length_cons] at h
        split_ifs at h <;> omega
      rw [if_pos hsign, digitCount_respaced hrest hdigits]
    · rw [if_neg hsign] at h ⊢
      rw [if_neg hsign]
      exact digitCount_respaced (a := c :: cs) hrest h
  | spelling texts =>
    have htexts : ∀ s ∈ texts, ' ' ∉ s.toList := by simpa [isPlain] using hk
    simp only [reach] at h ⊢
    generalize hfound : texts.find? (fun s => s.toList.isPrefixOf (c :: cs ++ rest)) = found at h ⊢
    rw [find?_respaced htexts hrest hfound]
    rintro s ⟨⟩
    exact h
  | run d =>
    have hd : (' ' == d) = false := beq_eq_false_iff_ne.mpr fun heq => by simp [isPlain, ← heq] at hk
    rw [reach] at h ⊢
    rw [reach, takeWhile_respaced hd hrest h]

theorem Shape.reach_blank (hk : k.isPlain = true) (cs : List Char) : k.reach (' ' :: cs) = 0 := by
  cases k with
  | keyword words => cases hk
  | name => simp [reach, Text.isNameStart, isWordChar_blank]
  | numeral signed => simp [reach, digitCount, isDigit_blank]
  | spelling texts =>
    have htexts : ∀ s ∈ texts, ' ' ∉ s.toList := by simpa [isPlain] using hk
    rw [reach]
    split
    · rename_i s hs
      have hprefix := List.find?_some hs
      obtain hnil | ⟨t, ht, -⟩ := List.prefix_cons_iff.mp (List.isPrefixOf_iff_prefix.mp hprefix)
      · rw [← String.length_toList, hnil, List.length_nil]
      · exact absurd (ht ▸ List.mem_cons_self) (htexts s (List.mem_of_find?_eq_some hs))
    · rfl
  | run d =>
    have hd : (' ' == d) = false := beq_eq_false_iff_ne.mpr fun heq => by simp [isPlain, ← heq] at hk
    rw [reach, List.takeWhile_cons_of_neg (by simp [hd]), List.length_nil]

end Shapes

section Tokens

theorem firstToken_respaced (hclasses : ∀ k ∈ classes, k.shape.isPlain = true) (ha : a ≠ [])
    (hrest : Spaced rest') (h : firstToken classes (a ++ rest) = some (a.length, tag)) :
    firstToken classes (a ++ rest') = some (a.length, tag) := by
  induction classes with
  | nil => cases h
  | cons k classes ih =>
    rw [firstToken_cons] at h ⊢
    have hle : k.shape.reach (a ++ rest) ≤ a.length := by
      split_ifs at h with hzero
      · omega
      · exact (Prod.mk.inj (Option.some.inj h)).1.le
    rw [Shape.reach_respaced (hclasses k List.mem_cons_self) ha hrest hle]
    split_ifs at h ⊢ with hzero
    · exact ih (fun k hk => hclasses k (List.mem_cons_of_mem _ hk)) h
    · exact h

theorem firstToken_blank (hclasses : ∀ k ∈ classes, k.shape.isPlain = true) (cs : List Char) :
    firstToken classes (' ' :: cs) = none := by
  refine List.findSome?_eq_none_iff.mpr fun k hk => ?_
  simp [Shape.reach_blank (hclasses k hk)]

/-- Each token is found again in front of a blank, and none begins with a blank. -/
structure Steady (classes : List TokenClass) : Prop where
  respaced : ∀ a rest rest' tag, a ≠ [] → firstToken classes (a ++ rest) = some (a.length, tag) →
    Spaced rest' → firstToken classes (a ++ rest') = some (a.length, tag)
  blank : ∀ cs, firstToken classes (' ' :: cs) = none

variable {keywords : List String} {keyTag nameTag : Option String}

/-- Keywords look at what follows, but if names come next, a word that is no keyword is a name. -/
theorem steady_of_leading
    (hkeywords : ∀ k ∈ keywords, k.toList.head?.any Text.isNameStart = true)
    (hclasses : ∀ k ∈ classes, k.shape.isPlain = true) :
    Steady (⟨.keyword keywords, keyTag⟩ :: ⟨.name, nameTag⟩ :: classes) where
  respaced a rest rest' tag ha h hrest := by
    obtain ⟨c, cs, rfl⟩ := List.exists_cons_of_ne_nil ha
    rw [List.cons_append] at h ⊢
    cases hc : Text.isNameStart c with
    | true =>
      rw [firstToken_of_isNameStart hc] at h ⊢
      have hlen := (Prod.mk.inj (Option.some.inj h)).1
      rw [← List.cons_append] at hlen h ⊢
      rwa [takeWhile_respaced isWordChar_blank hrest hlen.le]
    | false =>
      rw [firstToken_of_not_isNameStart hkeywords hc] at h ⊢
      exact firstToken_respaced hclasses ha hrest h
  blank cs := by
    rw [firstToken_of_clear isWordChar_blank, firstToken_blank hclasses]

/-- Tokens with single blanks between them are read as these tokens. -/
theorem Cut.words_intercalate (hsteady : Steady classes) {cs last : List Char} {parts : List Part}
    (h : Cut classes cs parts last) :
    words classes ([' '].intercalate (parts.map (·.word.text.toList))) = parts.map (·.word) := by
  induction h with
  | done _ => simp
  | @token gap a rest last tag parts _ ha hfirst _ ih =>
    cases parts with
    | nil =>
      have hagain := words_append ha (hsteady.respaced a rest [] tag ha hfirst spaced_nil)
      rw [List.append_nil, words_nil] at hagain
      simpa [wordOf] using hagain
    | cons p parts =>
      have htext : (wordOf a tag).text.toList = a := String.toList_ofList
      rw [List.map_cons] at ih
      rw [List.map_cons, List.map_cons, List.intercalate_cons_cons, htext, List.append_assoc,
        List.singleton_append,
        words_append ha (hsteady.respaced a rest _ tag ha hfirst (spaced_cons _)),
        words_of_none (hsteady.blank _), ih]
      rfl

theorem tokens_intercalate (hsteady : Steady classes) (text : String) :
    tokens classes (" ".intercalate ((tokens classes text).map Word.text)) = tokens classes text := by
  obtain ⟨parts, last, hcut⟩ := exists_cut classes text.toList
  rw [tokens_eq_words, tokens_eq_words, String.toList_intercalate, hcut.words_eq, List.map_map,
    List.map_map]
  exact hcut.words_intercalate hsteady

end Tokens

end Lexing

/-- With single blanks between its tokens, a text of any of the languages has the same tokens. -/
theorem tokens_respaced (text : String) :
    While.language.tokens (While.language.respaced text) = While.language.tokens text ∧
      Lambda.Pure.language.tokens (Lambda.Pure.language.respaced text) =
        Lambda.Pure.language.tokens text ∧
      Lambda.Typed.language.tokens (Lambda.Typed.language.respaced text) =
        Lambda.Typed.language.tokens text :=
  ⟨Lexing.tokens_intercalate (Lexing.steady_of_leading (by decide +kernel) (by decide +kernel)) text,
    Lexing.tokens_intercalate (Lexing.steady_of_leading (by decide +kernel) (by decide +kernel)) text,
    Lexing.tokens_intercalate (Lexing.steady_of_leading (by decide +kernel) (by decide +kernel)) text⟩

end WhileSketch
