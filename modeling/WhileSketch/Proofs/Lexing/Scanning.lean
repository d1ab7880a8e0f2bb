import Mathlib
import WhileSketch.Lexing.Token
import WhileSketch.Proofs.Text.Words

/-! The tokens of a text, one after the other. -/

namespace WhileSketch.Lexing

variable {classes : List TokenClass} {c : Char} {cs rest : List Char}

theorem firstToken_cons (k : TokenClass) (cs : List Char) :
    firstToken (k :: classes) cs =
      if k.shape.reach cs = 0 then firstToken classes cs else some (k.shape.reach cs, k.tag) := by
  rw [firstToken, List.findSome?_cons]
  by_cases h : k.shape.reach cs = 0
  · simp [h, firstToken]
  · simp [h]

theorem firstToken_nil (cs : List Char) : firstToken [] cs = none :=
  rfl

def words (classes : List TokenClass) (cs : List Char) : List Word :=
  (scan classes false cs).filterMap fun
    | .token w => some w
    | .gap => none

theorem tokens_eq_words (classes : List TokenClass) (text : String) :
    tokens classes text = words classes text.toList :=
  rfl

@[simp] theorem words_nil (classes : List TokenClass) : words classes [] = [] := by
  rw [words, scan]
  rfl

theorem filterMap_scan (skipped : Bool) (cs : List Char) :
    ((scan classes skipped cs).filterMap fun
      | .token w => some w
      | .gap => none) = words classes cs := by
  cases skipped with
  | false => rfl
  | true =>
    cases cs with
    | nil => rw [words, scan, scan]
    | cons c cs =>
      rw [words, scan, scan]
      cases firstToken classes (c :: cs) <;> rfl

theorem words_of_none (h : firstToken classes (c :: cs) = none) :
    words classes (c :: cs) = words classes cs := by
  rw [words, scan]
  simp only [h]
  exact filterMap_scan true cs

theorem words_of_some {n : Nat} {tag : Option String}
    (h : firstToken classes (c :: cs) = some (n, tag)) :
    words classes (c :: cs) =
      ⟨String.ofList (c :: cs.take (n - 1)), [tag.getD (String.ofList (c :: cs.take (n - 1)))]⟩ ::
        words classes (cs.drop (n - 1)) := by
  rw [words, scan]
  simp only [h]
  rfl

/-- A text that is a token in front of what follows is one. -/
theorem words_append {a : List Char} {tag : Option String} (ha : a ≠ [])
    (h : firstToken classes (a ++ rest) = some (a.length, tag)) :
    words classes (a ++ rest) =
      ⟨String.ofList a, [tag.getD (String.ofList a)]⟩ :: words classes rest := by
  obtain ⟨c, cs, rfl⟩ := List.exists_cons_of_ne_nil ha
  rw [List.cons_append] at h ⊢
  rw [words_of_some h, List.length_cons, Nat.add_sub_cancel, List.take_left', List.drop_left']
  · rfl
  · rfl

section Leading

/-! Classes of keywords and of names that come before all others. -/

/-- No word character comes next. -/
def Clear (cs : List Char) : Prop :=
  ∀ c ∈ cs.head?, Text.isWordChar c = false

theorem clear_nil : Clear [] := by
  intro c hc
  simp at hc

theorem clear_cons (hc : Text.isWordChar c = false) : Clear (c :: cs) := by
  rintro c' ⟨⟩
  exact hc

theorem not_isDigit_of_clear (h : Clear cs) : ∀ c ∈ cs.head?, Text.isDigit c = false := by
  intro c hc
  by_contra hd
  have hword := Text.isWordChar_of_isDigit (Bool.eq_true_of_not_eq_false hd)
  rw [h c hc] at hword
  cases hword

variable {keywords : List String} {tag nameTag : Option String}

/-- What begins as a name does is a keyword or a name, up to the next character that is none of
words. -/
theorem firstToken_of_isNameStart (hc : Text.isNameStart c = true) (cs : List Char) :
    firstToken (⟨.keyword keywords, tag⟩ :: ⟨.name, nameTag⟩ :: classes) (c :: cs) =
      some (((c :: cs).takeWhile Text.isWordChar).length,
        if keywords.contains (String.ofList ((c :: cs).takeWhile Text.isWordChar)) then tag
        else nameTag) := by
  have hword : Text.isWordChar c = true := (Bool.and_eq_true_iff.mp hc).1
  have hne : ((c :: cs).takeWhile Text.isWordChar).length ≠ 0 := by
    rw [List.takeWhile_cons_of_pos hword]
    simp
  have hname : Shape.name.reach (c :: cs) = ((c :: cs).takeWhile Text.isWordChar).length := by
    rw [Shape.reach, if_pos hc]
  rw [firstToken_cons, Shape.reach]
  by_cases hkey : keywords.contains (String.ofList ((c :: cs).takeWhile Text.isWordChar)) = true
  · rw [if_pos hkey, if_pos hkey, if_neg hne]
  · rw [if_neg hkey, if_neg hkey, if_pos rfl, firstToken_cons, hname, if_neg hne]

theorem firstToken_word (hc : Text.isNameStart c = true)
    (hcs : ∀ d ∈ c :: cs, Text.isWordChar d = true) (hrest : Clear rest) :
    firstToken (⟨.keyword keywords, tag⟩ :: ⟨.name, nameTag⟩ :: classes) (c :: cs ++ rest) =
      some ((c :: cs).length,
        if keywords.contains (String.ofList (c :: cs)) then tag else nameTag) := by
  have htake := takeWhile_append_bar hcs hrest
  rw [List.cons_append] at htake ⊢
  rw [firstToken_of_isNameStart hc, htake]

/-- If keywords begin as names do, with another character no keyword and no name begins. -/
theorem firstToken_of_not_isNameStart
    (hkeywords : ∀ k ∈ keywords, k.toList.head?.any Text.isNameStart = true)
    (hc : Text.isNameStart c = false) (cs : List Char) :
    firstToken (⟨.keyword keywords, tag⟩ :: ⟨.name, nameTag⟩ :: classes) (c :: cs) =
      firstToken classes (c :: cs) := by
  have hkeyword : (Shape.keyword keywords).reach (c :: cs) = 0 := by
    rw [Shape.reach]
    refine if_neg fun hkey => ?_
    have hstart := hkeywords _ (List.mem_of_elem_eq_true hkey)
    rw [String.toList_ofList, List.takeWhile_cons] at hstart
    split_ifs at hstart
    · simp [hc] at hstart
    · simp at hstart
  have hname : Shape.name.reach (c :: cs) = 0 := by
    rw [Shape.reach, if_neg (by simp [hc])]
  rw [firstToken_cons, hkeyword, if_pos rfl, firstToken_cons, hname, if_pos rfl]

theorem firstToken_of_clear (hc : Text.isWordChar c = false) (cs : List Char) :
    firstToken (⟨.keyword keywords, tag⟩ :: ⟨.name, nameTag⟩ :: classes) (c :: cs) =
      firstToken classes (c :: cs) := by
  have hkeyword : (Shape.keyword keywords).reach (c :: cs) = 0 := by
    rw [Shape.reach, List.takeWhile_cons_of_neg (by simp [hc])]
    simp
  have hname : Shape.name.reach (c :: cs) = 0 := by
    rw [Shape.reach, if_neg (by simp [Text.isNameStart, hc])]
  rw [firstToken_cons, hkeyword, if_pos rfl, firstToken_cons, hname, if_pos rfl]

theorem digitCount_append {ds : List Char} (hds : ∀ d ∈ ds, Text.isDigit d = true)
    (hrest : ∀ d ∈ rest.head?, Text.isDigit d = false) : digitCount (ds ++ rest) = ds.length := by
  rw [digitCount, takeWhile_append_bar hds hrest]

theorem not_sign_of_isDigit (hc : Text.isDigit c = true) : (c == '+' || c == '-') = false := by
  simp only [Bool.or_eq_false_iff, beq_eq_false_iff_ne]
  constructor <;> rintro rfl <;> revert hc <;> decide

theorem firstToken_digits {signed : Bool}
    (hkeywords : ∀ k ∈ keywords, k.toList.head?.any Text.isNameStart = true)
    (hds : ∀ d ∈ c :: cs, Text.isDigit d = true)
    (hrest : ∀ d ∈ rest.head?, Text.isDigit d = false) :
    firstToken (⟨.keyword keywords, tag⟩ :: ⟨.name, nameTag⟩ :: ⟨.numeral signed, some "num"⟩ ::
        classes) (c :: cs ++ rest) =
      some ((c :: cs).length, some "num") := by
  have hc := hds c List.mem_cons_self
  have hsign := not_sign_of_isDigit hc
  have hreach : (Shape.numeral signed).reach (c :: cs ++ rest) = (c :: cs).length := by
    rw [← digitCount_append hds hrest, List.cons_append, Shape.reach]
    simp [hsign]
  rw [List.cons_append] at hreach ⊢
  rw [firstToken_of_not_isNameStart hkeywords (by simp [Text.isNameStart, hc]), firstToken_cons,
    hreach, if_neg (by simp)]

end Leading

section Shapes

theorem Shape.reach_le_length (k : Shape) (cs : List Char) : k.reach cs ≤ cs.length := by
  have htake : ∀ (p : Char → Bool) (cs : List Char), (cs.takeWhile p).length ≤ cs.length :=
    fun p cs => (List.takeWhile_prefix p).length_le
  cases k with
  | keyword words =>
    rw [reach]
    split_ifs
    · exact htake _ cs
    · exact Nat.zero_le _
  | name =>
    cases cs with
    | nil => rfl
    | cons c cs =>
      rw [reach]
      split_ifs
      · exact htake _ _
      · exact Nat.zero_le _
  | numeral signed =>
    cases cs with
    | nil => rfl
    | cons c cs =>
      rw [reach]
      split_ifs
      · have hdigits : digitCount cs ≤ cs.length := htake _ cs
        simp only [List.length_cons]
        split_ifs <;> omega
      · exact htake _ _
  | spelling texts =>
    rw [reach]
    split
    · rename_i s hs
      have hprefix := List.find?_some hs
      exact String.length_toList (s := s) ▸ (List.isPrefixOf_iff_prefix.mp hprefix).length_le
    · exact Nat.zero_le _
  | run c => exact htake _ cs

theorem exists_append_of_firstToken {n : Nat} {tag : Option String}
    (h : firstToken classes cs = some (n, tag)) : ∃ a rest, cs = a ++ rest ∧ a ≠ [] ∧ a.length = n := by
  obtain ⟨k, -, hk⟩ := List.exists_of_findSome?_eq_some h
  simp only [Option.ite_none_left_eq_some, Option.some.injEq, Prod.mk.injEq] at hk
  obtain ⟨hpos, rfl, -⟩ := hk
  have hle := k.shape.reach_le_length cs
  refine ⟨cs.take (k.shape.reach cs), cs.drop (k.shape.reach cs), by simp, ?_, by simpa using hle⟩
  intro hnil
  have hlen := congrArg List.length hnil
  simp only [List.length_take, List.length_nil] at hlen
  omega

theorem takeWhile_eq_of_length {p : Char → Bool} {a rest : List Char}
    (h : ((a ++ rest).takeWhile p).length = a.length) : (a ++ rest).takeWhile p = a :=
  (List.prefix_of_prefix_length_le (List.takeWhile_prefix p) (List.prefix_append a rest)
    h.le).eq_of_length h

theorem mem_of_reach_keyword {words : List String} {a rest : List Char} (ha : a ≠ [])
    (h : (Shape.keyword words).reach (a ++ rest) = a.length) : String.ofList a ∈ words := by
  rw [Shape.reach] at h
  split_ifs at h with hw
  · rw [takeWhile_eq_of_length h] at hw
    simpa using hw
  · exact absurd (List.length_eq_zero_iff.mp h.symm) ha

theorem mem_of_reach_spelling {texts : List String} {a rest : List Char} (ha : a ≠ [])
    (h : (Shape.spelling texts).reach (a ++ rest) = a.length) : String.ofList a ∈ texts := by
  rw [Shape.reach] at h
  split at h
  · rename_i s hs
    rw [← String.length_toList] at h
    have hprefix := List.find?_some hs
    have heq : s.toList = a := (List.prefix_of_prefix_length_le
      (List.isPrefixOf_iff_prefix.mp hprefix) (List.prefix_append a rest) h.le).eq_of_length h
    rw [← heq, String.ofList_toList]
    exact List.mem_of_find?_eq_some hs
  · exact absurd (List.length_eq_zero_iff.mp h.symm) ha

theorem forall_isWordChar_of_reach_name {a rest : List Char} (ha : a ≠ [])
    (h : Shape.name.reach (a ++ rest) = a.length) : ∀ c ∈ a, Text.isWordChar c = true := by
  obtain ⟨c, cs, rfl⟩ := List.exists_cons_of_ne_nil ha
  rw [List.cons_append, Shape.reach] at h
  split_ifs at h
  rw [← List.cons_append] at h
  rw [← takeWhile_eq_of_length h]
  exact fun c hc => List.mem_takeWhile_imp hc

theorem forall_isDigit_of_reach_numeral {a rest : List Char} (ha : a ≠ [])
    (h : (Shape.numeral false).reach (a ++ rest) = a.length) : ∀ c ∈ a, Text.isDigit c = true := by
  obtain ⟨c, cs, rfl⟩ := List.exists_cons_of_ne_nil ha
  have hcount : (((c :: cs) ++ rest).takeWhile Text.isDigit).length = (c :: cs).length := h
  rw [← takeWhile_eq_of_length hcount]
  exact fun c hc => List.mem_takeWhile_imp hc

end Shapes

end WhileSketch.Lexing
