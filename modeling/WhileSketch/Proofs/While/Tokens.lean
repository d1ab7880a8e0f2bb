import Mathlib
import WhileSketch.While.Parsing
import WhileSketch.Logic.Value
import WhileSketch.Proofs.Lexing.Scanning
import WhileSketch.Proofs.Text.Numerals
import WhileSketch.Proofs.Text.Words

/-! The tokens of While programs. -/

namespace WhileSketch.While

open Lexing (Clear clear_nil clear_cons not_isDigit_of_clear)

inductive Mark where
  | skip
  | cond
  | condStep
  | yes
  | no
  | loop
  | body
  | assert
  | exit
  | opening
  | closing
  | next
  | becomes
  deriving DecidableEq

def Mark.text : Mark → String
  | skip => "skip"
  | cond => "if"
  | condStep => "if_unrolled"
  | yes => "then"
  | no => "else"
  | loop => "while"
  | body => "do"
  | assert => "assert"
  | exit => "assert_unrolled"
  | opening => "("
  | closing => ")"
  | next => ";"
  | becomes => ":="

inductive Token where
  | name (x : String)
  | numeral (digits : String)
  | sign (op : Operator)
  | hole
  | mark (m : Mark)
  deriving DecidableEq

namespace Token

def text : Token → String
  | name x => x
  | numeral s => s
  | sign op => op.programSign
  | hole => "??"
  | mark m => m.text

def tag : Token → String
  | name _ => "id"
  | numeral _ => "num"
  | sign _ => "op"
  | hole => "hole"
  | mark m => m.text

def word (t : Token) : Word :=
  ⟨t.text, [t.tag]⟩

end Token

def keywords : List String :=
  ["if", "if_unrolled", "then", "else", "while", "do", "skip", "assert", "assert_unrolled"]

theorem language_classes : language.classes =
    [⟨.keyword keywords, none⟩, ⟨.name, some "id"⟩, ⟨.numeral true, some "num"⟩,
      ⟨.spelling ["!=", "<=", ">=", "+", "-", "*", "/", "<", ">", "="], some "op"⟩,
      ⟨.spelling ["??"], some "hole"⟩, ⟨.spelling ["(", ")", ";"], none⟩,
      ⟨.spelling [":="], none⟩] :=
  rfl

/-- Word characters, of which the first is no digit, that are no keyword. -/
def isName (x : String) : Bool :=
  x.toList.head?.any Text.isNameStart && x.toList.all Text.isWordChar && !keywords.contains x

/-- Digits, possibly behind a sign. -/
def isNumeral (s : String) : Bool :=
  match s.toList with
  | [] => false
  | c :: ds =>
    if c == '+' || c == '-' then !ds.isEmpty && ds.all Text.isDigit else (c :: ds).all Text.isDigit

theorem mem_keywords {x : String} (h : x ∈ keywords) : ∃ m : Mark, m.text = x := by
  simp only [keywords, List.mem_cons, List.not_mem_nil, or_false] at h
  obtain rfl | rfl | rfl | rfl | rfl | rfl | rfl | rfl | rfl := h
  exacts [⟨.cond, rfl⟩, ⟨.condStep, rfl⟩, ⟨.yes, rfl⟩, ⟨.no, rfl⟩, ⟨.loop, rfl⟩, ⟨.body, rfl⟩,
    ⟨.skip, rfl⟩, ⟨.assert, rfl⟩, ⟨.exit, rfl⟩]

theorem keyword_chars {x : String} (h : x ∈ keywords) :
    ∃ c cs, x.toList = c :: cs ∧ Text.isNameStart c = true ∧
      ∀ d ∈ c :: cs, Text.isWordChar d = true := by
  have hall : keywords.all (fun y => y.toList.head?.any Text.isNameStart &&
      y.toList.all Text.isWordChar) = true := by
    decide
  have hx := List.all_eq_true.mp hall x h
  rw [Bool.and_eq_true] at hx
  cases hcs : x.toList with
  | nil => simp [hcs] at hx
  | cons c cs =>
    rw [hcs] at hx
    exact ⟨c, cs, rfl, by simpa using hx.1, List.all_eq_true.mp hx.2⟩

/-- A token ends where another text begins: it would not be read with more of it. -/
def Token.Stands (rest : List Char) : Token → Prop
  | name x => isName x = true ∧ Clear rest
  | numeral s => isNumeral s = true ∧ ∀ d ∈ rest.head?, Text.isDigit d = false
  | sign op => (op = .add ∨ op = .sub → ∀ d ∈ rest.head?, Text.isDigit d = false) ∧
      (op = .lt ∨ op = .gt → rest.head? ≠ some '=')
  | hole => True
  | mark m => m.text ∈ keywords → Clear rest

def spellings : List String :=
  ["!=", "<=", ">=", "+", "-", "*", "/", "<", ">", "=", "??", "(", ")", ";", ":="]

def Skipped (c : Char) (rest : List Char) : Prop :=
  Text.isWordChar c = false ∧ ∀ s ∈ spellings, ¬ s.toList <+: c :: rest

/-- No token begins with a character if no other one can come next than before, those aside with
which no token goes on. -/
theorem Skipped.of_head {c : Char} {cs cs' : List Char} (h : Skipped c cs)
    (hhead : ∀ d ∈ cs'.head?, d ∈ cs.head? ∨ d ≠ '=' ∧ d ≠ '?') : Skipped c cs' := by
  have hshape : ∀ s ∈ spellings, s.toList.length = 1 ∨
      s.toList.length = 2 ∧ s.toList.getLast? ∈ [some '=', some '?'] := by
    decide
  refine ⟨h.1, fun s hs hstarts => h.2 s hs ?_⟩
  obtain hone | ⟨htwo, hlast⟩ := hshape s hs
  · obtain ⟨a, ha⟩ := List.length_eq_one_iff.mp hone
    rw [ha, List.cons_prefix_cons] at hstarts ⊢
    exact ⟨hstarts.1, List.nil_prefix⟩
  · obtain ⟨a, b, hab⟩ := List.length_eq_two.mp htwo
    rw [hab, List.cons_prefix_cons] at hstarts ⊢
    obtain ⟨rfl, rest, rfl⟩ := hstarts
    obtain hb | hb := hhead b rfl
    · obtain ⟨rest', rfl⟩ := List.head?_eq_some_iff.mp hb
      exact ⟨rfl, rest', rfl⟩
    · exfalso
      rw [hab] at hlast
      simp at hlast
      exact hlast.elim hb.1 hb.2

section FirstToken

variable {c : Char} {cs rest : List Char} {tag : Option String}

theorem firstToken_word (hc : Text.isNameStart c = true)
    (hcs : ∀ d ∈ c :: cs, Text.isWordChar d = true) (hrest : Clear rest) :
    Lexing.firstToken language.classes (c :: cs ++ rest) =
      some ((c :: cs).length,
        if keywords.contains (String.ofList (c :: cs)) then none else some "id") :=
  Lexing.firstToken_word hc hcs hrest

theorem digitCount_eq_zero (hrest : ∀ d ∈ rest.head?, Text.isDigit d = false) :
    Lexing.digitCount rest = 0 := by
  have hcount : Lexing.digitCount ([] ++ rest) = 0 := Lexing.digitCount_append (by simp) hrest
  exact hcount

theorem firstToken_digits (hds : ∀ d ∈ c :: cs, Text.isDigit d = true)
    (hrest : ∀ d ∈ rest.head?, Text.isDigit d = false) :
    Lexing.firstToken language.classes (c :: cs ++ rest) =
      some ((c :: cs).length, some "num") :=
  Lexing.firstToken_digits (by decide) hds hrest

theorem firstToken_of_clear (hc : Text.isWordChar c = false) (cs : List Char) :
    Lexing.firstToken language.classes (c :: cs) =
      Lexing.firstToken (language.classes.drop 2) (c :: cs) :=
  Lexing.firstToken_of_clear hc cs

theorem isNumeral_chars {s : String} (h : isNumeral s = true) :
    ∃ c ds, s.toList = c :: ds ∧ (∀ d ∈ ds, Text.isDigit d = true) ∧
      ((c = '+' ∨ c = '-') ∧ ds ≠ [] ∨ Text.isDigit c = true) := by
  rw [isNumeral] at h
  cases hcs : s.toList with
  | nil => simp [hcs] at h
  | cons c ds =>
    simp only [hcs] at h
    refine ⟨c, ds, rfl, ?_⟩
    split_ifs at h with hsign
    · rw [Bool.and_eq_true, Bool.not_eq_true', List.isEmpty_eq_false_iff] at h
      exact ⟨List.all_eq_true.mp h.2, .inl ⟨by simpa using hsign, h.1⟩⟩
    · rw [List.all_cons, Bool.and_eq_true] at h
      exact ⟨List.all_eq_true.mp h.2, .inr h.1⟩

theorem firstToken_numeral {s : String} (hs : isNumeral s = true)
    (hrest : ∀ d ∈ rest.head?, Text.isDigit d = false) :
    Lexing.firstToken language.classes (s.toList ++ rest) =
      some (s.toList.length, some "num") := by
  obtain ⟨c, ds, hcs, hds, ⟨hsign, hne⟩ | hc⟩ := isNumeral_chars hs
  · have hword : Text.isWordChar c = false := by
      obtain rfl | rfl := hsign <;> rfl
    have hreach : (Lexing.Shape.numeral true).reach (c :: (ds ++ rest)) = (c :: ds).length := by
      simp [Lexing.Shape.reach, hsign, Lexing.digitCount_append hds hrest, hne]
    rw [hcs, List.cons_append, firstToken_of_clear hword, language_classes]
    simp only [List.drop_succ_cons, List.drop_zero]
    rw [Lexing.firstToken_cons, hreach, if_neg (by simp)]
  · rw [hcs]
    exact firstToken_digits (List.forall_mem_cons.mpr ⟨hc, hds⟩) hrest

def spellingTag (s : String) : Option String :=
  if s = "??" then some "hole" else if s ∈ ["(", ")", ";", ":="] then none else some "op"

theorem firstToken_spelling_cons {texts : List String} (htexts : texts ⊆ spellings)
    (classes : List Lexing.TokenClass) :
    Lexing.firstToken (⟨.spelling texts, tag⟩ :: classes) cs =
      ((texts.find? fun s => s.toList.isPrefixOf cs).map fun s => (s.length, tag)).or
        (Lexing.firstToken classes cs) := by
  have hpos : ∀ s ∈ spellings, s.length ≠ 0 := by decide
  rw [Lexing.firstToken_cons, Lexing.Shape.reach]
  cases hfind : texts.find? fun s => s.toList.isPrefixOf cs with
  | none => rfl
  | some s => exact if_neg (hpos s (htexts (List.mem_of_find?_eq_some hfind)))

/-- Where no word and no numeral begins, the first spelling decides. -/
theorem firstToken_spelling (hc : Text.isWordChar c = false)
    (hnumeral : (Lexing.Shape.numeral true).reach (c :: cs) = 0) :
    Lexing.firstToken language.classes (c :: cs) =
      (spellings.find? fun s => s.toList.isPrefixOf (c :: cs)).map fun s =>
        (s.length, spellingTag s) := by
  have htag : ∀ {texts : List String} {tag : Option String}, (∀ s ∈ texts, spellingTag s = tag) →
      ((texts.find? fun s => s.toList.isPrefixOf (c :: cs)).map fun s => (s.length, tag)) =
        (texts.find? fun s => s.toList.isPrefixOf (c :: cs)).map fun s =>
          (s.length, spellingTag s) := by
    intro texts tag htexts
    refine Option.map_congr fun s hs => ?_
    rw [htexts s (List.mem_of_find?_eq_some hs)]
  rw [firstToken_of_clear hc, language_classes]
  simp only [List.drop_succ_cons, List.drop_zero]
  rw [Lexing.firstToken_cons, if_pos hnumeral, firstToken_spelling_cons (by decide),
    firstToken_spelling_cons (by decide), firstToken_spelling_cons (by decide),
    firstToken_spelling_cons (by decide), htag (by decide), htag (by decide), htag (by decide),
    htag (by decide), Lexing.firstToken_nil, Option.or_none, ← Option.map_or, ← Option.map_or,
    ← Option.map_or, ← List.find?_append, ← List.find?_append, ← List.find?_append]
  rfl

theorem firstToken_sign {op : Operator} (h : (Token.sign op).Stands rest) :
    Lexing.firstToken language.classes (op.programSign.toList ++ rest) =
      some (op.programSign.toList.length, some "op") := by
  obtain ⟨hdigit, hequal⟩ := h
  have hplus : ∀ d ∈ ['+', '-'], (∀ d ∈ rest.head?, Text.isDigit d = false) →
      (Lexing.Shape.numeral true).reach (d :: rest) = 0 := by
    simp +contextual [Lexing.Shape.reach, digitCount_eq_zero]
  cases op with
  | add => exact firstToken_spelling rfl (hplus '+' (by simp) (hdigit (.inl rfl)))
  | sub => exact firstToken_spelling rfl (hplus '-' (by simp) (hdigit (.inr rfl)))
  | lt | gt =>
    cases rest with
    | nil => rfl
    | cons d rest =>
      have hd : ¬ '=' = d := by simpa [eq_comm] using hequal
      have hlt : spellings.find? (fun s => s.toList.isPrefixOf ('<' :: d :: rest)) = some "<" := by
        simp [spellings, hd]
      have hgt : spellings.find? (fun s => s.toList.isPrefixOf ('>' :: d :: rest)) = some ">" := by
        simp [spellings, hd]
      refine (firstToken_spelling rfl rfl).trans ?_
      first
        | exact congrArg _ hlt
        | exact congrArg _ hgt
  | _ => rfl

theorem firstToken_of_skipped (h : Skipped c rest) :
    Lexing.firstToken language.classes (c :: rest) = none := by
  have hsign : (c == '+' || c == '-') = false := by
    simp only [Bool.or_eq_false_iff, beq_eq_false_iff_ne]
    constructor
    · rintro rfl
      exact h.2 "+" (by decide) ⟨rest, rfl⟩
    · rintro rfl
      exact h.2 "-" (by decide) ⟨rest, rfl⟩
  have hreach : (Lexing.Shape.numeral true).reach (c :: rest) = 0 := by
    rw [Lexing.Shape.reach, hsign]
    exact digitCount_eq_zero (not_isDigit_of_clear (clear_cons h.1))
  rw [firstToken_spelling h.1 hreach, Option.map_eq_none_iff, List.find?_eq_none]
  intro s hs hstarts
  exact h.2 s hs (List.isPrefixOf_iff_prefix.mp hstarts)

end FirstToken

section Lexemes

variable {t : Token} {c : Char} {cs rest : List Char} {ts : List Token}

theorem isName_chars {x : String} (h : isName x = true) :
    ∃ c cs, x.toList = c :: cs ∧ Text.isNameStart c = true ∧
      (∀ d ∈ c :: cs, Text.isWordChar d = true) ∧ x ∉ keywords := by
  simp only [isName, Bool.and_eq_true, Bool.not_eq_true'] at h
  obtain ⟨⟨hstart, hall⟩, hkey⟩ := h
  cases hcs : x.toList with
  | nil => simp [hcs] at hstart
  | cons c cs =>
    rw [hcs] at hstart hall
    exact ⟨c, cs, rfl, by simpa using hstart, List.all_eq_true.mp hall, by simpa using hkey⟩

theorem Token.text_ne_nil (h : t.Stands rest) : t.text.toList ≠ [] := by
  cases t with
  | name x =>
    obtain ⟨c, cs, hcs, -⟩ := isName_chars h.1
    simp [text, hcs]
  | numeral s =>
    intro hnil
    have hs := h.1
    rw [text] at hnil
    simp [isNumeral, hnil] at hs
  | sign op => cases op <;> decide
  | hole => decide
  | mark m => cases m <;> decide

theorem firstToken_token (h : t.Stands rest) :
    ∃ tag : Option String, tag.getD t.text = t.tag ∧
      Lexing.firstToken language.classes (t.text.toList ++ rest) =
        some (t.text.toList.length, tag) := by
  cases t with
  | name x =>
    obtain ⟨c, cs, hcs, hc, hall, hkey⟩ := isName_chars h.1
    refine ⟨some "id", rfl, ?_⟩
    rw [Token.text, hcs, firstToken_word hc hall h.2, if_neg]
    rw [← hcs, String.ofList_toList]
    simpa using hkey
  | numeral s => exact ⟨_, rfl, firstToken_numeral h.1 h.2⟩
  | sign op => exact ⟨_, rfl, firstToken_sign h⟩
  | hole => exact ⟨_, rfl, rfl⟩
  | mark m =>
    refine ⟨none, rfl, ?_⟩
    by_cases hm : m.text ∈ keywords
    · obtain ⟨c, cs, hcs, hc, hall⟩ := keyword_chars hm
      rw [Token.text, hcs, firstToken_word hc hall (h hm), if_pos]
      rw [← hcs, String.ofList_toList]
      simpa using hm
    · cases m with
      | opening | closing | next | becomes => rfl
      | _ => exact absurd (by decide) hm

/-- A token that stands in front of a text is the first one. -/
theorem words_token (h : t.Stands rest) :
    Lexing.words language.classes (t.text.toList ++ rest) =
      t.word :: Lexing.words language.classes rest := by
  obtain ⟨tag, htag, hfirst⟩ := firstToken_token h
  rw [Lexing.words_append (Token.text_ne_nil h) hfirst, String.ofList_toList, htag]
  rfl

theorem exists_word (hc : Text.isNameStart c = true) (cs : List Char) :
    ∃ (t : Token) (rest : List Char), c :: cs = t.text.toList ++ rest ∧ t.Stands rest := by
  have hword : Text.isWordChar c = true := (Bool.and_eq_true_iff.mp hc).1
  have hsplit : (c :: cs).takeWhile Text.isWordChar ++ (c :: cs).dropWhile Text.isWordChar =
      c :: cs :=
    List.takeWhile_append_dropWhile
  have hclear : Clear ((c :: cs).dropWhile Text.isWordChar) := by
    intro d hd
    have hhead := List.head?_dropWhile_not Text.isWordChar (c :: cs)
    rwa [hd] at hhead
  generalize hx : (c :: cs).takeWhile Text.isWordChar = x at hsplit
  have hall : ∀ d ∈ x, Text.isWordChar d = true := by
    rw [← hx]
    exact fun d hd => List.mem_takeWhile_imp hd
  have hhead : x.head? = some c := by
    rw [← hx, List.takeWhile_cons_of_pos hword]
    rfl
  by_cases hkey : String.ofList x ∈ keywords
  · obtain ⟨m, hm⟩ := mem_keywords hkey
    refine ⟨.mark m, _, ?_, fun _ => hclear⟩
    rw [Token.text, hm, String.toList_ofList, hsplit]
  · refine ⟨.name (String.ofList x), _, ?_, ?_, hclear⟩
    · rw [Token.text, String.toList_ofList, hsplit]
    · simp only [isName, String.toList_ofList, hhead, Option.any_some, hc, Bool.and_eq_true,
        List.all_eq_true, Bool.not_eq_true', true_and]
      exact ⟨hall, by simpa using hkey⟩

theorem exists_digits {sign : List Char} (hsign : sign = [] ∨ sign = ['+'] ∨ sign = ['-'])
    (hc : Text.isDigit c = true) (cs : List Char) :
    ∃ (s : String) (rest : List Char), sign ++ c :: cs = s.toList ++ rest ∧
      (Token.numeral s).Stands rest := by
  have hsplit : (c :: cs).takeWhile Text.isDigit ++ (c :: cs).dropWhile Text.isDigit = c :: cs :=
    List.takeWhile_append_dropWhile
  have hends : ∀ d ∈ ((c :: cs).dropWhile Text.isDigit).head?, Text.isDigit d = false := by
    intro d hd
    have hhead := List.head?_dropWhile_not Text.isDigit (c :: cs)
    rwa [hd] at hhead
  rw [List.takeWhile_cons_of_pos hc] at hsplit
  have hplus : (c == '+' || c == '-') = false := Lexing.not_sign_of_isDigit hc
  refine ⟨String.ofList (sign ++ c :: cs.takeWhile Text.isDigit), _, ?_, ?_, hends⟩
  · rw [String.toList_ofList, List.append_assoc, hsplit]
  · obtain rfl | rfl | rfl := hsign <;> simp [isNumeral, hplus, hc]

theorem exists_spelling {s : String} (hs : s ∈ spellings) (rest : List Char) :
    ∃ (t : Token) (rest' : List Char), s.toList ++ rest = t.text.toList ++ rest' ∧
      t.Stands rest' := by
  have hsigned : ∀ op : Operator, op = .add ∨ op = .sub → ∃ (t : Token) (rest' : List Char),
      op.programSign.toList ++ rest = t.text.toList ++ rest' ∧ t.Stands rest' := by
    intro op hop
    by_cases hdigit : ∃ d cs, rest = d :: cs ∧ Text.isDigit d = true
    · obtain ⟨d, cs, rfl, hd⟩ := hdigit
      have hsign : op.programSign.toList = ['+'] ∨ op.programSign.toList = ['-'] := by
        obtain rfl | rfl := hop
        exacts [.inl rfl, .inr rfl]
      obtain ⟨s, rest, hs, hstands⟩ := exists_digits (.inr hsign) hd cs
      exact ⟨.numeral s, rest, hs, hstands⟩
    · refine ⟨.sign op, rest, rfl, fun _ d hd => ?_, by obtain rfl | rfl := hop <;> simp⟩
      obtain ⟨cs, rfl⟩ := List.head?_eq_some_iff.mp hd
      exact Bool.eq_false_of_not_eq_true fun h => hdigit ⟨d, cs, rfl, h⟩
  have hlonger : ∀ op op' : Operator, op = .lt ∧ op' = .le ∨ op = .gt ∧ op' = .ge →
      ∃ (t : Token) (rest' : List Char),
        op.programSign.toList ++ rest = t.text.toList ++ rest' ∧ t.Stands rest' := by
    intro op op' hop
    by_cases hequal : ∃ cs, rest = '=' :: cs
    · obtain ⟨cs, rfl⟩ := hequal
      refine ⟨.sign op', cs, ?_, ?_⟩ <;> obtain ⟨rfl, rfl⟩ | ⟨rfl, rfl⟩ := hop
      exacts [rfl, rfl, by simp [Token.Stands], by simp [Token.Stands]]
    · refine ⟨.sign op, rest, rfl, by obtain ⟨rfl, rfl⟩ | ⟨rfl, rfl⟩ := hop <;> simp, fun _ h => ?_⟩
      exact hequal (List.head?_eq_some_iff.mp h)
  simp only [spellings, List.mem_cons, List.not_mem_nil, or_false] at hs
  obtain rfl | rfl | rfl | rfl | rfl | rfl | rfl | rfl | rfl | rfl | rfl | rfl | rfl | rfl | rfl :=
    hs
  · exact ⟨.sign .ne, rest, rfl, by simp [Token.Stands]⟩
  · exact ⟨.sign .le, rest, rfl, by simp [Token.Stands]⟩
  · exact ⟨.sign .ge, rest, rfl, by simp [Token.Stands]⟩
  · exact hsigned .add (.inl rfl)
  · exact hsigned .sub (.inr rfl)
  · exact ⟨.sign .mul, rest, rfl, by simp [Token.Stands]⟩
  · exact ⟨.sign .div, rest, rfl, by simp [Token.Stands]⟩
  · exact hlonger .lt .le (.inl ⟨rfl, rfl⟩)
  · exact hlonger .gt .ge (.inr ⟨rfl, rfl⟩)
  · exact ⟨.sign .eq, rest, rfl, by simp [Token.Stands]⟩
  · exact ⟨.hole, rest, rfl, trivial⟩
  · exact ⟨.mark .opening, rest, rfl, fun h => absurd h (by decide)⟩
  · exact ⟨.mark .closing, rest, rfl, fun h => absurd h (by decide)⟩
  · exact ⟨.mark .next, rest, rfl, fun h => absurd h (by decide)⟩
  · exact ⟨.mark .becomes, rest, rfl, fun h => absurd h (by decide)⟩

/-- A text begins with a character that is skipped or with a token. -/
theorem exists_lexeme (c : Char) (cs : List Char) :
    Skipped c cs ∨ ∃ (t : Token) (rest : List Char), c :: cs = t.text.toList ++ rest ∧
      t.Stands rest := by
  by_cases hdigit : Text.isDigit c = true
  · obtain ⟨s, rest, hs, hstands⟩ := exists_digits (.inl rfl) hdigit cs
    exact .inr ⟨.numeral s, rest, hs, hstands⟩
  by_cases hword : Text.isWordChar c = true
  · exact .inr (exists_word (by simp [Text.isNameStart, hword, hdigit]) cs)
  rw [Bool.not_eq_true] at hword
  by_cases hspelling : ∃ s ∈ spellings, s.toList <+: c :: cs
  · right
    obtain ⟨s, hs, rest, hrest⟩ := hspelling
    rw [← hrest]
    exact exists_spelling hs rest
  · exact .inl ⟨hword, fun s hs hstarts => hspelling ⟨s, hs, hstarts⟩⟩

/-- The characters of a text, and the tokens they make. -/
inductive Lexes : List Char → List Token → Prop
  | nil : Lexes [] []
  | skip {c : Char} {cs : List Char} {ts : List Token} (hc : Skipped c cs) (h : Lexes cs ts) :
      Lexes (c :: cs) ts
  | token {t : Token} {rest : List Char} {ts : List Token} (ht : t.Stands rest)
      (h : Lexes rest ts) : Lexes (t.text.toList ++ rest) (t :: ts)

theorem exists_lexes (cs : List Char) : ∃ ts, Lexes cs ts := by
  induction hn : cs.length using Nat.strong_induction_on generalizing cs with
  | _ n ih =>
    subst hn
    cases cs with
    | nil => exact ⟨[], .nil⟩
    | cons c cs =>
      obtain hc | ⟨t, rest, hrest, ht⟩ := exists_lexeme c cs
      · obtain ⟨ts, hts⟩ := ih cs.length (by simp) cs rfl
        exact ⟨ts, .skip hc hts⟩
      · have hlength : rest.length < (c :: cs).length := by
          have hpos := List.length_pos_of_ne_nil (Token.text_ne_nil ht)
          rw [hrest, List.length_append]
          omega
        obtain ⟨ts, hts⟩ := ih rest.length hlength rest rfl
        rw [hrest]
        exact ⟨t :: ts, .token ht hts⟩

theorem Lexes.words_eq (h : Lexes cs ts) :
    Lexing.words language.classes cs = ts.map Token.word := by
  induction h with
  | nil => exact Lexing.words_nil _
  | skip hc _ ih => rw [Lexing.words_of_none (firstToken_of_skipped hc), ih]
  | token ht _ ih => rw [words_token ht, ih, List.map_cons]

theorem Lexes.tokens_eq {text : String} (h : Lexes text.toList ts) :
    language.tokens text = ts.map Token.word := by
  rw [Language.tokens, Lexing.tokens_eq_words, h.words_eq]

theorem Lexes.isName_of_mem (h : Lexes cs ts) {x : String} (hx : .name x ∈ ts) :
    isName x = true := by
  induction h with
  | nil => cases hx
  | skip _ _ ih => exact ih hx
  | token ht _ ih =>
    obtain rfl | hx := List.mem_cons.mp hx
    · exact ht.1
    · exact ih hx

end Lexemes

end WhileSketch.While
