import Mathlib
import WhileSketch.Proofs.Lexing.Scanning
import WhileSketch.While.Parsing

/-! A text as its tokens and the texts between them. The pieces of a text show the tokens alone, so
they are the whole text just if nothing is skipped. -/

namespace WhileSketch.Lexing

/-- No token begins with any of the characters that stand in front of the rest. -/
def Barren (classes : List TokenClass) : List Char → List Char → Prop
  | [], _ => True
  | c :: gap, rest => firstToken classes (c :: (gap ++ rest)) = none ∧ Barren classes gap rest

def wordOf (a : List Char) (tag : Option String) : Word :=
  ⟨String.ofList a, [tag.getD (String.ofList a)]⟩

/-- A token and the text that is skipped in front of it. -/
structure Part where
  gap : List Char
  word : Word

def Part.chars (p : Part) : List Char :=
  p.gap ++ p.word.text.toList

def Part.pieces (p : Part) : List Piece :=
  if p.gap = [] then [.token p.word] else [.gap, .token p.word]

/-- A text cut into parts and what is skipped behind the last token. Each token is the first one of
all that remains, and none begins where something is skipped. -/
inductive Cut (classes : List TokenClass) : List Char → List Part → List Char → Prop
  | done {last : List Char} : Barren classes last [] → Cut classes last [] last
  | token {gap a rest last : List Char} {tag : Option String} {parts : List Part} :
    Barren classes gap (a ++ rest) → a ≠ [] →
    firstToken classes (a ++ rest) = some (a.length, tag) → Cut classes rest parts last →
    Cut classes (gap ++ (a ++ rest)) (⟨gap, wordOf a tag⟩ :: parts) last

variable {classes : List TokenClass} {c : Char} {cs a rest gap last : List Char} {tag : Option String}
  {parts : List Part}

section Existence

theorem Cut.exists_skip (hc : firstToken classes (c :: cs) = none) (h : Cut classes cs parts last) :
    ∃ parts last, Cut classes (c :: cs) parts last := by
  cases h with
  | done hlast => exact ⟨[], _, .done ⟨by rwa [List.append_nil], hlast⟩⟩
  | @token gap a rest _ tag parts hgap ha hfirst hrest =>
    have hskipped : Barren classes (c :: gap) (a ++ rest) := ⟨hc, hgap⟩
    exact ⟨_, _, .token hskipped ha hfirst hrest⟩

theorem exists_cut (classes : List TokenClass) (cs : List Char) :
    ∃ parts last, Cut classes cs parts last := by
  induction hn : cs.length using Nat.strong_induction_on generalizing cs with
  | _ n ih =>
    cases cs with
    | nil => exact ⟨[], [], .done trivial⟩
    | cons c cs =>
      cases hfirst : firstToken classes (c :: cs) with
      | none =>
        obtain ⟨parts, last, hcut⟩ := ih cs.length (by simp [← hn]) cs rfl
        exact hcut.exists_skip hfirst
      | some found =>
        obtain ⟨a, rest, hcs, ha, hlen⟩ := exists_append_of_firstToken hfirst
        have hshort : rest.length < n := by
          have := List.length_pos_iff.mpr ha
          rw [← hn, hcs, List.length_append]
          omega
        obtain ⟨parts, last, hcut⟩ := ih rest.length hshort rest rfl
        have hnothing : Barren classes [] (a ++ rest) := trivial
        rw [hcs] at hfirst ⊢
        exact ⟨_, last, .token hnothing ha (by rw [hfirst, hlen]) hcut⟩

end Existence

section Pieces

theorem scan_of_barren (h : Barren classes gap rest) (skipped : Bool) :
    scan classes skipped (gap ++ rest) = scan classes (skipped || !gap.isEmpty) rest := by
  induction gap generalizing skipped with
  | nil => simp
  | cons c gap ih =>
    have hskip : scan classes skipped (c :: (gap ++ rest)) = scan classes true (gap ++ rest) := by
      rw [scan, h.1]
    rw [List.cons_append, hskip, ih h.2]
    simp

theorem scan_of_token (ha : a ≠ []) (h : firstToken classes (a ++ rest) = some (a.length, tag))
    (skipped : Bool) :
    scan classes skipped (a ++ rest) =
      (if skipped then [.gap, .token (wordOf a tag)] else [.token (wordOf a tag)]) ++
        scan classes false rest := by
  obtain ⟨c, cs, rfl⟩ := List.exists_cons_of_ne_nil ha
  rw [List.cons_append] at h ⊢
  rw [scan, h]
  simp only [List.length_cons, Nat.add_sub_cancel, List.take_left', List.drop_left']
  cases skipped <;> rfl

/-- The pieces of a text are those of its parts. What is skipped behind the last token leaves no
piece. -/
theorem Cut.scan_eq (h : Cut classes cs parts last) :
    scan classes false cs = parts.flatMap Part.pieces := by
  induction h with
  | @done last hlast =>
    have hscan := scan_of_barren hlast false
    rw [List.append_nil] at hscan
    rw [hscan, scan]
    rfl
  | @token gap a rest last tag parts hgap ha hfirst _ ih =>
    rw [scan_of_barren hgap, scan_of_token ha hfirst, ih, List.flatMap_cons, Part.pieces]
    by_cases hnil : gap = [] <;> simp [hnil]

theorem Cut.words_eq (h : Cut classes cs parts last) : words classes cs = parts.map (·.word) := by
  rw [words, h.scan_eq, List.filterMap_flatMap, ← List.flatMap_pure_eq_map]
  refine List.flatMap_congr fun p _ => ?_
  rw [Part.pieces]
  split_ifs <;> rfl

theorem Cut.chars_eq (h : Cut classes cs parts last) : cs = parts.flatMap Part.chars ++ last := by
  induction h with
  | done _ => rfl
  | token _ _ _ _ ih =>
    rw [List.flatMap_cons, List.append_assoc, ← ih, Part.chars, wordOf, String.toList_ofList,
      List.append_assoc]

theorem exists_class_of_mem {w : Word} (hw : w ∈ words classes cs) :
    ∃ k ∈ classes, w.tags = [k.tag.getD w.text] ∧ w.text.toList ≠ [] ∧
      ∃ rest, k.shape.reach (w.text.toList ++ rest) = w.text.toList.length := by
  obtain ⟨parts, last, hcut⟩ := exists_cut classes cs
  rw [hcut.words_eq] at hw
  induction hcut with
  | done _ => cases hw
  | @token gap a rest last tag parts _ ha hfirst _ ih =>
    obtain rfl | hw := List.mem_cons.mp hw
    · obtain ⟨k, hk, hreach⟩ := List.exists_of_findSome?_eq_some hfirst
      simp only [Option.ite_none_left_eq_some, Option.some.injEq, Prod.mk.injEq] at hreach
      obtain ⟨-, hlen, rfl⟩ := hreach
      rw [← String.toList_ofList (l := a)] at ha hlen
      exact ⟨k, hk, rfl, ha, rest, hlen⟩
    · exact ih hw

theorem flatMap_text_pieces (parts : List Part) :
    (parts.flatMap Part.pieces).flatMap (·.text.toList) = parts.flatMap (·.word.text.toList) := by
  induction parts with
  | nil => rfl
  | cons p parts ih =>
    have hpart : p.pieces.flatMap (·.text.toList) = p.word.text.toList := by
      rw [Part.pieces]
      split_ifs <;> simp [Piece.text]
    rw [List.flatMap_cons, List.flatMap_append, ih, hpart, List.flatMap_cons]

theorem length_flatMap_chars (parts : List Part) :
    (parts.flatMap Part.chars).length =
      (parts.flatMap (·.word.text.toList)).length + (parts.map (·.gap.length)).sum := by
  induction parts with
  | nil => rfl
  | cons p parts ih =>
    simp only [List.flatMap_cons, List.length_append, ih, Part.chars, List.map_cons, List.sum_cons]
    omega

/-- Tokens alone are a whole text just if nothing is skipped. -/
theorem flatMap_word_eq_iff (parts : List Part) (last : List Char) :
    parts.flatMap (·.word.text.toList) = parts.flatMap Part.chars ++ last ↔
      (∀ p ∈ parts, p.gap = []) ∧ last = [] := by
  constructor
  · intro h
    have hlen := congrArg List.length h
    rw [List.length_append, length_flatMap_chars] at hlen
    have hsum : (parts.map (·.gap.length)).sum = 0 := by omega
    refine ⟨fun p hp => ?_, List.length_eq_zero_iff.mp (by omega)⟩
    exact List.length_eq_zero_iff.mp
      (List.sum_eq_zero_iff.mp hsum _ (List.mem_map_of_mem (f := (·.gap.length)) hp))
  · rintro ⟨hgaps, rfl⟩
    rw [List.append_nil]
    refine List.flatMap_congr fun p hp => ?_
    rw [Part.chars, hgaps p hp, List.nil_append]

end Pieces

/-- A text is made up of tokens and of what is skipped around them. Its pieces are the tokens, with the
mark of a gap where something is skipped in front of one, and so put together they are the text just
if nothing at all is skipped. -/
theorem join_pieces_eq_iff (classes : List TokenClass) (text : String) :
    ∃ parts last, Cut classes text.toList parts last ∧
      text.toList = parts.flatMap Part.chars ++ last ∧
      pieces classes text = parts.flatMap Part.pieces ∧
      (String.join ((pieces classes text).map Piece.text) = text ↔
        (∀ p ∈ parts, p.gap = []) ∧ last = []) := by
  obtain ⟨parts, last, hcut⟩ := exists_cut classes text.toList
  refine ⟨parts, last, hcut, hcut.chars_eq, hcut.scan_eq, ?_⟩
  rw [← flatMap_word_eq_iff, ← hcut.chars_eq, ← String.toList_inj, String.toList_join, pieces,
    hcut.scan_eq, List.flatMap_map, flatMap_text_pieces]

/-- Neither what stands between two tokens is in the pieces, nor what follows the last one. -/
theorem join_pieces_of_spaces :
    String.join ((pieces While.language.classes "x  y").map Piece.text) ≠ "x  y" ∧
      String.join ((pieces While.language.classes "x ").map Piece.text) ≠ "x " := by
  decide +kernel

end WhileSketch.Lexing
