import Mathlib
import WhileSketch.Text.Numeral
import WhileSketch.Text.Word

/-! Numbers written in decimal digits are read back. -/

namespace WhileSketch.Text

theorem toNat_of_isDigit {c : Char} (h : c.isDigit = true) : 48 ≤ c.toNat ∧ c.toNat ≤ 57 := by
  simp only [Char.isDigit, Bool.and_eq_true, decide_eq_true_eq, UInt32.le_iff_toNat_le] at h
  exact h

theorem digitValue?_of_isDigit {c : Char} (h : c.isDigit = true) :
    digitValue? c = some (c.toNat - 48) := by
  have hlt : c.toNat < 128 := by
    have hc := toNat_of_isDigit h
    omega
  rw [digitValue?, if_pos hlt, if_pos h]

theorem isDigit_of_ascii {c : Char} (h : c.isDigit = true) : isDigit c = true := by
  rw [isDigit, digitValue?_of_isDigit h]
  rfl

def digits (n : Int) : List Char :=
  Nat.toDigits 10 n.natAbs

theorem isDigit_of_mem_digits {n : Int} {c : Char} (h : c ∈ digits n) : c.isDigit = true :=
  Nat.isDigit_of_mem_toDigits (by decide) (by decide) h

theorem digits_ne_nil (n : Int) : digits n ≠ [] :=
  Nat.toDigits_ne_nil

theorem toList_toString (n : Int) :
    (toString n).toList = if n < 0 then '-' :: digits n else digits n := by
  rw [Int.toString_eq_repr, Int.repr_eq_if, digits]
  split_ifs with h h' h'
  · omega
  · have habs : n.toNat = n.natAbs := by omega
    rw [Nat.toList_repr, habs]
  · rw [String.toList_append, Nat.toList_repr]
    have habs : (-n).toNat = n.natAbs := by omega
    rw [habs]
    rfl
  · omega

theorem trimChars_eq_self {cs : List Char} (hhead : ∀ c ∈ cs.head?, isBlank c = false)
    (hlast : ∀ c ∈ cs.getLast?, isBlank c = false) : trimChars cs = cs := by
  have hdrop : ∀ ds : List Char, (∀ c ∈ ds.head?, isBlank c = false) →
      ds.dropWhile isBlank = ds := by
    intro ds hds
    cases ds with
    | nil => rfl
    | cons d ds => rw [List.dropWhile_cons_of_neg (by simp [hds d rfl])]
  rw [trimChars, hdrop cs hhead, hdrop cs.reverse (by simpa using hlast), List.reverse_reverse]

theorem digitValues_of_isDigit {ds : List Char} (hds : ∀ c ∈ ds, isDigit c = true) (hne : ds ≠ []) :
    digitValues ds = some (ds.filterMap digitValue?) := by
  fun_induction digitValues ds with
  | case1 => exact absurd rfl hne
  | case2 c =>
    obtain ⟨d, hd⟩ := Option.isSome_iff_exists.mp (hds c (by simp))
    simp [hd]
  | case3 c rest =>
    have hbad := hds '_' (by simp)
    exact absurd hbad (by decide)
  | case4 c rest hone _ ih =>
    obtain ⟨d, hd⟩ := Option.isSome_iff_exists.mp (hds c (by simp))
    have hrest : rest ≠ [] := fun h => hone h
    rw [ih (fun d hd => hds d (by simp [hd])) hrest]
    simp [hd]

theorem isBlank_of_isDigit {c : Char} (h : isDigit c = true) : isBlank c = false := by
  have hapart : ∀ z ∈ zeroDigits, z = 48 ∨ 160 < z ∧ (z + 9 < 5760 ∨ 5760 < z) ∧
      (z + 9 < 8192 ∨ 12288 < z) := by
    decide
  obtain ⟨z, hz, hlow, hhigh⟩ : ∃ z ∈ zeroDigits, z ≤ c.toNat ∧ c.toNat ≤ z + 9 := by
    rw [isDigit, digitValue?] at h
    split_ifs at h with hascii hdigit
    · exact ⟨48, by decide, toNat_of_isDigit hdigit⟩
    · cases h
    · rw [Option.isSome_map] at h
      obtain ⟨z, hz⟩ := Option.isSome_iff_exists.mp h
      have hrange : z ≤ c.toNat ∧ c.toNat < z + 10 := by simpa using List.find?_some hz
      exact ⟨z, List.mem_of_find?_eq_some hz, hrange.1, by omega⟩
  have hz' := hapart z hz
  simp [isBlank]
  omega

/-- Digits, possibly behind a sign, are read as the number they stand for, if they are not too
many. -/
theorem readInt_signed {s : String} {sign ds : List Char} (hs : s.toList = sign ++ ds)
    (hsign : sign = [] ∨ sign = ['+'] ∨ sign = ['-']) (hds : ∀ c ∈ ds, isDigit c = true)
    (hne : ds ≠ []) :
    readInt s = if maxDigits < ds.length then .error (.tooLong ds.length)
      else .ok (if sign = ['-'] then -(ofDigits (ds.filterMap digitValue?) : Int)
        else ofDigits (ds.filterMap digitValue?)) := by
  have hblank : ∀ c ∈ sign ++ ds, isBlank c = false := by
    intro c hc
    obtain hc | hc := List.mem_append.mp hc
    · obtain rfl | rfl | rfl := hsign
      · cases hc
      all_goals
        obtain rfl := List.mem_singleton.mp hc
        decide
    · exact isBlank_of_isDigit (hds c hc)
  have htrim : trimChars s.toList = sign ++ ds := by
    rw [hs]
    exact trimChars_eq_self (fun c hc => hblank c (List.mem_of_head? hc))
      fun c hc => hblank c (List.mem_of_getLast? hc)
  have hlength : (ds.filterMap digitValue?).length = ds.length := by
    rw [List.length_filterMap_eq_countP, List.countP_eq_length]
    exact hds
  rw [readInt, htrim]
  obtain ⟨d, rest, rfl⟩ := List.exists_cons_of_ne_nil hne
  have hd := hds d (by simp)
  have hplain : d ≠ '-' ∧ d ≠ '+' := by
    constructor <;> rintro rfl <;> exact absurd hd (by decide)
  obtain rfl | rfl | rfl := hsign
  · simp [hplain, digitValues_of_isDigit hds hne, hlength]
  · simp [digitValues_of_isDigit hds hne, hlength]
  · simp [digitValues_of_isDigit hds hne, hlength]

theorem filterMap_digits (n : Int) :
    (digits n).filterMap digitValue? = (digits n).map fun c => c.toNat - 48 := by
  rw [← List.filterMap_eq_map]
  exact List.filterMap_congr fun c hc => digitValue?_of_isDigit (isDigit_of_mem_digits hc)

theorem ofDigits_digits (n : Int) : ofDigits ((digits n).filterMap digitValue?) = n.natAbs := by
  have h := Nat.ofDigitChars_ten_toDigits (n := n.natAbs)
  rw [Nat.ofDigitChars_eq_foldl] at h
  rw [filterMap_digits, ofDigits, List.foldl_map]
  exact h

/-- A number that has been written is read back, if its digits are not too many. -/
theorem readInt_toString (n : Int) :
    readInt (toString n) = if maxDigits < (digits n).length then .error (.tooLong (digits n).length)
      else .ok n := by
  have hds : ∀ c ∈ digits n, isDigit c = true := fun c hc =>
    isDigit_of_ascii (isDigit_of_mem_digits hc)
  by_cases hn : n < 0
  · have hs : (toString n).toList = ['-'] ++ digits n := by rw [toList_toString, if_pos hn]; rfl
    have hvalue : -(n.natAbs : Int) = n := by omega
    rw [readInt_signed hs (by simp) hds (digits_ne_nil n), ofDigits_digits, if_pos rfl, hvalue]
  · have hs : (toString n).toList = [] ++ digits n := by rw [toList_toString, if_neg hn]; rfl
    have hvalue : (n.natAbs : Int) = n := by omega
    have hplain : ([] : List Char) ≠ ['-'] := by decide
    rw [readInt_signed hs (by simp) hds (digits_ne_nil n), ofDigits_digits, if_neg hplain, hvalue]

theorem digitValue?_lt {c : Char} {d : Nat} (h : digitValue? c = some d) : d < 10 := by
  rw [digitValue?] at h
  split_ifs at h with hascii hdigit
  · have hc := toNat_of_isDigit hdigit
    cases h
    omega
  · obtain ⟨z, hz, rfl⟩ := Option.map_eq_some_iff.mp h
    have hrange := List.find?_some hz
    simp only [Bool.and_eq_true, decide_eq_true_eq] at hrange
    omega

theorem digitValues_lt {cs : List Char} {ds : List Nat} (h : digitValues cs = some ds) :
    ds ≠ [] ∧ ∀ d ∈ ds, d < 10 := by
  have hstep : ∀ {c : Char} {rest : List Char} {ds : List Nat},
      (∀ {es}, digitValues rest = some es → es ≠ [] ∧ ∀ d ∈ es, d < 10) →
      (do
        let d ← digitValue? c
        let es ← digitValues rest
        return d :: es) = some ds → ds ≠ [] ∧ ∀ d ∈ ds, d < 10 := by
    intro c rest ds ih h
    obtain ⟨d, hd, h⟩ := Option.bind_eq_some_iff.mp h
    obtain ⟨es, hes, h⟩ := Option.bind_eq_some_iff.mp h
    cases h
    exact ⟨by simp, List.forall_mem_cons.mpr ⟨digitValue?_lt hd, (ih hes).2⟩⟩
  fun_induction digitValues cs generalizing ds with
  | case1 => cases h
  | case2 c =>
    obtain ⟨d, hd, rfl⟩ := Option.map_eq_some_iff.mp h
    exact ⟨by simp, by simpa using digitValue?_lt hd⟩
  | case3 c rest ih => exact hstep ih h
  | case4 c rest _ _ ih => exact hstep ih h

theorem ofDigits_lt {ds : List Nat} (h : ∀ d ∈ ds, d < 10) : ofDigits ds < 10 ^ ds.length := by
  rw [ofDigits]
  induction ds using List.reverseRecOn with
  | nil => simp
  | append_singleton ds d ih =>
    have hd : d < 10 := h d (by simp)
    have hds := ih fun e he => h e (by simp [he])
    rw [List.foldl_append, List.length_append, List.length_singleton, pow_succ]
    simp only [List.foldl_cons, List.foldl_nil]
    omega

/-- A number that has been read is not too long to be written and read again. -/
theorem readInt_toString_of_readInt {s : String} {n : Int} (h : readInt s = .ok n) :
    readInt (toString n) = .ok n := by
  rw [readInt] at h
  split at h
  case h_1 negative body _ =>
  cases hds : digitValues body with
  | none => simp [hds] at h
  | some ds =>
    simp only [hds] at h
    split_ifs at h with hlong hnegative
    all_goals
      have hn : n.natAbs = ofDigits ds := by
        cases h
        omega
      obtain ⟨hne, hsmall⟩ := digitValues_lt hds
      have hlength : (digits n).length ≤ ds.length := by
        rw [digits, hn]
        exact Nat.toDigits_length 10 _ _ (List.length_pos_of_ne_nil hne) (ofDigits_lt hsmall)
      rw [readInt_toString, if_neg (by omega)]

end WhileSketch.Text
