import Mathlib
import WhileSketch.Text.Word

/-! Characters of words: the decimal digits of every script are among them. -/

namespace WhileSketch

theorem takeWhile_append_bar {α : Type} {p : α → Bool} {a rest : List α}
    (ha : ∀ c ∈ a, p c = true) (hrest : ∀ c ∈ rest.head?, p c = false) :
    (a ++ rest).takeWhile p = a := by
  rw [List.takeWhile_append_of_pos ha]
  cases rest with
  | nil => simp
  | cons c cs =>
    have hc : ¬ p c = true := by simp [hrest c rfl]
    rw [List.takeWhile_cons_of_neg hc, List.append_nil]

namespace CharSet

variable {flips : Array Nat} {n lo hi : Nat}

/-- Halving ends at an index with nothing larger in front of it and nothing smaller behind it. -/
theorem bisect_spec (hsorted : flips.toList.Pairwise (· < ·))
    (hlo : ∀ i, i < lo → flips.getD i 0 ≤ n)
    (hhi : ∀ i, hi ≤ i → i < flips.size → n < flips.getD i 0) (h : lo ≤ hi)
    (hsize : hi ≤ flips.size) :
    bisect flips n lo hi ≤ flips.size ∧ (∀ i, i < bisect flips n lo hi → flips.getD i 0 ≤ n) ∧
      ∀ i, bisect flips n lo hi ≤ i → i < flips.size → n < flips.getD i 0 := by
  have hmono : ∀ i j, i < j → j < flips.size → flips.getD i 0 < flips.getD j 0 := by
    intro i j hij hj
    have hlt := List.pairwise_iff_getElem.mp hsorted i j (by simpa using hij.trans hj)
      (by simpa using hj) hij
    simpa [Array.getD, hij.trans hj, hj] using hlt
  fun_induction bisect flips n lo hi with
  | case1 lo hi hlt mid hmid ih =>
    refine ih (fun i hi' => ?_) hhi (by omega) hsize
    obtain rfl | hi' := Nat.eq_or_lt_of_le (Nat.le_of_lt_succ hi')
    · exact hmid
    · exact (hmono i mid hi' (by omega)).le.trans hmid
  | case2 lo hi hlt mid hmid ih =>
    refine ih hlo (fun i hi' hi => ?_) (by omega) (by omega)
    obtain rfl | hi' := Nat.eq_or_lt_of_le hi'
    · exact Nat.lt_of_not_le hmid
    · exact (Nat.lt_of_not_le hmid).trans (hmono mid i hi' hi)
  | case3 lo hi hlt =>
    have heq : lo = hi := by omega
    subst heq
    exact ⟨hsize, hlo, hhi⟩

/-- A character belongs to a set if an odd number of flips comes before the first that is behind
it. -/
theorem contains_iff {s : CharSet} (hsorted : s.flips.toList.Pairwise (· < ·)) (c : Char) :
    s.contains c = true ↔ (s.flips.toList.takeWhile (· ≤ c.toNat)).length % 2 = 1 := by
  obtain ⟨hsize, hbefore, hbehind⟩ := bisect_spec (n := c.toNat) hsorted
    (fun i hi => absurd hi (Nat.not_lt_zero i)) (fun i hi hi' => absurd hi (Nat.not_le_of_lt hi'))
    (Nat.zero_le s.flips.size) le_rfl
  rw [contains, beq_iff_eq]
  generalize bisect s.flips c.toNat 0 s.flips.size = r at hsize hbefore hbehind
  have htake : s.flips.toList.takeWhile (· ≤ c.toNat) = s.flips.toList.take r := by
    conv_lhs => rw [← List.take_append_drop r s.flips.toList]
    refine takeWhile_append_bar (fun k hk => ?_) (fun k hk => ?_)
    · obtain ⟨i, hi, rfl⟩ := List.mem_iff_getElem.mp hk
      have hlen : i < r := by
        rw [List.length_take] at hi
        omega
      have hle := hbefore i hlen
      have : i < s.flips.size := by omega
      simpa [Array.getD, this] using hle
    · rw [List.head?_drop] at hk
      obtain ⟨hr, rfl⟩ := List.getElem?_eq_some_iff.mp hk
      have hr' : r < s.flips.size := by simpa using hr
      have hlt := hbehind r le_rfl hr'
      simpa [Array.getD, hr'] using hlt
  rw [htake, List.length_take, Array.length_toList, min_eq_left hsize]

end CharSet

namespace Text

theorem flips_sorted : alphanumericBeyondAscii.flips.toList.Pairwise (· < ·) :=
  (List.isChain_iff_pairwise (R := (· < ·))).mp (by decide +kernel)

/-- The digits zero that are left when those are taken away whose script has all its ten digits
between two neighbouring flips. -/
def uncovered : List Nat → List Nat → List Nat
  | a :: b :: flips, zeros =>
    uncovered flips (zeros.dropWhile fun z => Nat.ble a z && Nat.ble (z + 10) b)
  | _, zeros => zeros

theorem uncovered_zeroDigits :
    uncovered alphanumericBeyondAscii.flips.toList (zeroDigits.drop 1) = [] := by
  decide +kernel

theorem takeWhile_odd_of_covered {flips zeros : List Nat} {z n : Nat}
    (hsorted : flips.Pairwise (· < ·)) (hz : z ∈ zeros) (hcovered : z ∉ uncovered flips zeros)
    (hlow : z ≤ n) (hhigh : n < z + 10) : (flips.takeWhile (· ≤ n)).length % 2 = 1 := by
  fun_induction uncovered flips zeros with
  | case1 a b flips zeros ih =>
    rw [List.pairwise_cons, List.pairwise_cons] at hsorted
    obtain ⟨ha, hb, hrest⟩ := hsorted
    by_cases hdropped : z ∈ zeros.dropWhile fun z => Nat.ble a z && Nat.ble (z + 10) b
    · have hodd := ih hrest hdropped hcovered
      obtain ⟨r, hr⟩ : ∃ r, r ∈ flips.takeWhile (· ≤ n) := by
        apply List.exists_mem_of_length_pos
        omega
      have hrn : r ≤ n := by simpa using List.mem_takeWhile_imp hr
      have hbr := hb r ((List.takeWhile_prefix _).subset hr)
      have hab := ha b (by simp)
      have hbn : b ≤ n := by omega
      have han : a ≤ n := by omega
      simp only [List.takeWhile_cons, decide_eq_true han, decide_eq_true hbn, if_true,
        List.length_cons]
      omega
    · rw [← List.takeWhile_append_dropWhile (p := fun z => Nat.ble a z && Nat.ble (z + 10) b)
        (l := zeros), List.mem_append, or_iff_left hdropped] at hz
      have hin : a ≤ z ∧ z + 10 ≤ b := by simpa using List.mem_takeWhile_imp hz
      have han : a ≤ n := by omega
      have hbn : ¬ b ≤ n := by omega
      simp [han, hbn]
  | case2 => exact absurd hz hcovered

theorem isWordChar_of_isDigit {c : Char} (h : isDigit c = true) : isWordChar c = true := by
  rw [isDigit, digitValue?] at h
  rw [isWordChar, isAlphanumeric, Bool.or_eq_true]
  right
  split_ifs at h ⊢ with hc hdigit
  · rw [Char.isAlphanum, hdigit, Bool.or_true]
  · cases h
  · rw [Option.isSome_map] at h
    obtain ⟨z, hz⟩ := Option.isSome_iff_exists.mp h
    have hrange : z ≤ c.toNat ∧ c.toNat < z + 10 := by simpa using List.find?_some hz
    have hbeyond : z ∈ zeroDigits.drop 1 := by
      obtain rfl | hz' := List.mem_cons.mp (List.mem_of_find?_eq_some hz)
      · omega
      · exact hz'
    have hcovered : z ∉ uncovered alphanumericBeyondAscii.flips.toList (zeroDigits.drop 1) := by
      rw [uncovered_zeroDigits]
      exact List.not_mem_nil
    exact (CharSet.contains_iff flips_sorted c).mpr
      (takeWhile_odd_of_covered flips_sorted hbeyond hcovered hrange.1 hrange.2)

end Text
end WhileSketch
