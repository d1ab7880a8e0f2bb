import Mathlib
import WhileSketch.Logic.Bounds
import WhileSketch.Proofs.Arithmetic.Feasibility

/-! What is known about sums of unknowns is true of all values for which the statements that it was
learned from are true. -/

namespace WhileSketch

variable {ρ : Valuation}

def Fact.Holds (ρ : Valuation) : Fact → Prop
  | .atLeast s n => n ≤ Coefficients.eval ρ s
  | .atMost s n => Coefficients.eval ρ s ≤ n
  | .equals s n => Coefficients.eval ρ s = n
  | .differs s n => Coefficients.eval ρ s ≠ n

theorem Fact.holds_negate (ρ : Valuation) (f : Fact) : f.negate.Holds ρ ↔ ¬f.Holds ρ := by
  cases f with
  | atLeast s n => simp only [negate, Holds, not_le, Int.le_sub_one_iff]
  | atMost s n => simp only [negate, Holds, not_le, Int.add_one_le_iff]
  | equals s n => rfl
  | differs s n => exact not_not.symm

def Relation.Holds : Relation → Int → Prop
  | .nonneg, v => 0 ≤ v
  | .zero, v => v = 0
  | .nonzero, v => v ≠ 0

def Claim.Holds (ρ : Valuation) : Claim → Prop
  | .decided b => b = true
  | .fact f => f.Holds ρ

theorem mul_add_eq_zero_iff {k s c : Int} (hk : k ≠ 0) (hc : k ∣ c) : k * s + c = 0 ↔ s = -(c / k) := by
  obtain ⟨q, rfl⟩ := hc
  rw [Int.mul_ediv_cancel_left _ hk, ← mul_add, mul_eq_zero, or_iff_right hk, eq_neg_iff_add_eq_zero]

/-- A comparison with zero and the statement about a sum say the same. -/
theorem Claim.holds_ofLinear (ρ : Valuation) (l : Linear) (r : Relation) :
    (Claim.ofLinear l r).Holds ρ ↔ r.Holds (l.eval ρ) := by
  unfold Claim.ofLinear
  dsimp only
  by_cases hg : (Coefficients.gcd l.terms : Int) = 0
  · rw [if_pos hg, Linear.eval, Coefficients.eval_eq_zero ρ hg, zero_add]
    cases r <;> simp [Claim.Holds, Relation.Holds]
  rw [if_neg hg]
  have hpos : (0 : Int) < Coefficients.gcd l.terms := by omega
  obtain ⟨k, hk⟩ : ∃ k : Int, k = if l.terms.head?.any (·.2 < 0) then
    -(Coefficients.gcd l.terms : Int) else Coefficients.gcd l.terms := ⟨_, rfl⟩
  have hkne : k ≠ 0 := by split_ifs at hk <;> omega
  have hdvd : ∀ c : Int, (Coefficients.gcd l.terms : Int) ∣ c ↔ k ∣ c := by
    intro c
    split_ifs at hk <;> simp [hk]
  have heval : l.eval ρ =
      k * Coefficients.eval ρ (l.terms.map fun t => (t.1, t.2 / k)) + l.const := by
    rw [Coefficients.eval_div ρ fun t ht => (hdvd _).mp (Coefficients.gcd_dvd ht)]
    rfl
  rw [heval, ← hk]
  cases r with
  | nonneg =>
    dsimp only
    rw [Int.fdiv_eq_ediv_of_nonneg _ hpos.le]
    split_ifs with hneg
    · show _ ≤ _ ↔ 0 ≤ _
      rw [if_pos hneg] at hk
      rw [Int.le_ediv_iff_mul_le hpos, hk]
      constructor <;> intro h <;> linarith
    · show _ ≤ _ ↔ 0 ≤ _
      rw [if_neg hneg] at hk
      rw [neg_le, Int.le_ediv_iff_mul_le hpos, hk]
      constructor <;> intro h <;> linarith
  | zero =>
    dsimp only
    split_ifs with hmod
    · exact (mul_add_eq_zero_iff hkne ((hdvd _).mp (Int.dvd_of_emod_eq_zero hmod))).symm
    · refine iff_of_false Bool.false_ne_true fun h => hmod (Int.emod_eq_zero_of_dvd ((hdvd _).mpr ?_))
      exact (dvd_add_right (dvd_mul_right _ _)).mp (h ▸ dvd_zero _)
  | nonzero =>
    dsimp only
    split_ifs with hmod
    · exact (mul_add_eq_zero_iff hkne ((hdvd _).mp (Int.dvd_of_emod_eq_zero hmod))).not.symm
    · refine iff_of_true rfl fun h => hmod (Int.emod_eq_zero_of_dvd ((hdvd _).mpr ?_))
      exact (dvd_add_right (dvd_mul_right _ _)).mp (h ▸ dvd_zero _)

namespace Range

variable {r : Range} {v : Int}

def Contains (r : Range) (v : Int) : Prop :=
  (∀ l, r.low = some l → l ≤ v) ∧ ∀ h, r.high = some h → v ≤ h

theorem contains_raise (r : Range) (n v : Int) : (r.raise n).Contains v ↔ r.Contains v ∧ n ≤ v := by
  unfold Contains raise
  cases r.low with
  | none => grind
  | some l => grind

theorem contains_lower (r : Range) (n v : Int) : (r.lower n).Contains v ↔ r.Contains v ∧ v ≤ n := by
  unfold Contains lower
  cases r.high with
  | none => grind
  | some h => grind

theorem sum_trim (r : Range) (ns : List Int) : (r.trim ns).sum = r.sum := by
  induction ns generalizing r with
  | nil => rfl
  | cons n ns ih =>
    rw [trim, ih]
    split_ifs <;> rfl

/-- Values that are not there can be taken off the ends of a range. -/
theorem Contains.trim (h : r.Contains v) {ns : List Int} (hns : ∀ n ∈ ns, v ≠ n) :
    (r.trim ns).Contains v := by
  induction ns generalizing r with
  | nil => exact h
  | cons n ns ih =>
    rw [List.forall_mem_cons] at hns
    rw [Range.trim]
    refine ih ?_ hns.2
    have hlow : (if r.low == some n then r.raise (n + 1) else r).Contains v := by
      split_ifs with hn
      · have hle := h.1 n (by simpa using hn)
        exact (contains_raise r (n + 1) v).mpr ⟨h, by omega⟩
      · exact h
    split_ifs at hlow ⊢ with hn hm hm
    all_goals first
      | exact hlow
      | have hle := hlow.2 n (by simpa using hm)
        exact (contains_lower _ (n - 1) v).mpr ⟨hlow, by omega⟩

theorem Contains.not_isEmpty (h : r.Contains v) : r.isEmpty = false := by
  unfold isEmpty
  cases hlow : r.low with
  | none => rfl
  | some l =>
    cases hhigh : r.high with
    | none => rfl
    | some u =>
      have hl := h.1 l hlow
      have hu := h.2 u hhigh
      simpa using hl.trans hu

theorem Contains.solves_system (h : r.Contains (Coefficients.eval ρ r.sum)) :
    Feasibility.Solves ρ r.system.1 r.system.2 := by
  have hhigh : ∀ n, r.high = some n → 0 ≤ Coefficients.eval ρ (Coefficients.scale (-1) r.sum) + n := by
    intro n hn
    have := h.2 n hn
    rw [Coefficients.eval_scale]
    omega
  unfold system Feasibility.Solves
  split
  case h_1 l u hl hu =>
    split_ifs with heq
    · subst heq
      have hzero : Coefficients.eval ρ r.sum + -l = 0 := by
        have := h.1 l hl
        have := h.2 l hu
        omega
      simpa [Linear.eval] using hzero
    · simpa [Linear.eval] using ⟨h.1 l hl, hhigh u hu⟩
  case h_2 l hl hu => simpa [Linear.eval] using h.1 l hl
  case h_3 u hl hu => simpa [Linear.eval] using hhigh u hu
  case h_4 => simp

end Range

namespace Bounds

variable {b : Bounds} {f : Fact}

/-- All that is known is true. -/
structure Holds (ρ : Valuation) (b : Bounds) : Prop where
  ranges : ∀ r ∈ b.ranges, r.Contains (Coefficients.eval ρ r.sum)
  gaps : ∀ g ∈ b.gaps, Coefficients.eval ρ g.1 ≠ g.2

theorem holds_empty (ρ : Valuation) : empty.Holds ρ :=
  ⟨by simp [empty], by simp [empty]⟩

theorem sum_range (b : Bounds) (sum : Coefficients) : (b.range sum).sum = sum := by
  unfold range
  cases h : b.ranges.find? fun r => r.sum = sum with
  | none => rfl
  | some r => simpa using List.find?_some h

theorem Holds.range (hb : b.Holds ρ) (sum : Coefficients) :
    (b.range sum).Contains (Coefficients.eval ρ sum) := by
  unfold Bounds.range
  cases h : b.ranges.find? fun r => r.sum = sum with
  | none => exact ⟨by simp, by simp⟩
  | some r =>
    have hsum : r.sum = sum := by simpa using List.find?_some h
    rw [← hsum]
    exact hb.ranges r (List.mem_of_find?_eq_some h)

theorem Holds.gapsOf (hb : b.Holds ρ) {sum : Coefficients} {n : Int} (hn : n ∈ b.gapsOf sum) :
    Coefficients.eval ρ sum ≠ n := by
  unfold Bounds.gapsOf at hn
  obtain ⟨⟨s, m⟩, hg, hsome⟩ := List.mem_filterMap.mp hn
  dsimp only at hsome
  split_ifs at hsome with hsum
  cases hsome
  exact hsum ▸ hb.gaps _ hg

theorem Holds.put (hb : b.Holds ρ) {r : Range} (hr : r.Contains (Coefficients.eval ρ r.sum)) :
    (b.put r).Holds ρ where
  ranges := List.forall_mem_cons.mpr ⟨hr, fun q hq => hb.ranges q (List.mem_of_mem_filter hq)⟩
  gaps := hb.gaps

/-- A true statement is learned without a contradiction. -/
theorem Holds.learn (hb : b.Holds ρ) (hf : f.Holds ρ) :
    ∃ b', b.learn f = some b' ∧ b'.Holds ρ := by
  have htrimmed : ∀ (r : Range) (gaps : List (Coefficients × Int)),
      r.sum = f.sum → r.Contains (Coefficients.eval ρ f.sum) →
      (∀ g ∈ gaps, Coefficients.eval ρ g.1 ≠ g.2) →
      ∃ b', (let b : Bounds := { b with gaps := gaps }
        let known := (b.gapsOf r.sum).mergeSort (· ≤ ·)
        let r := (r.trim known).trim known.reverse
        if r.isEmpty then none else some (b.put r)) = some b' ∧ b'.Holds ρ := by
    intro r gaps hsum hr hgaps
    have hb' : Bounds.Holds ρ (Bounds.mk b.ranges gaps) := ⟨hb.ranges, hgaps⟩
    have hknown : ∀ n ∈ (Bounds.gapsOf (Bounds.mk b.ranges gaps) r.sum).mergeSort (· ≤ ·),
        Coefficients.eval ρ f.sum ≠ n := by
      intro n hn
      rw [hsum] at hn
      exact hb'.gapsOf (List.mem_mergeSort.mp hn)
    have htrim := (hr.trim hknown).trim fun n hn => hknown n (List.mem_reverse.mp hn)
    rw [← ((Range.sum_trim _ _).trans (Range.sum_trim _ _)).trans hsum] at htrim
    dsimp only
    rw [htrim.not_isEmpty, if_neg Bool.false_ne_true]
    exact ⟨_, rfl, hb'.put htrim⟩
  have hrange := hb.range f.sum
  have hsum := sum_range b f.sum
  cases f with
  | atLeast s n => exact htrimmed _ _ hsum ((Range.contains_raise _ _ _).mpr ⟨hrange, hf⟩) hb.gaps
  | atMost s n => exact htrimmed _ _ hsum ((Range.contains_lower _ _ _).mpr ⟨hrange, hf⟩) hb.gaps
  | equals s n =>
    have hlow := (Range.contains_raise _ _ _).mpr ⟨hrange, hf.ge⟩
    exact htrimmed _ _ hsum ((Range.contains_lower _ _ _).mpr ⟨hlow, hf.le⟩) hb.gaps
  | differs s n => exact htrimmed _ _ hsum hrange (List.forall_mem_cons.mpr ⟨hf, hb.gaps⟩)

theorem Holds.truth (hb : b.Holds ρ) {v : Bool} (h : b.truth f = some v) : f.Holds ρ ↔ v = true := by
  obtain ⟨hlow, hhigh⟩ := hb.range f.sum
  have hgaps : ∀ n, n ∈ b.gapsOf f.sum → _ := fun n => hb.gapsOf
  unfold Bounds.truth at h
  cases f with
  | atLeast s n | atMost s n =>
    simp only [Fact.sum, Option.any_eq_true, decide_eq_true_eq] at h hlow hhigh
    simp only [Fact.Holds]
    split_ifs at h with htrue hfalse
    · grind
    · grind
  | equals s n | differs s n =>
    simp only [Fact.sum, Option.any_eq_true, decide_eq_true_eq, Bool.and_eq_true, beq_iff_eq,
      Bool.or_eq_true, List.contains_iff_mem] at h hlow hhigh hgaps
    simp only [Fact.Holds]
    split_ifs at h with htrue hfalse
    · grind
    · grind

/-- Ranges that are found to have no values in them have none. -/
theorem Holds.solve_ne_unsat (hb : b.Holds ρ) : b.solve ≠ .unsat := by
  intro hunsat
  refine Feasibility.refutes _ ρ hunsat ⟨fun e he => ?_, fun l hl => ?_⟩
  · simp only [List.mem_flatMap, List.mem_map, List.mem_reverse] at he
    obtain ⟨_, ⟨r, hr, rfl⟩, he⟩ := he
    exact (hb.ranges r hr).solves_system.1 e he
  · simp only [List.mem_flatMap, List.mem_map, List.mem_reverse] at hl
    obtain ⟨_, ⟨r, hr, rfl⟩, hl⟩ := hl
    exact (hb.ranges r hr).solves_system.2 l hl

theorem mem_gaps_of_violated {m : Assignment} {g : Coefficients × Int} (h : b.violated m = some g) :
    g ∈ b.gaps :=
  List.mem_of_find?_eq_some h

/-- A sum is on one of the sides of a number that it differs from. -/
theorem Holds.exists_beside (hb : b.Holds ρ) {g : Coefficients × Int} (hg : g ∈ b.gaps) :
    ∃ f ∈ [Fact.atLeast g.1 (g.2 + 1), .atMost g.1 (g.2 - 1)], f.Holds ρ := by
  rcases lt_or_gt_of_ne (hb.gaps g hg) with hbelow | habove
  · exact ⟨.atMost g.1 (g.2 - 1), by simp, Int.le_sub_one_of_lt hbelow⟩
  · exact ⟨.atLeast g.1 (g.2 + 1), by simp, Int.add_one_le_of_lt habove⟩

end Bounds

end WhileSketch
