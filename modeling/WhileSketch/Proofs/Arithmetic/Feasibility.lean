import Mathlib
import WhileSketch.Arithmetic.Feasibility

/-! Elimination of unknowns loses no solution: a system that is found to have none has none. -/

namespace WhileSketch

abbrev Valuation := Nat → Int

namespace Coefficients

variable {xs ys : Coefficients} {x n : Nat} {k : Int}

def eval (ρ : Valuation) (xs : Coefficients) : Int :=
  (xs.map fun t => t.2 * ρ t.1).sum

@[simp]
theorem eval_nil (ρ : Valuation) : eval ρ [] = 0 :=
  rfl

@[simp]
theorem eval_cons (ρ : Valuation) (t : Nat × Int) (xs : Coefficients) :
    eval ρ (t :: xs) = t.2 * ρ t.1 + eval ρ xs := by
  simp [eval]

theorem eval_add (ρ : Valuation) (xs ys : Coefficients) :
    eval ρ (add xs ys) = eval ρ xs + eval ρ ys := by
  fun_induction add xs ys with
  | case1 ys => simp
  | case2 xs => simp
  | case3 x a xs y b ys hlt ih => simp only [eval_cons, ih]; ring
  | case4 x a xs y b ys hle hlt ih => simp only [eval_cons, ih]; ring
  | case5 x a xs y b ys hle hge hzero ih =>
    obtain rfl : x = y := by omega
    rw [ih, eval_cons, eval_cons]
    linear_combination (-ρ x) * hzero
  | case6 x a xs y b ys hle hge hzero ih =>
    obtain rfl : x = y := by omega
    simp only [eval_cons, ih]
    ring

theorem eval_scale (ρ : Valuation) (k : Int) (xs : Coefficients) :
    eval ρ (scale k xs) = k * eval ρ xs := by
  unfold scale
  split_ifs with hk
  · simp [hk]
  · induction xs with
    | nil => simp
    | cons t xs ih =>
      rw [List.map_cons, eval_cons, ih, eval_cons]
      ring

theorem eval_erase (ρ : Valuation) (xs : Coefficients) (x : Nat) :
    eval ρ xs = get xs x * ρ x + eval ρ (erase xs x) := by
  induction xs with
  | nil => simp [get, erase]
  | cons t xs ih =>
    obtain ⟨y, a⟩ := t
    have hget : get ((y, a) :: xs) x = if y = x then a + get xs x else get xs x := rfl
    by_cases hy : y = x
    · subst hy
      have herase : erase ((y, a) :: xs) y = erase xs y := by simp [erase]
      rw [hget, if_pos rfl, herase, eval_cons, ih]
      ring
    · have herase : erase ((y, a) :: xs) x = (y, a) :: erase xs x := by simp [erase, hy]
      rw [hget, if_neg hy, herase, eval_cons, eval_cons, ih]
      ring

theorem foldl_gcd_dvd (xs : Coefficients) (g : Nat) :
    xs.foldl (fun g t => Nat.gcd g t.2.natAbs) g ∣ g ∧
      ∀ t ∈ xs, xs.foldl (fun g t => Nat.gcd g t.2.natAbs) g ∣ t.2.natAbs := by
  induction xs generalizing g with
  | nil => simp
  | cons t xs ih =>
    obtain ⟨hg, hxs⟩ := ih (Nat.gcd g t.2.natAbs)
    rw [List.foldl_cons, List.forall_mem_cons]
    exact ⟨hg.trans (Nat.gcd_dvd_left _ _), hg.trans (Nat.gcd_dvd_right _ _), hxs⟩

theorem gcd_dvd {t : Nat × Int} (ht : t ∈ xs) : (gcd xs : Int) ∣ t.2 :=
  Int.natCast_dvd.mpr ((foldl_gcd_dvd xs 0).2 t ht)

theorem eval_div (ρ : Valuation) (hk : ∀ t ∈ xs, k ∣ t.2) :
    k * eval ρ (xs.map fun t => (t.1, t.2 / k)) = eval ρ xs := by
  induction xs with
  | nil => simp
  | cons t xs ih =>
    rw [List.forall_mem_cons] at hk
    rw [List.map_cons, eval_cons, eval_cons, mul_add, ih hk.2, ← mul_assoc, Int.mul_ediv_cancel' hk.1]

theorem eval_eq_zero (ρ : Valuation) (h : (gcd xs : Int) = 0) : eval ρ xs = 0 := by
  have hzero : ∀ t ∈ xs, t.2 = 0 := by
    intro t ht
    have hdvd := gcd_dvd ht
    rwa [h, zero_dvd_iff] at hdvd
  rw [← eval_div ρ (k := 0) (by simpa using hzero), zero_mul]

theorem eval_update (ρ : Valuation) (hx : ∀ t ∈ xs, t.1 ≠ x) (v : Int) :
    eval (Function.update ρ x v) xs = eval ρ xs := by
  unfold eval
  congr 1
  refine List.map_congr_left fun t ht => ?_
  rw [Function.update_of_ne (hx t ht)]

end Coefficients

namespace Linear

variable {l v : Linear} {x : Nat}

def eval (ρ : Valuation) (l : Linear) : Int :=
  Coefficients.eval ρ l.terms + l.const

theorem eval_add (ρ : Valuation) (l k : Linear) : (l.add k).eval ρ = l.eval ρ + k.eval ρ := by
  unfold eval add
  rw [Coefficients.eval_add]
  ring

theorem eval_scale (ρ : Valuation) (k : Int) (l : Linear) : (l.scale k).eval ρ = k * l.eval ρ := by
  unfold eval scale
  rw [Coefficients.eval_scale]
  ring

theorem eval_erase (ρ : Valuation) (l : Linear) (x : Nat) :
    l.eval ρ = Coefficients.get l.terms x * ρ x + (l.erase x).eval ρ := by
  unfold eval erase
  rw [Coefficients.eval_erase ρ l.terms x]
  ring

theorem eval_substitute {ρ : Valuation} (h : v.eval ρ = ρ x) (l : Linear) :
    (substitute x v l).eval ρ = l.eval ρ := by
  unfold substitute
  dsimp only
  split_ifs with ha
  · rfl
  · rw [eval_add, eval_scale, h, eval_erase ρ l x]
    ring

theorem eval_update {ρ : Valuation} (hx : ∀ t ∈ l.terms, t.1 ≠ x) (v : Int) :
    l.eval (Function.update ρ x v) = l.eval ρ := by
  unfold eval
  rw [Coefficients.eval_update ρ hx]

end Linear

namespace Verdict

variable {α β : Type} {v : Verdict α} {ask : α → Verdict β} {qs : List α}

theorem map_eq_unsat {f : α → β} : v.map f = .unsat ↔ v = .unsat := by
  cases v <;> simp [map]

theorem map_eq_sat {f : α → β} {b : β} : v.map f = .sat b ↔ ∃ a, v = .sat a ∧ f a = b := by
  cases v <;> simp [map]

theorem get?_eq_some {a : α} : v.get? = some a ↔ v = .sat a := by
  cases v <;> simp [get?]

theorem first_eq_unsat : first ask qs = .unsat ↔ ∀ q ∈ qs, ask q = .unsat := by
  induction qs with
  | nil => simp [first]
  | cons q qs ih =>
    rw [first, List.forall_mem_cons]
    cases ask q with
    | sat b => simp
    | unsat => simp [ih]
    | unknown => cases first ask qs <;> simp

theorem exists_of_first_eq_sat {b : β} (h : first ask qs = .sat b) : ∃ q ∈ qs, ask q = .sat b := by
  induction qs with
  | nil => simp [first] at h
  | cons q qs ih =>
    rw [first] at h
    cases hq : ask q with
    | sat b' =>
      rw [hq] at h
      cases h
      exact ⟨q, List.mem_cons_self, hq⟩
    | unsat =>
      rw [hq] at h
      obtain ⟨r, hr, hb⟩ := ih h
      exact ⟨r, List.mem_cons_of_mem q hr, hb⟩
    | unknown =>
      rw [hq] at h
      cases hrest : first ask qs with
      | sat b' =>
        rw [hrest] at h
        cases h
        obtain ⟨r, hr, hb⟩ := ih hrest
        exact ⟨r, List.mem_cons_of_mem q hr, hb⟩
      | _ => rw [hrest] at h; cases h

end Verdict

namespace Feasibility

variable {ρ : Valuation} {es ls : List Linear} {l e : Linear} {x : Nat} {a : Int}

/-- The values of the unknowns are a solution of a system. -/
def Solves (ρ : Valuation) (es ls : List Linear) : Prop :=
  (∀ e ∈ es, e.eval ρ = 0) ∧ ∀ l ∈ ls, 0 ≤ l.eval ρ

section Reductions

/-- What is left of a statement about an expression. -/
def Reduced.Says (p : Linear → Prop) : Reduced → Prop
  | .holds => True
  | .fails => False
  | .depends l => p l

theorem eval_eq_mul (ρ : Valuation) (l : Linear) :
    l.eval ρ = (Coefficients.gcd l.terms : Int) * Coefficients.eval ρ
      (l.terms.map fun t => (t.1, t.2 / (Coefficients.gcd l.terms : Int))) + l.const := by
  rw [Coefficients.eval_div ρ fun t => Coefficients.gcd_dvd]
  rfl

theorem says_reduceInequality (ρ : Valuation) (l : Linear) :
    (reduceInequality l).Says (0 ≤ ·.eval ρ) ↔ 0 ≤ l.eval ρ := by
  unfold reduceInequality
  dsimp only
  split_ifs with hg hconst
  · simp [Reduced.Says, Linear.eval, Coefficients.eval_eq_zero ρ hg, hconst]
  · simp [Reduced.Says, Linear.eval, Coefficients.eval_eq_zero ρ hg, hconst]
  · have hpos : (0 : Int) < Coefficients.gcd l.terms := by omega
    rw [eval_eq_mul ρ l]
    show 0 ≤ Coefficients.eval ρ _ + l.const / _ ↔ _
    rw [add_comm, ← Int.add_mul_ediv_left _ _ hg, Int.le_ediv_iff_mul_le hpos, zero_mul, add_comm]

theorem says_reduceEquation (ρ : Valuation) (l : Linear) :
    (reduceEquation l).Says (·.eval ρ = 0) ↔ l.eval ρ = 0 := by
  unfold reduceEquation
  dsimp only
  split_ifs with hg hconst hmod
  · simp [Reduced.Says, Linear.eval, Coefficients.eval_eq_zero ρ hg, hconst]
  · simp [Reduced.Says, Linear.eval, Coefficients.eval_eq_zero ρ hg, hconst]
  · obtain ⟨c, hc⟩ := Int.dvd_of_emod_eq_zero hmod
    rw [eval_eq_mul ρ l]
    show Coefficients.eval ρ _ + l.const / _ = 0 ↔ _
    rw [hc, Int.mul_ediv_cancel_left _ hg, ← mul_add, mul_eq_zero, or_iff_right hg]
  · rw [eval_eq_mul ρ l]
    refine iff_of_false id fun h => hmod (Int.emod_eq_zero_of_dvd ?_)
    exact (dvd_add_right (dvd_mul_right _ _)).mp (h ▸ dvd_zero _)

theorem forall_insertInequality (ρ : Valuation) (l : Linear) (ls : List Linear) :
    (∀ k ∈ insertInequality l ls, 0 ≤ k.eval ρ) ↔ 0 ≤ l.eval ρ ∧ ∀ k ∈ ls, 0 ≤ k.eval ρ := by
  induction ls with
  | nil => simp [insertInequality]
  | cons k ks ih =>
    rw [insertInequality]
    split_ifs with hterms hconst
    · simp only [List.forall_mem_cons, Linear.eval, hterms]
      grind
    · simp only [List.forall_mem_cons, Linear.eval, hterms]
      grind
    · rw [List.forall_mem_cons, List.forall_mem_cons, ih]
      tauto

/-- The inequalities in their sharpest form have the same solutions. -/
theorem reduceAll_spec (ρ : Valuation) (ls : List Linear) :
    (∃ ks, reduceAll ls = some ks ∧ ∀ k ∈ ks, 0 ≤ k.eval ρ) ↔ ∀ l ∈ ls, 0 ≤ l.eval ρ := by
  induction ls with
  | nil => simp [reduceAll]
  | cons l ls ih =>
    rw [reduceAll, List.forall_mem_cons, ← says_reduceInequality ρ l, ← ih]
    cases reduceInequality l with
    | holds => simp [Reduced.Says]
    | fails => simp [Reduced.Says]
    | depends k =>
      simp only [Reduced.Says, Option.map_eq_some_iff]
      constructor
      · rintro ⟨_, ⟨ks, hks, rfl⟩, hall⟩
        rw [forall_insertInequality] at hall
        exact ⟨hall.1, ks, hks, hall.2⟩
      · rintro ⟨hk, ks, hks, hall⟩
        exact ⟨_, ⟨ks, hks, rfl⟩, (forall_insertInequality ρ k ks).mpr ⟨hk, hall⟩⟩

/-- Two inequalities about opposite sums leave an equation or nothing. -/
theorem squeeze?_spec (hls : ∀ l ∈ ls, 0 ≤ l.eval ρ) :
    squeeze? ls ≠ some .empty ∧ ∀ l, squeeze? ls = some (.equation l) → l.eval ρ = 0 := by
  induction ls with
  | nil => simp [squeeze?]
  | cons l ls ih =>
    rw [List.forall_mem_cons] at hls
    rw [squeeze?]
    split
    case h_1 k hk =>
      have hopposite := List.find?_some hk
      have hkpos := hls.2 k (List.mem_of_find?_eq_some hk)
      have hsum : l.eval ρ + k.eval ρ = l.const + k.const := by
        rw [Linear.eval, Linear.eval, of_decide_eq_true hopposite, Coefficients.eval_scale]
        ring
      split_ifs with hempty hpoint
      · omega
      · refine ⟨by simp, fun l' hl' => ?_⟩
        cases hl'
        omega
      · exact ih hls.2
    case h_2 => exact ih hls.2

end Reductions

section Equations

theorem mem_of_foldr_lesser {ts : Coefficients} {t : Nat × Int}
    (h : ts.foldr lesser none = some t) : t ∈ ts ∧ t.2 ≠ 0 := by
  induction ts with
  | nil => cases h
  | cons u ts ih =>
    rw [List.foldr_cons] at h
    cases hrest : ts.foldr lesser none with
    | none =>
      rw [hrest, lesser] at h
      grind
    | some r =>
      rw [hrest, lesser] at h
      grind

theorem leastTerm_spec {xs : Coefficients} (h : leastTerm xs = some (x, a)) :
    a = Coefficients.get xs x ∧ a ≠ 0 ∧ ∃ t ∈ xs, t.1 = x := by
  obtain ⟨ht, hne⟩ := mem_of_foldr_lesser h
  obtain ⟨u, hmem, hu⟩ := List.mem_map.mp ht
  cases hu
  exact ⟨rfl, hne, u, hmem, rfl⟩

theorem lt_fresh (hl : l ∈ ls) : ∀ t ∈ l.terms, t.1 < fresh ls := by
  have hfold : ∀ (ts : List (Nat × Int)), ∀ t ∈ ts,
      t.1 < ts.foldr (fun t n => max n (t.1 + 1)) 0 := by
    intro ts
    induction ts with
    | nil => simp
    | cons u ts ih =>
      rw [List.forall_mem_cons, List.foldr_cons]
      refine ⟨by omega, fun t ht => ?_⟩
      have := ih t ht
      omega
  intro t ht
  exact hfold _ t (List.mem_flatMap.mpr ⟨l, hl, ht⟩)

theorem dvd_centredMod_sub (a m : Int) : m ∣ centredMod a m - a := by
  unfold centredMod
  dsimp only
  have hmod : m ∣ a % m - a := by
    rw [← Int.neg_sub]
    exact (Int.dvd_self_sub_emod).neg_right
  split_ifs
  · exact hmod
  · rw [sub_right_comm]
    exact hmod.sub (dvd_refl m)

theorem dvd_eval_centredMod_sub (ρ : Valuation) (xs : Coefficients) (m : Int) :
    m ∣ Coefficients.eval ρ ((xs.map fun t => (t.1, centredMod t.2 m)).filter (·.2 != 0)) -
      Coefficients.eval ρ xs := by
  induction xs with
  | nil => simp
  | cons t xs ih =>
    rw [List.map_cons, List.filter_cons, Coefficients.eval_cons]
    obtain ⟨c, hc⟩ := dvd_centredMod_sub t.2 m
    obtain ⟨d, hd⟩ := ih
    split_ifs with hzero
    · rw [Coefficients.eval_cons]
      exact ⟨c * ρ t.1 + d, by linear_combination hd + hc * ρ t.1⟩
    · have hcentred : centredMod t.2 m = 0 := by simpa using hzero
      rw [hcentred] at hc
      exact ⟨c * ρ t.1 + d, by linear_combination hd + hc * ρ t.1⟩

/-- Where an equation holds, there is a value of a new unknown for which another one is as the
equation says. -/
theorem exists_eval_splitUnknown (he : e.eval ρ = 0) (ha : a = Coefficients.get e.terms x)
    (hne : a ≠ 0) {n : Nat} (hn : ∀ t ∈ e.terms, t.1 ≠ n) :
    ∃ v, (splitUnknown e x a n).eval (Function.update ρ n v) = ρ x := by
  let m : Int := a.natAbs + 1
  let rest : Linear := ⟨((Coefficients.erase e.terms x).map fun t =>
    (t.1, centredMod t.2 m)).filter (·.2 != 0), centredMod e.const m⟩
  have hrest : ∀ v, rest.eval (Function.update ρ n v) = rest.eval ρ := by
    refine fun v => Linear.eval_update (fun t ht => ?_) v
    obtain ⟨u, hu, rfl⟩ := List.mem_map.mp (List.mem_of_mem_filter ht)
    exact hn u (List.mem_of_mem_filter hu)
  have hdvd : m ∣ rest.eval ρ - a.sign * ρ x := by
    obtain ⟨c, hc⟩ := dvd_eval_centredMod_sub ρ (Coefficients.erase e.terms x) m
    obtain ⟨d, hd⟩ := dvd_centredMod_sub e.const m
    have hequation := Linear.eval_erase ρ e x
    rw [he, ← ha] at hequation
    have habs : a = a.sign * (m - 1) := by
      show a = a.sign * (a.natAbs + 1 - 1)
      rw [add_sub_cancel_right, Int.sign_mul_natAbs]
    refine ⟨c + d - a.sign * ρ x, ?_⟩
    have heval : rest.eval ρ = Coefficients.eval ρ rest.terms + rest.const := rfl
    have herase : (e.erase x).eval ρ = Coefficients.eval ρ (Coefficients.erase e.terms x) + e.const :=
      rfl
    rw [heval]
    linear_combination hc + hd - hequation - herase - ρ x * habs
  obtain ⟨v, hv⟩ := hdvd
  have hsign : a.sign * a.sign = 1 := by
    rcases hne.lt_or_gt with hneg | hpos
    · rw [Int.sign_eq_neg_one_of_neg hneg]
      rfl
    · rw [Int.sign_eq_one_of_pos hpos]
      rfl
  have hunknown : (Linear.unknown n).eval (Function.update ρ n v) = v := by
    simp [Linear.unknown, Linear.eval]
  refine ⟨v, ?_⟩
  show ((rest.add ((Linear.unknown n).scale (-m))).scale a.sign).eval _ = _
  rw [Linear.eval_scale, Linear.eval_add, Linear.eval_scale, hrest, hunknown]
  linear_combination a.sign * hv + ρ x * hsign

end Equations

section Inequalities

theorem partitionAt_eq (x : Nat) (ls : List Linear) :
    partitionAt x ls = (ls.filter (0 < Coefficients.get ·.terms x),
      ls.filter (Coefficients.get ·.terms x < 0), ls.filter (Coefficients.get ·.terms x = 0)) := by
  induction ls with
  | nil => rfl
  | cons l ls ih =>
    have hcons : partitionAt x (l :: ls) = _ :=
      congrArg (fun parts : List Linear × List Linear × List Linear =>
        if 0 < Coefficients.get l.terms x then (l :: parts.1, parts.2.1, parts.2.2)
        else if Coefficients.get l.terms x < 0 then (parts.1, l :: parts.2.1, parts.2.2)
        else (parts.1, parts.2.1, l :: parts.2.2)) ih
    rw [hcons]
    simp only [List.filter_cons, decide_eq_true_eq]
    split_ifs <;> first | rfl | omega

variable {low high : Linear} {lows highs rest : List Linear}

theorem eval_combine (ρ : Valuation) (x : Nat) (dark : Bool) (low high : Linear) :
    (combine x dark low high).eval ρ =
      -Coefficients.get high.terms x * (low.erase x).eval ρ +
        Coefficients.get low.terms x * (high.erase x).eval ρ -
      if dark then (-Coefficients.get high.terms x - 1) * (Coefficients.get low.terms x - 1) else 0 := by
  have hsum := Linear.eval_add ρ ((low.erase x).scale (-Coefficients.get high.terms x))
    ((high.erase x).scale (Coefficients.get low.terms x))
  rw [Linear.eval_scale, Linear.eval_scale] at hsum
  cases dark with
  | false => rw [if_neg Bool.false_ne_true, sub_zero, ← hsum]; rfl
  | true =>
    rw [if_pos rfl, ← hsum, Linear.eval, Linear.eval]
    exact add_sub_assoc _ _ _ |>.symm

/-- A lower and an upper bound of an unknown that is there have their consequence. -/
theorem eval_combine_nonneg (hlow : 0 < Coefficients.get low.terms x)
    (hhigh : Coefficients.get high.terms x < 0) (hl : 0 ≤ low.eval ρ) (hh : 0 ≤ high.eval ρ) :
    0 ≤ (combine x false low high).eval ρ := by
  rw [Linear.eval_erase ρ low x] at hl
  rw [Linear.eval_erase ρ high x] at hh
  rw [eval_combine, if_neg Bool.false_ne_true]
  have hleft := mul_nonneg (neg_nonneg.mpr hhigh.le) hl
  have hright := mul_nonneg hlow.le hh
  linarith

theorem le_foldl_max {l : Linear} {ls : List Linear} (hl : l ∈ ls) (v : Int) :
    -Coefficients.get l.terms x ≤ ls.foldl (fun v l => max v (-Coefficients.get l.terms x)) v := by
  have hstart : ∀ (ls : List Linear) (v : Int),
      v ≤ ls.foldl (fun v l => max v (-Coefficients.get l.terms x)) v := by
    intro ls
    induction ls with
    | nil => exact fun v => le_rfl
    | cons l ls ih => exact fun v => (le_max_left _ _).trans (ih _)
  induction ls generalizing v with
  | nil => cases hl
  | cons k ls ih =>
    rcases List.mem_cons.mp hl with rfl | hl
    · exact (le_max_right _ _).trans (hstart ls _)
    · exact ih hl _

/-- Where the sharp consequence of two bounds fails, the lower one is missed by less than the
coefficients leave room for. -/
theorem exists_splinter (hlow : 0 < Coefficients.get low.terms x)
    (hhigh : Coefficients.get high.terms x < 0) (hl : 0 ≤ low.eval ρ) (hh : 0 ≤ high.eval ρ)
    (hdark : (combine x true low high).eval ρ < 0) (hlows : low ∈ lows) (hhighs : high ∈ highs) :
    ∃ e ∈ splinters x lows highs, e.eval ρ = 0 := by
  set b := Coefficients.get low.terms x with hb
  set a := -Coefficients.get high.terms x with ha
  let most := highs.foldl (fun v l => max v (-Coefficients.get l.terms x)) 1
  have hmost : a ≤ most := le_foldl_max hhighs 1
  have hapos : 0 < a := by omega
  have hi : low.eval ρ * most ≤ most * b - most - b := by
    have hlowEval := Linear.eval_erase ρ low x
    have hhighEval := Linear.eval_erase ρ high x
    rw [eval_combine, if_pos rfl] at hdark
    have hbound : low.eval ρ * a ≤ a * b - a - b := by
      have hmul := mul_nonneg hlow.le hh
      have hprod : low.eval ρ * a + b * high.eval ρ =
          a * (low.erase x).eval ρ + b * (high.erase x).eval ρ := by
        rw [hlowEval, hhighEval, ha, ← hb]
        ring
      have hexpand : (a - 1) * (b - 1) = a * b - a - b + 1 := by ring
      rw [← ha, ← hb] at hdark
      linarith
    have hsmall : low.eval ρ + 1 ≤ b := by
      by_contra hlarge
      have : b * a ≤ low.eval ρ * a := mul_le_mul_of_nonneg_right (by omega) hapos.le
      linarith [mul_comm a b]
    have hmore : (most - a) * (low.eval ρ + 1) ≤ (most - a) * b :=
      mul_le_mul_of_nonneg_left hsmall (by omega)
    linarith [sub_mul most a (low.eval ρ + 1), sub_mul most a b, mul_add most (low.eval ρ) 1,
      mul_add a (low.eval ρ) 1, mul_comm most (low.eval ρ), mul_comm a (low.eval ρ)]
  refine ⟨{ low with const := low.const - low.eval ρ }, ?_, ?_⟩
  · refine List.mem_flatMap.mpr ⟨low, hlows, List.mem_map.mpr ⟨(low.eval ρ).toNat, ?_, ?_⟩⟩
    · have hle : low.eval ρ ≤ (most * b - most - b) / most :=
        (Int.le_ediv_iff_mul_le (by omega)).mpr hi
      rw [List.mem_range]
      show (low.eval ρ).toNat < ((most * b - most - b) / most + 1).toNat
      omega
    · rw [Int.toNat_of_nonneg hl]
  · show Coefficients.eval ρ low.terms + (low.const - low.eval ρ) = 0
    rw [Linear.eval]
    ring

/-- The inequalities that do not speak of an unknown hold, and so do the consequences of the others. -/
theorem forall_shadow (hls : ∀ l ∈ ls, 0 ≤ l.eval ρ)
    (hparts : partitionAt x ls = (lows, highs, rest)) :
    ∀ l ∈ shadow x false lows highs rest, 0 ≤ l.eval ρ := by
  rw [partitionAt_eq] at hparts
  cases hparts
  intro l hl
  obtain hl | hl := List.mem_append.mp hl
  · exact hls l (List.mem_of_mem_filter hl)
  · obtain ⟨low, hlow, hl⟩ := List.mem_flatMap.mp hl
    obtain ⟨high, hhigh, rfl⟩ := List.mem_map.mp hl
    simp only [List.mem_filter, decide_eq_true_eq] at hlow hhigh
    exact eval_combine_nonneg hlow.2 hhigh.2 (hls low hlow.1) (hls high hhigh.1)

/-- Either the sharp consequences hold, or one of the equations between them and the others. -/
theorem forall_shadow_or_splinter (hls : ∀ l ∈ ls, 0 ≤ l.eval ρ)
    (hparts : partitionAt x ls = (lows, highs, rest)) :
    (∀ l ∈ shadow x true lows highs rest, 0 ≤ l.eval ρ) ∨
      ∃ e ∈ splinters x lows highs, e.eval ρ = 0 := by
  rw [or_iff_not_imp_left]
  intro hdark
  push Not at hdark
  obtain ⟨l, hl, hneg⟩ := hdark
  rw [partitionAt_eq] at hparts
  cases hparts
  obtain hl | hl := List.mem_append.mp hl
  · exact absurd (hls l (List.mem_of_mem_filter hl)) (by omega)
  · obtain ⟨low, hlow, hl⟩ := List.mem_flatMap.mp hl
    obtain ⟨high, hhigh, rfl⟩ := List.mem_map.mp hl
    have hlow' := hlow
    have hhigh' := hhigh
    simp only [List.mem_filter, decide_eq_true_eq] at hlow' hhigh'
    exact exists_splinter hlow'.2 hhigh'.2 (hls low hlow'.1) (hls high hhigh'.1) hneg hlow hhigh

end Inequalities

theorem Solves.map_substitute {v : Linear} (h : Solves ρ es ls) (hv : v.eval ρ = ρ x) :
    Solves ρ (es.map (Linear.substitute x v)) (ls.map (Linear.substitute x v)) := by
  refine ⟨fun e he => ?_, fun l hl => ?_⟩
  · obtain ⟨e, hmem, rfl⟩ := List.mem_map.mp he
    rw [Linear.eval_substitute hv, h.1 e hmem]
  · obtain ⟨l, hmem, rfl⟩ := List.mem_map.mp hl
    rw [Linear.eval_substitute hv]
    exact h.2 l hmem

theorem Solves.update (h : Solves ρ es ls) {n : Nat} (hn : fresh (es ++ ls) ≤ n) (v : Int) :
    Solves (Function.update ρ n v) es ls := by
  have hsame : ∀ l ∈ es ++ ls, l.eval (Function.update ρ n v) = l.eval ρ := by
    refine fun l hl => Linear.eval_update (fun t ht => ?_) v
    exact ((lt_fresh hl t ht).trans_le hn).ne
  refine ⟨fun e he => ?_, fun l hl => ?_⟩
  · rw [hsame e (List.mem_append_left _ he), h.1 e he]
  · rw [hsame l (List.mem_append_right _ hl)]
    exact h.2 l hl

theorem eval_scale_erase (he : e.eval ρ = 0) (ha : a = Coefficients.get e.terms x)
    (hunit : a.natAbs = 1) : ((e.erase x).scale (-a)).eval ρ = ρ x := by
  have hequation := Linear.eval_erase ρ e x
  have hsquare : a * a = 1 := by
    rw [← Int.natAbs_mul_self' a, hunit]
    rfl
  rw [he, ← ha] at hequation
  rw [Linear.eval_scale]
  linear_combination a * hequation + ρ x * hsquare

/-- A system for which no solution is said to exist, with some number of steps left, has none. -/
def Refutes (fuel : Nat) : Prop :=
  ∀ {es ls : List Linear} (ρ : Valuation), solveWithin fuel es ls = .unsat → ¬Solves ρ es ls

variable {fuel : Nat}

theorem Refutes.equation (hfuel : Refutes fuel) (h : solveWithin (fuel + 1) (e :: es) ls = .unsat) :
    ¬Solves ρ (e :: es) ls := by
  intro hsolves
  have hzero := (says_reduceEquation ρ e).mpr (hsolves.1 e List.mem_cons_self)
  have hrest : Solves ρ es ls := ⟨fun k hk => hsolves.1 k (List.mem_cons_of_mem e hk), hsolves.2⟩
  rw [solveWithin] at h
  cases hreduced : reduceEquation e with
  | holds =>
    rw [hreduced] at h
    exact hfuel ρ h hrest
  | fails =>
    rw [hreduced] at hzero
    exact hzero
  | depends e =>
    rw [hreduced] at h hzero
    replace hzero : e.eval ρ = 0 := hzero
    have hall : Solves ρ (e :: es) ls := ⟨List.forall_mem_cons.mpr ⟨hzero, hrest.1⟩, hrest.2⟩
    cases hleast : leastTerm e.terms with
    | none => simp [hleast] at h
    | some t =>
      obtain ⟨x, a⟩ := t
      obtain ⟨ha, hne, t, ht, rfl⟩ := leastTerm_spec hleast
      simp only [hleast] at h
      split_ifs at h with hunit
      · rw [extend, Verdict.map_eq_unsat] at h
        exact hfuel ρ h (hrest.map_substitute (eval_scale_erase hzero ha hunit))
      · rw [extend, Verdict.map_eq_unsat] at h
        have hlt : ∀ t ∈ e.terms, t.1 < fresh (e :: es ++ ls) := lt_fresh List.mem_cons_self
        obtain ⟨v, hv⟩ := exists_eval_splitUnknown hzero ha hne fun t ht => (hlt t ht).ne
        refine hfuel _ h ((hall.update le_rfl v).map_substitute ?_)
        rw [Function.update_of_ne (hlt t ht).ne]
        exact hv

/-- The consequences of the bounds of an unknown are refuted, or the sharp ones and all that is between. -/
theorem Refutes.shadows (hfuel : Refutes fuel) {lows highs rest : List Linear}
    (hls : ∀ l ∈ ls, 0 ≤ l.eval ρ) (hparts : partitionAt x ls = (lows, highs, rest))
    (h : solveWithin fuel [] (shadow x false lows highs rest) = .unsat ∨
      solveWithin fuel [] (shadow x true lows highs rest) = .unsat ∧
        Verdict.first (fun e => solveWithin fuel [e] ls) (splinters x lows highs) = .unsat) : False := by
  obtain hreal | ⟨hdark, hbetween⟩ := h
  · exact hfuel ρ hreal ⟨by simp, forall_shadow hls hparts⟩
  · rcases forall_shadow_or_splinter hls hparts with hsharp | ⟨e, he, hsplinter⟩
    · exact hfuel ρ hdark ⟨by simp, hsharp⟩
    · exact hfuel ρ (Verdict.first_eq_unsat.mp hbetween e he) ⟨by simpa using hsplinter, hls⟩

theorem Refutes.inequalities (hfuel : Refutes fuel) (h : solveWithin (fuel + 1) [] ls = .unsat) :
    ¬Solves ρ [] ls := by
  intro hsolves
  obtain ⟨ks, hks, hpos⟩ := (reduceAll_spec ρ ls).mpr hsolves.2
  obtain ⟨hempty, hequation⟩ := squeeze?_spec hpos
  rw [solveWithin, hks] at h
  dsimp only at h
  cases hsqueeze : squeeze? ks with
  | some s =>
    cases s with
    | empty => exact hempty hsqueeze
    | equation l =>
      rw [hsqueeze] at h
      exact hfuel ρ h ⟨by simpa using hequation l hsqueeze, hpos⟩
  | none =>
    rw [hsqueeze] at h
    dsimp only at h
    cases hchosen : chooseUnknown ks with
    | none =>
      rw [hchosen] at h
      cases h
    | some x =>
      obtain ⟨lows, highs, rest, hparts⟩ : ∃ lows highs rest,
          partitionAt x ks = (lows, highs, rest) := ⟨_, _, _, rfl⟩
      simp only [hchosen, hparts] at h
      split_ifs at h with hexact
      · rw [extend, Verdict.map_eq_unsat] at h
        exact hfuel.shadows hpos hparts (.inl h)
      · refine hfuel.shadows hpos hparts ?_
        generalize solveWithin fuel [] (shadow x true lows highs rest) = dark at h ⊢
        generalize solveWithin fuel [] (shadow x false lows highs rest) = real at h ⊢
        generalize Verdict.first _ _ = between at h ⊢
        cases dark <;> cases real <;> cases between <;> simp_all

theorem refutes (fuel : Nat) : Refutes fuel := by
  induction fuel with
  | zero =>
    intro es ls ρ h
    cases h
  | succ fuel ih =>
    intro es ls ρ h
    cases es with
    | nil => exact ih.inequalities h
    | cons e es => exact ih.equation h

end Feasibility

end WhileSketch
