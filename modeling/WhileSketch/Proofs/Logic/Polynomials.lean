import Mathlib
import WhileSketch.Proofs.Arithmetic.Feasibility
import WhileSketch.Proofs.Logic.Truth

/-! Terms as polynomials, and polynomials as linear expressions in which a product is an unknown of
its own: both keep the value. -/

namespace WhileSketch

mutual

def Term.Over (names : List String) : Term → Prop
  | .var x => x ∈ names
  | .lit _ => True
  | .add a b | .sub a b | .mul a b => a.Over names ∧ b.Over names
  | .ite c a b => c.Over names ∧ a.Over names ∧ b.Over names

/-- A formula speaks of the given variables only, and not of all values of some. -/
def Formula.Over (names : List String) : Formula → Prop
  | .lit _ => True
  | .all fs | .any fs => Formula.OverEach names fs
  | .not f => f.Over names
  | .implies f g | .same f g | .differ f g => f.Over names ∧ g.Over names
  | .eq a b | .ne a b | .lt a b | .le a b | .gt a b | .ge a b => a.Over names ∧ b.Over names
  | .forAll _ _ => False

def Formula.OverEach (names : List String) : List Formula → Prop
  | [] => True
  | f :: fs => f.Over names ∧ Formula.OverEach names fs

end

theorem Formula.overEach_iff {names : List String} {fs : List Formula} :
    Formula.OverEach names fs ↔ ∀ f ∈ fs, f.Over names := by
  induction fs with
  | nil => simp [Formula.OverEach]
  | cons f fs ih => simp [Formula.OverEach, ih]

namespace Polynomial

variable {w : Nat → Int} {p q : Polynomial} {m : List Nat} {n : Nat}

def eval (w : Nat → Int) (p : Polynomial) : Int :=
  (p.map fun t => t.2 * (t.1.map w).prod).sum

@[simp]
theorem eval_nil (w : Nat → Int) : eval w [] = 0 :=
  rfl

@[simp]
theorem eval_cons (w : Nat → Int) (t : List Nat × Int) (p : Polynomial) :
    eval w (t :: p) = t.2 * (t.1.map w).prod + eval w p := by
  simp [eval]

theorem eval_ofInt (w : Nat → Int) (n : Int) : eval w (ofInt n) = n := by
  unfold ofInt
  split_ifs with hn <;> simp [hn]

theorem eval_insert (w : Nat → Int) (m : List Nat) (a : Int) (p : Polynomial) :
    eval w (insert m a p) = a * (m.map w).prod + eval w p := by
  fun_induction insert m a p with
  | case1 => simp
  | case2 b rest hzero =>
    rw [eval_cons]
    linear_combination (-(m.map w).prod) * hzero
  | case3 b rest hzero =>
    rw [eval_cons, eval_cons]
    ring
  | case4 n b rest hne ih =>
    rw [eval_cons, eval_cons, ih]
    ring

theorem eval_add (w : Nat → Int) (p q : Polynomial) : eval w (add p q) = eval w p + eval w q := by
  unfold add
  induction p generalizing q with
  | nil => simp
  | cons t p ih =>
    rw [List.foldl_cons, ih, eval_insert, eval_cons]
    ring

theorem eval_scale (w : Nat → Int) (k : Int) (p : Polynomial) :
    eval w (scale k p) = k * eval w p := by
  unfold scale
  split_ifs with hk
  · simp [hk]
  · induction p with
    | nil => simp
    | cons t p ih =>
      rw [List.map_cons, eval_cons, ih, eval_cons]
      ring

theorem prod_map_mergeSort (w : Nat → Int) (m n : List Nat) :
    (((m ++ n).mergeSort (· ≤ ·)).map w).prod = (m.map w).prod * (n.map w).prod := by
  rw [((List.mergeSort_perm (m ++ n) _).map w).prod_eq, List.map_append, List.prod_append]

theorem eval_mul (w : Nat → Int) (p q : Polynomial) : eval w (mul p q) = eval w p * eval w q := by
  have hrow : ∀ (t : List Nat × Int) (q r : Polynomial), eval w (q.foldl (fun r u =>
      insert ((t.1 ++ u.1).mergeSort (· ≤ ·)) (t.2 * u.2) r) r) =
        t.2 * (t.1.map w).prod * eval w q + eval w r := by
    intro t q
    induction q with
    | nil => simp
    | cons u q ih =>
      intro r
      rw [List.foldl_cons, ih, eval_insert, prod_map_mergeSort, eval_cons]
      ring
  have hall : ∀ (p r : Polynomial), eval w (p.foldl (fun r t =>
      q.foldl (fun r u => insert ((t.1 ++ u.1).mergeSort (· ≤ ·)) (t.2 * u.2) r) r) r) =
        eval w p * eval w q + eval w r := by
    intro p
    induction p with
    | nil => simp
    | cons t p ih =>
      intro r
      rw [List.foldl_cons, ih, hrow, eval_cons]
      ring
  rw [mul, hall, eval_nil, add_zero]

def Below (n : Nat) (p : Polynomial) : Prop :=
  ∀ t ∈ p, ∀ x ∈ t.1, x < n

theorem below_ofInt (n : Nat) (k : Int) : (ofInt k).Below n := by
  unfold ofInt Below
  split_ifs <;> simp

theorem Below.insert (h : p.Below n) (hm : ∀ x ∈ m, x < n) (a : Int) : (insert m a p).Below n := by
  fun_induction Polynomial.insert m a p with
  | case1 => simpa [Below] using hm
  | case2 b rest hzero => exact (List.forall_mem_cons.mp h).2
  | case3 b rest hzero => exact List.forall_mem_cons.mpr ⟨hm, (List.forall_mem_cons.mp h).2⟩
  | case4 k b rest hne ih =>
    obtain ⟨hk, hrest⟩ := List.forall_mem_cons.mp h
    exact List.forall_mem_cons.mpr ⟨hk, ih hrest⟩

theorem Below.add (hp : p.Below n) (hq : q.Below n) : (add p q).Below n := by
  unfold Polynomial.add
  induction p generalizing q with
  | nil => exact hq
  | cons t p ih =>
    obtain ⟨ht, hp⟩ := List.forall_mem_cons.mp hp
    exact ih hp (hq.insert ht t.2)

theorem Below.scale (hp : p.Below n) (k : Int) : (scale k p).Below n := by
  unfold Polynomial.scale
  split_ifs
  · simp [Below]
  · intro t ht
    obtain ⟨u, hu, rfl⟩ := List.mem_map.mp ht
    exact hp u hu

theorem Below.mul (hp : p.Below n) (hq : q.Below n) : (mul p q).Below n := by
  have hrow : ∀ (t : List Nat × Int) (q r : Polynomial), (∀ x ∈ t.1, x < n) → q.Below n → r.Below n →
      Below n (q.foldl (fun r u => Polynomial.insert ((t.1 ++ u.1).mergeSort (· ≤ ·)) (t.2 * u.2) r) r) := by
    intro t q
    induction q with
    | nil => exact fun r _ _ hr => hr
    | cons u q ih =>
      intro r ht hq hr
      obtain ⟨hu, hq⟩ := List.forall_mem_cons.mp hq
      refine ih _ ht hq (hr.insert (fun x hx => ?_) _)
      rw [List.mem_mergeSort, List.mem_append] at hx
      exact hx.elim (ht x) (hu x)
  have hall : ∀ (p r : Polynomial), p.Below n → r.Below n → Below n (p.foldl (fun r t =>
      q.foldl (fun r u =>
        Polynomial.insert ((t.1 ++ u.1).mergeSort (· ≤ ·)) (t.2 * u.2) r) r) r) := by
    intro p
    induction p with
    | nil => exact fun r _ hr => hr
    | cons t p ih =>
      intro r hp hr
      obtain ⟨ht, hp⟩ := List.forall_mem_cons.mp hp
      exact ih _ hp (hrow t q r ht hq hr)
  exact hall p [] hp (by simp [Below])

/-- Rows of digits that are not zero stand for different numbers. -/
theorem foldl_digits_injective {count : Nat} {m k : List Nat} (hm : ∀ x ∈ m, x < count)
    (hk : ∀ x ∈ k, x < count)
    (h : m.foldl (fun n x => n * (count + 1) + x + 1) 0 = k.foldl (fun n x => n * (count + 1) + x + 1) 0) :
    m = k := by
  induction m using List.reverseRecOn generalizing k with
  | nil =>
    rcases List.eq_nil_or_concat k with rfl | ⟨k, y, rfl⟩
    · rfl
    · simp at h
  | append_singleton m x ih =>
    rcases List.eq_nil_or_concat k with rfl | ⟨k, y, rfl⟩
    · simp at h
    · simp only [List.concat_eq_append, List.foldl_append, List.foldl_cons, List.foldl_nil,
        List.forall_mem_append, List.forall_mem_singleton] at h hm hk ⊢
      set d := m.foldl (fun n x => n * (count + 1) + x + 1) 0
      set e := k.foldl (fun n x => n * (count + 1) + x + 1) 0
      have hsum : x + (count + 1) * d = y + (count + 1) * e := by linarith
      have hdigit : x = y := by
        have hmod := congrArg (· % (count + 1)) hsum
        simpa [Nat.add_mul_mod_self_left, Nat.mod_eq_of_lt (show x < count + 1 by omega),
          Nat.mod_eq_of_lt (show y < count + 1 by omega)] using hmod
      subst hdigit
      have hrest : d = e := Nat.eq_of_mul_eq_mul_left count.succ_pos (Nat.add_left_cancel hsum)
      rw [ih hm.1 hk.1 hrest]

theorem productIndex_injective {count : Nat} {m k : List Nat} (hm : ∀ x ∈ m, x < count)
    (hk : ∀ x ∈ k, x < count) (h : productIndex count m = productIndex count k) : m = k := by
  unfold productIndex at h
  split at h
  case h_1 x =>
    split at h
    case h_1 => rw [h]
    case h_2 =>
      have := hm x List.mem_cons_self
      omega
  case h_2 =>
    split at h
    case h_1 y =>
      have := hk y List.mem_cons_self
      omega
    case h_2 => exact foldl_digits_injective hm hk (Nat.add_left_cancel h)

/-- A polynomial has the value of the linear expression in which its products are unknowns. -/
theorem eval_toLinear {count : Nat} {ρ : Valuation}
    (hρ : ∀ m : List Nat, (∀ x ∈ m, x < count) → ρ (productIndex count m) = (m.map w).prod)
    (hp : p.Below count) : (p.toLinear count).eval ρ = p.eval w := by
  have hfold : ∀ (p : Polynomial) (l : Linear), p.Below count → (p.foldl (fun l t =>
      if t.1.isEmpty then { l with const := l.const + t.2 }
      else l.add ⟨[(productIndex count t.1, t.2)], 0⟩) l).eval ρ = l.eval ρ + p.eval w := by
    intro p
    induction p with
    | nil => simp
    | cons t p ih =>
      intro l hp
      obtain ⟨ht, hp⟩ := List.forall_mem_cons.mp hp
      rw [List.foldl_cons, ih _ hp, eval_cons]
      split_ifs with hempty
      · rw [List.isEmpty_iff.mp hempty]
        simp only [Linear.eval, List.map_nil, List.prod_nil]
        ring
      · rw [Linear.eval_add]
        simp only [Linear.eval, Coefficients.eval_cons, Coefficients.eval_nil, hρ t.1 ht]
        ring
  rw [toLinear, hfold p _ hp]
  simp [Linear.eval]

end Polynomial

namespace Unknowns

variable {u : Unknowns} {s : State}

def valueAt (u : Unknowns) (s : State) (x : Nat) : Int :=
  s (u.names.getD x "")

open Classical in
/-- The values of all unknowns in a state, those of products included. -/
noncomputable def valuation (u : Unknowns) (s : State) : Valuation := fun i =>
  if h : ∃ m : List Nat, (∀ x ∈ m, x < u.count) ∧ Polynomial.productIndex u.count m = i then
    (h.choose.map (u.valueAt s)).prod
  else 0

theorem valuation_productIndex (u : Unknowns) (s : State) {m : List Nat} (hm : ∀ x ∈ m, x < u.count) :
    u.valuation s (Polynomial.productIndex u.count m) = (m.map (u.valueAt s)).prod := by
  have h : ∃ k : List Nat, (∀ x ∈ k, x < u.count) ∧
      Polynomial.productIndex u.count k = Polynomial.productIndex u.count m := ⟨m, hm, rfl⟩
  rw [valuation, dif_pos h,
    Polynomial.productIndex_injective h.choose_spec.1 hm h.choose_spec.2]

theorem polynomial_spec (hfixed : u.fixed = []) (s : State) {name : String} (hname : name ∈ u.names) :
    (u.polynomial name).eval (u.valueAt s) = s name ∧ (u.polynomial name).Below u.count := by
  have hlt : u.names.idxOf name < u.names.length := List.idxOf_lt_length_iff.mpr hname
  have hpolynomial : u.polynomial name = [([u.names.idxOf name], 1)] := by
    simp [polynomial, hfixed]
  rw [hpolynomial]
  refine ⟨?_, by simpa [Polynomial.Below, count] using hlt⟩
  have hvalue : u.valueAt s (u.names.idxOf name) = s name := by
    rw [valueAt, List.getD_eq_getElem _ _ hlt, List.getElem_idxOf]
  simpa using hvalue

end Unknowns

namespace Cases

variable {α β γ : Type} {s : State}

open Classical in
noncomputable def pick (s : State) : Cases α → α
  | .one a => a
  | .split c yes no => if c.Holds s then yes.pick s else no.pick s

theorem pick_map (s : State) (f : α → β) (c : Cases α) : (c.map f).pick s = f (c.pick s) := by
  induction c with
  | one a => rfl
  | split c yes no hyes hno =>
    rw [map, pick, pick, hyes, hno]
    split_ifs <;> rfl

theorem pick_map2 (s : State) (f : α → β → γ) (c : Cases α) (d : Cases β) :
    (c.map2 f d).pick s = f (c.pick s) (d.pick s) := by
  induction c with
  | one a => exact pick_map s (f a) d
  | split c yes no hyes hno =>
    rw [map2, pick, pick, hyes, hno]
    split_ifs <;> rfl

/-- The conditions of all cases satisfy a property, and so do the results another one. -/
def Forall (p : Formula → Prop) (q : α → Prop) : Cases α → Prop
  | .one a => q a
  | .split c yes no => p c ∧ yes.Forall p q ∧ no.Forall p q

theorem Forall.map {p : Formula → Prop} {q : α → Prop} {r : β → Prop} {f : α → β} {c : Cases α}
    (h : c.Forall p q) (hf : ∀ a, q a → r (f a)) : (c.map f).Forall p r := by
  induction c with
  | one a => exact hf a h
  | split c yes no hyes hno => exact ⟨h.1, hyes h.2.1, hno h.2.2⟩

theorem Forall.map2 {p : Formula → Prop} {q : α → Prop} {r : β → Prop} {t : γ → Prop}
    {f : α → β → γ} {c : Cases α} {d : Cases β} (hc : c.Forall p q) (hd : d.Forall p r)
    (hf : ∀ a b, q a → r b → t (f a b)) : (c.map2 f d).Forall p t := by
  induction c with
  | one a => exact hd.map fun b hb => hf a b hc hb
  | split c yes no hyes hno => exact ⟨hc.1, hyes hc.2.1, hno hc.2.2⟩

theorem Forall.pick {p : Formula → Prop} {q : α → Prop} {c : Cases α} (h : c.Forall p q) (s : State) :
    q (c.pick s) := by
  induction c with
  | one a => exact h
  | split c yes no hyes hno =>
    rw [Cases.pick]
    split_ifs
    · exact hyes h.2.1
    · exact hno h.2.2

theorem Forall.of_mem_options {p : Formula → Prop} {q : α → Prop} {c : Cases α} (h : c.Forall p q)
    {o : List (Formula × Bool) × α} (ho : o ∈ c.options) : ∀ g ∈ o.1, p g.1 := by
  induction c generalizing o with
  | one a =>
    rw [options, List.mem_singleton] at ho
    simp [ho]
  | split c yes no hyes hno =>
    obtain ⟨hc, hy, hn⟩ := h
    rw [options, List.mem_append] at ho
    obtain ho | ho := ho
    · obtain ⟨o', ho', rfl⟩ := List.mem_map.mp ho
      exact List.forall_mem_cons.mpr ⟨hc, hyes hy ho'⟩
    · obtain ⟨o', ho', rfl⟩ := List.mem_map.mp ho
      exact List.forall_mem_cons.mpr ⟨hc, hno hn ho'⟩

/-- The conditions of a result are as they are in a state. -/
def Applies (s : State) (conditions : List (Formula × Bool)) : Prop :=
  ∀ g ∈ conditions, (g.1.Holds s ↔ g.2 = true)

theorem eq_pick_of_applies {c : Cases α} {o : List (Formula × Bool) × α} (ho : o ∈ c.options)
    (h : Applies s o.1) : o.2 = c.pick s := by
  induction c generalizing o with
  | one a =>
    rw [options, List.mem_singleton] at ho
    rw [ho]
    rfl
  | split c yes no hyes hno =>
    rw [options, List.mem_append] at ho
    rw [pick]
    obtain ho | ho := ho
    · obtain ⟨o', ho', rfl⟩ := List.mem_map.mp ho
      obtain ⟨hc, h⟩ := List.forall_mem_cons.mp h
      rw [if_pos (hc.mpr rfl)]
      exact hyes (o := o') ho' h
    · obtain ⟨o', ho', rfl⟩ := List.mem_map.mp ho
      obtain ⟨hc, h⟩ := List.forall_mem_cons.mp h
      rw [if_neg (fun hholds => Bool.false_ne_true (hc.mp hholds))]
      exact hno (o := o') ho' h

/-- In each state there is a result whose conditions are as they are in it. -/
theorem exists_applies (s : State) (c : Cases α) : ∃ o ∈ c.options, Applies s o.1 ∧ o.2 = c.pick s := by
  induction c with
  | one a => exact ⟨([], a), by simp [options], by simp [Applies], rfl⟩
  | split c yes no hyes hno =>
    rw [options, pick]
    split_ifs with hc
    · obtain ⟨o, ho, happlies, hpick⟩ := hyes
      refine ⟨((c, true) :: o.1, o.2), List.mem_append_left _ (List.mem_map.mpr ⟨o, ho, rfl⟩), ?_, hpick⟩
      exact List.forall_mem_cons.mpr ⟨by simpa using hc, happlies⟩
    · obtain ⟨o, ho, happlies, hpick⟩ := hno
      refine ⟨((c, false) :: o.1, o.2), List.mem_append_right _ (List.mem_map.mpr ⟨o, ho, rfl⟩), ?_, hpick⟩
      exact List.forall_mem_cons.mpr ⟨by simpa using hc, happlies⟩

end Cases

/-- The polynomials of a term are about the unknowns, and the one that is picked in a state has the value
of the term there. -/
theorem Term.polynomials_spec {u : Unknowns} (hfixed : u.fixed = []) (s : State) :
    ∀ {t : Term}, t.Over u.names →
      (t.polynomials u).Forall (·.Over u.names) (·.Below u.count) ∧
        ((t.polynomials u).pick s).eval (u.valueAt s) = t.denote s
  | .var x, h => ⟨(u.polynomial_spec hfixed s h).2, (u.polynomial_spec hfixed s h).1⟩
  | .lit n, _ => ⟨Polynomial.below_ofInt _ n, Polynomial.eval_ofInt _ n⟩
  | .add a b, h => by
    obtain ⟨ha, hvalue⟩ := Term.polynomials_spec hfixed s h.1
    obtain ⟨hb, hvalue'⟩ := Term.polynomials_spec hfixed s h.2
    refine ⟨ha.map2 hb fun _ _ => Polynomial.Below.add, ?_⟩
    rw [Term.polynomials, Cases.pick_map2, Polynomial.eval_add, hvalue, hvalue', Term.denote]
  | .sub a b, h => by
    obtain ⟨ha, hvalue⟩ := Term.polynomials_spec hfixed s h.1
    obtain ⟨hb, hvalue'⟩ := Term.polynomials_spec hfixed s h.2
    refine ⟨ha.map2 hb fun _ _ hp hq => hp.add (hq.scale (-1)), ?_⟩
    rw [Term.polynomials, Cases.pick_map2, Polynomial.eval_add, Polynomial.eval_scale, hvalue, hvalue',
      Term.denote]
    ring
  | .mul a b, h => by
    obtain ⟨ha, hvalue⟩ := Term.polynomials_spec hfixed s h.1
    obtain ⟨hb, hvalue'⟩ := Term.polynomials_spec hfixed s h.2
    refine ⟨ha.map2 hb fun _ _ => Polynomial.Below.mul, ?_⟩
    rw [Term.polynomials, Cases.pick_map2, Polynomial.eval_mul, hvalue, hvalue', Term.denote]
  | .ite c a b, h => by
    obtain ⟨ha, hvalue⟩ := Term.polynomials_spec hfixed s h.2.1
    obtain ⟨hb, hvalue'⟩ := Term.polynomials_spec hfixed s h.2.2
    refine ⟨⟨h.1, ha, hb⟩, ?_⟩
    rw [Term.polynomials, Cases.pick, Term.denote]
    split_ifs
    · exact hvalue
    · exact hvalue'

end WhileSketch
