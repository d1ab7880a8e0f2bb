import Mathlib
import WhileSketch.Fault

/-! Computations that may fail, taken apart by their steps. -/

namespace WhileSketch

variable {α β : Type} {x : Except Fault α} {f : α → Except Fault β}

theorem ok_bind (a : α) (f : α → Except Fault β) : Except.ok a >>= f = f a :=
  rfl

/-- Two steps succeed when the first does, and the second does on what the first gives. -/
theorem bind_eq_ok {b : β} : x >>= f = .ok b ↔ ∃ a, x = .ok a ∧ f a = .ok b := by
  constructor
  · intro h
    cases x with
    | error => cases h
    | ok a => exact ⟨a, rfl, h⟩
  · rintro ⟨a, rfl, h⟩
    exact h

theorem bind_eq_error {e : Fault} :
    x >>= f = .error e ↔ x = .error e ∨ ∃ a, x = .ok a ∧ f a = .error e := by
  constructor
  · intro h
    cases x with
    | error e' =>
      left
      cases h
      rfl
    | ok a => exact .inr ⟨a, rfl, h⟩
  · rintro (rfl | ⟨a, rfl, h⟩)
    · rfl
    · exact h

theorem toOption_eq_some {a : α} : x.toOption = some a ↔ x = .ok a := by
  cases x <;> simp [Except.toOption]

theorem join_toOption_eq_some {y : Except Fault (Option α)} {a : α} :
    y.toOption.join = some a ↔ y = .ok (some a) := by
  rw [Option.join_eq_some_iff, toOption_eq_some]

theorem exists_some_of_isSome {y : Except Fault (Option α)} (h : y.toOption.join.isSome = true) :
    ∃ a, y = .ok (some a) := by
  obtain ⟨a, ha⟩ := Option.isSome_iff_exists.mp h
  exact ⟨a, join_toOption_eq_some.mp ha⟩

theorem itemAt_eq_ok {xs : List α} {i : Nat} {a : α} : itemAt xs i = .ok a ↔ xs[i]? = some a := by
  rw [itemAt]
  cases xs[i]? <;> simp

/-- A computation fails with none but the given causes, if it fails at all. -/
def FailsOnly (P : Fault → Prop) (x : Except Fault α) : Prop :=
  ∀ e, x = .error e → P e

section FailsOnly

variable {P : Fault → Prop}

theorem failsOnly_ok (a : α) : FailsOnly P (.ok a) :=
  nofun

theorem FailsOnly.bind (hx : FailsOnly P x) (hf : ∀ a, x = .ok a → FailsOnly P (f a)) :
    FailsOnly P (x >>= f) := by
  intro e h
  obtain h | ⟨a, ha, h⟩ := bind_eq_error.mp h
  · exact hx e h
  · exact hf a ha e h

theorem FailsOnly.ite {c : Prop} [Decidable c] {y : Except Fault α} (hx : c → FailsOnly P x)
    (hy : ¬ c → FailsOnly P y) : FailsOnly P (if c then x else y) := by
  split_ifs with hc
  · exact hx hc
  · exact hy hc

theorem failsOnly_itemAt (hP : P .noSuchItem) (xs : List α) (i : Nat) :
    FailsOnly P (itemAt xs i) := by
  intro e h
  rw [itemAt] at h
  cases hi : xs[i]? with
  | some a => simp [hi] at h
  | none =>
    rw [hi] at h
    cases h
    exact hP

theorem FailsOnly.item {xs : List (Except Fault α)} (hxs : ∀ x ∈ xs, FailsOnly P x) {i : Nat}
    (hi : itemAt xs i = .ok x) : FailsOnly P x :=
  hxs x (List.mem_of_getElem? (itemAt_eq_ok.mp hi))

theorem FailsOnly.mapM {l : List α} (hf : ∀ a ∈ l, FailsOnly P (f a)) : FailsOnly P (l.mapM f) := by
  induction l with
  | nil => exact failsOnly_ok []
  | cons a l ih =>
    rw [List.mapM_cons]
    refine (hf a List.mem_cons_self).bind fun b _ => ?_
    exact (ih fun c hc => hf c (List.mem_cons_of_mem _ hc)).bind fun bs _ => failsOnly_ok _

end FailsOnly

/-- A computation does not fail with the verdict that nothing can be verified. -/
def Quiet (x : Except Fault α) : Prop :=
  x ≠ .error .notVerified

theorem quiet_iff : Quiet x ↔ FailsOnly (· ≠ .notVerified) x := by
  constructor
  · rintro h e hx rfl
    exact h hx
  · exact fun h hx => h _ hx rfl

theorem quiet_ok (a : α) : Quiet (.ok a) :=
  nofun

theorem Quiet.bind (hx : Quiet x) (hf : ∀ a, x = .ok a → Quiet (f a)) : Quiet (x >>= f) :=
  quiet_iff.mpr ((quiet_iff.mp hx).bind fun a ha => quiet_iff.mp (hf a ha))

theorem Quiet.ite {c : Prop} [Decidable c] {y : Except Fault α} (hx : Quiet x) (hy : Quiet y) :
    Quiet (if c then x else y) := by
  split_ifs
  · exact hx
  · exact hy

theorem quiet_itemAt (xs : List α) (i : Nat) : Quiet (itemAt xs i) :=
  quiet_iff.mpr (failsOnly_itemAt nofun xs i)

theorem Quiet.item {xs : List (Except Fault α)} (hxs : ∀ x ∈ xs, Quiet x) {i : Nat}
    (hi : itemAt xs i = .ok x) : Quiet x :=
  hxs x (List.mem_of_getElem? (itemAt_eq_ok.mp hi))

theorem Quiet.mapM {l : List α} (hf : ∀ a ∈ l, Quiet (f a)) : Quiet (l.mapM f) :=
  quiet_iff.mpr (.mapM fun a ha => quiet_iff.mp (hf a ha))

def Succeeds (x : Except Fault α) : Prop :=
  ∃ a, x = .ok a

theorem succeeds_iff : Succeeds x ↔ FailsOnly (fun _ => False) x := by
  constructor
  · rintro ⟨a, rfl⟩ e h
    cases h
  · intro h
    cases x with
    | ok a => exact ⟨a, rfl⟩
    | error e => exact (h e rfl).elim

theorem Succeeds.bind (hx : Succeeds x) (hf : ∀ a, x = .ok a → Succeeds (f a)) :
    Succeeds (x >>= f) :=
  succeeds_iff.mpr ((succeeds_iff.mp hx).bind fun a ha => succeeds_iff.mp (hf a ha))

theorem Succeeds.ite {c : Prop} [Decidable c] {y : Except Fault α} (hx : c → Succeeds x)
    (hy : ¬ c → Succeeds y) : Succeeds (if c then x else y) := by
  split_ifs with hc
  · exact hx hc
  · exact hy hc

theorem succeeds_itemAt {xs : List α} {i : Nat} (hi : i < xs.length) : Succeeds (itemAt xs i) :=
  ⟨xs[i], itemAt_eq_ok.mpr (List.getElem?_eq_getElem hi)⟩

theorem Succeeds.item {xs : List (Except Fault α)} (hxs : ∀ x ∈ xs, Succeeds x) {i : Nat}
    (hi : itemAt xs i = .ok x) : Succeeds x :=
  hxs x (List.mem_of_getElem? (itemAt_eq_ok.mp hi))

theorem Succeeds.mapM {l : List α} (hf : ∀ a ∈ l, Succeeds (f a)) : Succeeds (l.mapM f) :=
  succeeds_iff.mpr (.mapM fun a ha => succeeds_iff.mp (hf a ha))

/-- A computation has a result of a kind. -/
def Gives (Q : α → Prop) (x : Except Fault α) : Prop :=
  ∃ a, x = .ok a ∧ Q a

theorem Gives.bind {Q : α → Prop} {R : β → Prop} (hx : Gives Q x) (hf : ∀ a, Q a → Gives R (f a)) :
    Gives R (x >>= f) := by
  obtain ⟨a, rfl, ha⟩ := hx
  exact hf a ha

theorem Gives.mapM {R : β → Prop} {l : List α} (hf : ∀ a ∈ l, Gives R (f a)) :
    Gives (fun bs => ∀ b ∈ bs, R b) (l.mapM f) := by
  induction l with
  | nil => exact ⟨[], rfl, by simp⟩
  | cons a l ih =>
    rw [List.forall_mem_cons] at hf
    rw [List.mapM_cons]
    refine hf.1.bind fun b hb => (ih hf.2).bind fun bs hbs => ?_
    exact ⟨b :: bs, rfl, List.forall_mem_cons.mpr ⟨hb, hbs⟩⟩

end WhileSketch
