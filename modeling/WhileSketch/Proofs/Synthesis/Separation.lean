import Mathlib
import WhileSketch.Proofs.Synthesis.Questions

/-! Values for the variables of a program whose holes have names. The names tell which of the values
are for holes and which are for variables of the given program. -/

namespace WhileSketch.Holes

open While

section Entries

variable {β : Type} {vars holes : List String} {d : List (String × β)}
  (hvars : ∀ x ∈ vars, isHole x = false) (hholes : ∀ x ∈ holes, isHole x = true)

include hvars hholes

theorem not_mem_vars_of_mem_holes : ∀ x ∈ holes, x ∉ vars := by
  intro x hx hx'
  exact Bool.false_ne_true ((hvars x hx').symm.trans (hholes x hx))

theorem filter_isHole_eq (hd : ∀ e ∈ d, e.1 ∈ vars ∨ e.1 ∈ holes) :
    (d.filter fun e => isHole e.1) = (d.filter fun e => e.1 ∈ holes) ∧
      (d.filter fun e => !isHole e.1) = d.filter fun e => e.1 ∈ vars := by
  have hdisjoint := not_mem_vars_of_mem_holes hvars hholes
  constructor <;> refine List.filter_congr fun e he => ?_ <;> obtain hx | hx := hd e he
  · have hx' : e.1 ∉ holes := fun hx' => hdisjoint _ hx' hx
    simp [hvars _ hx, hx']
  · simp [hholes _ hx, hx]
  · simp [hvars _ hx, hx]
  · simp [hholes _ hx, hdisjoint _ hx]

end Entries

/-- The variables of a program with named holes are those of the given program and the names of the
holes. If no variable of the given program has the name of a hole, the two kinds do not meet, and
values for them are divided by their names into those for the holes and those for the variables. -/
theorem isHole_separates_entries {program : String} {t u : Tree Label} {vars : List String}
    (ht : parse program = .ok (some t)) (hvars : variableNames t = .ok vars)
    (hnone : find? vars = none) (hu : parse (nameAll program).1 = .ok (some u)) :
    (∃ names, variableNames u = .ok names ∧
      ∀ x, x ∈ names ↔ x ∈ vars ∨ x ∈ (nameAll program).2) ∧
      (∀ x ∈ (nameAll program).2, x ∉ vars) ∧
      ∀ {β : Type} (d : List (String × β)), (∀ e ∈ d, e.1 ∈ vars ∨ e.1 ∈ (nameAll program).2) →
        (d.filter fun e => isHole e.1) = (d.filter fun e => e.1 ∈ (nameAll program).2) ∧
          (d.filter fun e => !isHole e.1) = d.filter fun e => e.1 ∈ vars := by
  have hholes : ∀ x ∈ (nameAll program).2, isHole x = true := fun x hx =>
    ByExample.isHole_of_mem_holes hx
  have hother : ∀ x ∈ vars, isHole x = false := fun x hx =>
    Bool.eq_false_iff.mpr (List.find?_eq_none.mp hnone x hx)
  refine ⟨?_, not_mem_vars_of_mem_holes hother hholes, fun d hd =>
    filter_isHole_eq hother hholes hd⟩
  obtain ⟨a, c, ts, ha, rfl, hc, -, hnames, -⟩ := parse_named ht hu
  rw [ha.variableNames_eq] at hvars
  split_ifs at hvars with hid
  cases hvars
  refine ⟨c.names, ?_, fun x => by rw [Stmt.mem_names, Stmt.mem_names, hnames]⟩
  rw [hc.stmtTree.variableNames_eq, if_neg]
  rw [hnames, not_or]
  exact ⟨hid, fun hx => absurd (hholes _ hx) (by decide)⟩

/-- Words that only begin like the name of a hole are variables like others. -/
theorem separates_similarNames :
    ∃ u, parse (nameAll "hole_0x := hole_ + ??").1 = .ok (some u) ∧
      (∃ names, variableNames u = .ok names ∧
        ∀ x, x ∈ names ↔ x ∈ ["hole_", "hole_0x"] ∨ x ∈ ["hole_0"]) ∧
      ([("hole_0x", 1), ("hole_0", 2), ("hole_", 3)].filter fun e => isHole e.1) = [("hole_0", 2)] ∧
      ([("hole_0x", 1), ("hole_0", 2), ("hole_", 3)].filter fun e => !isHole e.1) =
        [("hole_0x", 1), ("hole_", 3)] := by
  have hnames : ((parse "hole_0x := hole_ + ??").toOption.join.bind fun t =>
      (variableNames t).toOption) = some ["hole_", "hole_0x"] := by
    decide +kernel
  obtain ⟨t, ht, hvars⟩ := Option.bind_eq_some_iff.mp hnames
  obtain ⟨u, hu⟩ : ∃ u, parse (nameAll "hole_0x := hole_ + ??").1 = .ok (some u) :=
    exists_some_of_isSome (by decide +kernel)
  have hholes : (nameAll "hole_0x := hole_ + ??").2 = ["hole_0"] := by decide +kernel
  obtain ⟨hu', -, hd⟩ := isHole_separates_entries (join_toOption_eq_some.mp ht)
    (toOption_eq_some.mp hvars) (by decide +kernel) hu
  rw [hholes] at hu' hd
  obtain ⟨h₁, h₂⟩ := hd [("hole_0x", 1), ("hole_0", 2), ("hole_", 3)] (by decide)
  exact ⟨u, hu, hu', h₁, h₂⟩

end WhileSketch.Holes
