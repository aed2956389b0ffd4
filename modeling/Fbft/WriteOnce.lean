import Fbft.Path
import Mathlib.Logic.Function.Basic

/-! Registers that are written once: what a register holds it holds from then on. -/
namespace WriteOnce

open LabelledPath

variable {κ α : Type*} [DecidableEq κ] {r r' : κ → Option α} {x : κ × α} {k : κ} {a : α}
  {writes : List (κ × α)}

/-- A write to an empty register. -/
def Step (r : κ → Option α) (x : κ × α) (r' : κ → Option α) : Prop :=
  r x.1 = none ∧ r' = Function.update r x.1 (some x.2)

theorem Step.holds_iff (step : Step r x r') : r' k = some a ↔ r k = some a ∨ x = (k, a) := by
  obtain ⟨empty, rfl⟩ := step
  by_cases self : k = x.1
  · subst self
    simp [empty, Prod.ext_iff]
  · simp [Function.update_of_ne self, Prod.ext_iff, Ne.symm self]

theorem holds_iff (run : Path Step r writes r') :
    r' k = some a ↔ r k = some a ∨ (k, a) ∈ writes := by
  induction run with
  | nil => simp
  | cons head _ ih => rw [ih, head.holds_iff, List.mem_cons, or_assoc, eq_comm (a := (k, a))]

end WriteOnce
