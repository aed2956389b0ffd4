import Fbft.Returns
import Mathlib.Logic.Relation

/-! Computations on a state that may throw. What was done to the state before an exception
stays done. `Follows` says that a computation, whether it returns or throws, moves the state
along a relation only; each way of putting computations together has one rule for it. -/
namespace Throwing

/-- A computation on a state that may throw. -/
abbrev Stateful (ε σ : Type) := ExceptT ε (StateM σ)

namespace Stateful

variable {ε σ α β : Type}

def exec (x : Stateful ε σ α) (s : σ) : Except ε α × σ := x.run.run s

def lift (x : Except ε α) : Stateful ε σ α :=
  match x with
  | .ok a => pure a
  | .error e => throw e

variable {x : Stateful ε σ α} {f : α → Stateful ε σ β} {s : σ}

@[simp] theorem exec_get : (get : Stateful ε σ σ).exec s = (.ok s, s) := rfl

@[simp] theorem exec_modify (g : σ → σ) : (modify g : Stateful ε σ PUnit).exec s = (.ok ⟨⟩, g s) :=
  rfl

@[simp] theorem exec_lift (y : Except ε α) : (lift y : Stateful ε σ α).exec s = (y, s) := by
  cases y <;> rfl

theorem exec_bind : (x >>= f).exec s = match x.exec s with
    | (.ok a, s') => (f a).exec s'
    | (.error e, s') => (.error e, s') := by
  unfold exec
  rw [ExceptT.run_bind, StateT.run_bind]
  change (match (x.run.run s : Except ε α × σ) with | (result, s') => _) = _
  rcases (x.run.run s : Except ε α × σ) with ⟨_ | a, s'⟩ <;> rfl

theorem exec_bind_ok {a : α} {s' : σ} (first : x.exec s = (.ok a, s')) :
    (x >>= f).exec s = (f a).exec s' := by
  rw [exec_bind, first]

theorem exec_bind_error {e : ε} {s' : σ} (first : x.exec s = (.error e, s')) :
    (x >>= f).exec s = (.error e, s') := by
  rw [exec_bind, first]

/-- Returning or throwing, the computation moves the state along `r` only. -/
def Follows (r : σ → σ → Prop) (x : Stateful ε σ α) : Prop :=
  ∀ s, Relation.ReflTransGen r s (x.exec s).2

variable {r : σ → σ → Prop}

def Quiet (x : Stateful ε σ α) : Prop := ∀ s, (x.exec s).2 = s

theorem quiet_pure (a : α) : Quiet (pure a : Stateful ε σ α) := fun _ => rfl

theorem quiet_throw (e : ε) : Quiet (throw e : Stateful ε σ α) := fun _ => rfl

theorem quiet_lift (y : Except ε α) : Quiet (lift y : Stateful ε σ α) := by
  intro s
  rw [exec_lift]

theorem quiet_ite {p : Prop} [Decidable p] {y : Stateful ε σ α} (yes : Quiet x) (no : Quiet y) :
    Quiet (if p then x else y) := by
  split
  · exact yes
  · exact no

theorem Quiet.bind (first : Quiet x) (rest : ∀ a, Quiet (f a)) : Quiet (x >>= f) := by
  intro s
  have same := first s
  rcases done : x.exec s with ⟨_ | a, s'⟩ <;> rw [done] at same
  · rw [exec_bind_error done]
    exact same
  · rw [exec_bind_ok done, rest]
    exact same

theorem Quiet.follows (quiet : Quiet x) : Follows r x := by
  intro s
  rw [quiet s]

theorem Quiet.bind_moves (quiet : Quiet x)
    (rest : ∀ a, Relation.ReflTransGen r s ((f a).exec s).2) :
    Relation.ReflTransGen r s ((x >>= f).exec s).2 := by
  have same := quiet s
  rcases done : x.exec s with ⟨_ | a, s'⟩ <;> rw [done] at same
  · rw [exec_bind_error done, same]
  · cases same
    rw [exec_bind_ok done]
    exact rest a

theorem Follows.bind (first : Follows r x) (rest : ∀ a, Follows r (f a)) :
    Follows r (x >>= f) := by
  intro s
  have before := first s
  rcases done : x.exec s with ⟨_ | a, s'⟩
  · rw [done] at before
    rw [exec_bind_error done]
    exact before
  · rw [done] at before
    rw [exec_bind_ok done]
    exact before.trans (rest a s')

theorem follows_get_bind {g : σ → Stateful ε σ α}
    (rest : ∀ s, Relation.ReflTransGen r s ((g s).exec s).2) : Follows r (get >>= g) := by
  intro s
  rw [exec_bind_ok exec_get]
  exact rest s

theorem follows_modify {g : σ → σ} (move : ∀ s, r s (g s)) :
    Follows r (modify g : Stateful ε σ PUnit) :=
  fun s => .single (move s)

end Stateful

end Throwing
