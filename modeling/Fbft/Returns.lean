import Mathlib.Data.List.Forall2
import Mathlib.Data.Nat.Notation

/-! Computations that may throw. `Returns` says that a computation comes to its end; each
way of putting computations together has one equation for it, and `mapM` over a list returns
exactly when every call does. -/
namespace Throwing

variable {ε ε' : Type*} {α β : Type u} {x : Except ε α} {f : α → Except ε β} {p : Prop}

/-- The computation ends without throwing. -/
def Returns (x : Except ε α) : Prop := ∃ a, x = .ok a

theorem exists_eq_ok : (∃ a, x = .ok a) ↔ Returns x := Iff.rfl

instance : Decidable (Returns x) :=
  match x with
  | .ok a => isTrue ⟨a, rfl⟩
  | .error _ => isFalse fun ⟨_, same⟩ => nomatch same

@[simp] theorem returns_ok (a : α) : Returns (.ok a : Except ε α) := ⟨a, rfl⟩

@[simp] theorem returns_pure (a : α) : Returns (pure a : Except ε α) := ⟨a, rfl⟩

@[simp] theorem not_returns_error (e : ε) : ¬ Returns (.error e : Except ε α) := by
  rintro ⟨a, same⟩
  cases same

@[simp] theorem not_returns_throw (e : ε) : ¬ Returns (throw e : Except ε α) :=
  not_returns_error e

theorem bind_eq_ok_iff {b : β} : (x >>= f) = .ok b ↔ ∃ a, x = .ok a ∧ f a = .ok b := by
  cases x with
  | error e =>
    constructor
    · intro same
      cases same
    · rintro ⟨a, same, -⟩
      cases same
  | ok a =>
    constructor
    · exact fun same => ⟨a, rfl, same⟩
    · rintro ⟨a', same, rest⟩
      cases same
      exact rest

theorem returns_bind : Returns (x >>= f) ↔ ∃ a, x = .ok a ∧ Returns (f a) := by
  simp only [Returns, bind_eq_ok_iff]
  constructor
  · rintro ⟨b, a, first, second⟩
    exact ⟨a, first, b, second⟩
  · rintro ⟨a, first, b, second⟩
    exact ⟨b, a, first, second⟩

theorem map_eq_ok_iff {g : α → β} {x : Except ε α} {b : β} :
    g <$> x = .ok b ↔ ∃ a, x = .ok a ∧ g a = b := by
  cases x with
  | error e => exact iff_of_false nofun (fun ⟨_, same, _⟩ => nomatch same)
  | ok a =>
    constructor
    · intro same
      exact ⟨a, rfl, Except.ok.inj same⟩
    · rintro ⟨_, ⟨⟩, rfl⟩
      rfl

theorem mapError_eq_ok_iff {g : ε → ε'} {a : α} : x.mapError g = .ok a ↔ x = .ok a := by
  cases x with
  | error e => exact iff_of_false nofun nofun
  | ok b => simp only [Except.mapError, Except.ok.injEq]

@[simp] theorem returns_mapError {g : ε → ε'} : Returns (x.mapError g) ↔ Returns x := by
  simp only [Returns, mapError_eq_ok_iff]

theorem returns_bind_of_forall (rest : ∀ a, x = .ok a → (Returns (f a) ↔ p)) :
    Returns (x >>= f) ↔ Returns x ∧ p := by
  rw [returns_bind]
  constructor
  · rintro ⟨a, first, second⟩
    exact ⟨⟨a, first⟩, (rest a first).mp second⟩
  · rintro ⟨⟨a, first⟩, second⟩
    exact ⟨a, first, (rest a first).mpr second⟩

theorem eq_ok_of_toOption {a : α} (found : x.toOption = some a) : x = .ok a := by
  cases x with
  | error e => cases found
  | ok b =>
    cases found
    rfl

theorem returns_ite_error [Decidable p] (e : ε) :
    Returns (if p then .error e else x) ↔ ¬ p ∧ Returns x := by
  split <;> simp_all

theorem returns_guard [Decidable p] (e : ε) :
    Returns (if p then x else .error e) ↔ p ∧ Returns x := by
  split <;> simp_all

theorem mapM_eq_ok_iff {l : List α} {l' : List β} :
    l.mapM f = .ok l' ↔ List.Forall₂ (fun a b => f a = .ok b) l l' := by
  induction l generalizing l' with
  | nil =>
    rw [List.mapM_nil, List.forall₂_nil_left_iff]
    exact ⟨fun same => (Except.ok.inj same).symm, fun same => same ▸ rfl⟩
  | cons a l ih =>
    simp only [List.mapM_cons, bind_eq_ok_iff, List.forall₂_cons_left_iff, ih]
    constructor
    · rintro ⟨b, first, bs, rest, same⟩
      exact ⟨b, bs, first, rest, (Except.ok.inj same).symm⟩
    · rintro ⟨b, bs, first, rest, rfl⟩
      exact ⟨b, first, bs, rest, rfl⟩

theorem mem_of_mapM {l : List α} {l' : List β} (read : l.mapM f = .ok l') {b : β} (inside : b ∈ l') :
    ∃ a ∈ l, f a = .ok b := by
  have related := mapM_eq_ok_iff.mp read
  induction related with
  | nil => cases inside
  | cons first _ ih =>
    rcases List.mem_cons.mp inside with rfl | later
    · exact ⟨_, List.mem_cons_self, first⟩
    · obtain ⟨a, member, read⟩ := ih (mapM_eq_ok_iff.mpr ‹_›) later
      exact ⟨a, List.mem_cons_of_mem _ member, read⟩

theorem forall₂_comp {r : α → β → Prop} {r' : β → γ → Prop} {l : List α} {l' : List β}
    {l'' : List γ} (first : List.Forall₂ r l l') (second : List.Forall₂ r' l' l'') :
    List.Forall₂ (fun a c => ∃ b, r a b ∧ r' b c) l l'' := by
  induction first generalizing l'' with
  | nil =>
    cases second
    exact .nil
  | cons head _ ih =>
    cases second with
    | cons head' rest => exact .cons ⟨_, head, head'⟩ (ih rest)

theorem forall₂_of_mapM {r : α → β → Prop} {l : List α} {l' : List β} (read : l.mapM f = .ok l')
    (each : ∀ a ∈ l, ∀ b, f a = .ok b → r a b) : List.Forall₂ r l l' := by
  have related := mapM_eq_ok_iff.mp read
  clear read
  induction related with
  | nil => exact .nil
  | cons first _ ih =>
    exact .cons (each _ List.mem_cons_self _ first)
      (ih fun a member => each a (List.mem_cons_of_mem _ member))

theorem map_eq_map_of_mapM {g : α → γ} {g' : β → γ} {l : List α} {l' : List β}
    (read : l.mapM f = .ok l') (kept : ∀ a ∈ l, ∀ b, f a = .ok b → g a = g' b) :
    l.map g = l'.map g' := by
  have related := forall₂_of_mapM read kept
  rw [← List.forall₂_eq_eq_eq, List.forall₂_map_left_iff, List.forall₂_map_right_iff]
  exact related

theorem map_eq_of_mapM {g : β → α} {l : List α} {l' : List β} (read : l.mapM f = .ok l')
    (back : ∀ a ∈ l, ∀ b, f a = .ok b → g b = a) : l'.map g = l := by
  have same := map_eq_map_of_mapM (g := id) read fun a member b called => (back a member b called).symm
  rw [← same, List.map_id]

theorem mapM_eq_ok_map {g : α → β} {l : List α} (each : ∀ a ∈ l, f a = .ok (g a)) :
    l.mapM f = .ok (l.map g) := by
  rw [mapM_eq_ok_iff, List.forall₂_map_right_iff]
  exact List.forall₂_same.mpr each

theorem mapM_map_eq_ok {g : β → α} {l : List β} (back : ∀ b ∈ l, f (g b) = .ok b) :
    (l.map g).mapM f = .ok l := by
  rw [mapM_eq_ok_iff, List.forall₂_map_left_iff]
  exact List.forall₂_same.mpr back

theorem returns_mapM {l : List α} : Returns (l.mapM f) ↔ ∀ a ∈ l, Returns (f a) := by
  induction l with
  | nil => simp
  | cons a l ih =>
    simp only [List.mapM_cons, returns_bind, List.forall_mem_cons, ← ih]
    constructor
    · rintro ⟨b, first, bs, rest, -⟩
      exact ⟨⟨b, first⟩, bs, rest⟩
    · rintro ⟨⟨b, first⟩, bs, rest⟩
      exact ⟨b, first, bs, rest, returns_pure _⟩

end Throwing
