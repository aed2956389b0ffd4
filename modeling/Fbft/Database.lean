import Mathlib.Data.List.Basic
import Mathlib.Data.List.Nodup
import Mathlib.Data.List.Dedup

/-! Dynamic predicates of a logic program as tables: a table is the list of its
facts in the order in which they were asserted. `assertz_once` keeps a fact
already present, a retraction is a filter, and a query walks the list. -/
namespace Database

variable {α : Type*} {a fact : α} {table facts : List α}

/-- Append `fact` unless some fact of the table already unifies with it. -/
def assertzOnceBy (unifies : α → α → Bool) (fact : α) (table : List α) : List α :=
  if table.any (unifies fact) then table else table ++ [fact]

/-- `assertz_once` for facts without unbound variables. -/
def assertzOnce [DecidableEq α] (fact : α) (table : List α) : List α :=
  assertzOnceBy (fun a b => decide (a = b)) fact table

theorem mem_of_mem_assertzOnceBy {unifies : α → α → Bool}
    (h : a ∈ assertzOnceBy unifies fact table) : a ∈ table ∨ a = fact := by
  unfold assertzOnceBy at h
  split at h
  · exact Or.inl h
  · simpa using h

theorem mem_assertzOnceBy_of_mem {unifies : α → α → Bool} (h : a ∈ table) :
    a ∈ assertzOnceBy unifies fact table := by
  unfold assertzOnceBy
  split
  · exact h
  · exact List.mem_append_left _ h

theorem assertzOnceBy_cases (unifies : α → α → Bool) (fact : α) (table : List α) :
    (assertzOnceBy unifies fact table = table ∧ ∃ a ∈ table, unifies fact a = true) ∨
    (assertzOnceBy unifies fact table = table ++ [fact] ∧
      ∀ a ∈ table, unifies fact a = false) := by
  unfold assertzOnceBy
  split
  · rename_i present
    exact Or.inl ⟨rfl, List.any_eq_true.mp present⟩
  · rename_i absent
    refine Or.inr ⟨rfl, fun a mem => ?_⟩
    by_contra unifiable
    exact absent (List.any_eq_true.mpr ⟨a, mem, by simpa using unifiable⟩)

@[simp] theorem mem_assertzOnce [DecidableEq α] :
    a ∈ assertzOnce fact table ↔ a ∈ table ∨ a = fact := by
  constructor
  · exact mem_of_mem_assertzOnceBy
  · rintro (old | rfl)
    · exact mem_assertzOnceBy_of_mem old
    · unfold assertzOnce assertzOnceBy
      split
      · rename_i present
        obtain ⟨b, mem, same⟩ := List.any_eq_true.mp present
        exact (of_decide_eq_true same) ▸ mem
      · simp

theorem nodup_assertzOnce [DecidableEq α] (nodup : table.Nodup) :
    (assertzOnce fact table).Nodup := by
  unfold assertzOnce assertzOnceBy
  split
  · exact nodup
  · rename_i absent
    refine List.nodup_append.mpr ⟨nodup, List.nodup_singleton _, ?_⟩
    intro a mem b single same
    rw [List.mem_singleton.mp single] at same
    exact absent (List.any_eq_true.mpr ⟨a, mem, by simp [same]⟩)

theorem assertzOnce_of_not_mem [DecidableEq α] (absent : fact ∉ table) :
    assertzOnce fact table = table ++ [fact] := by
  unfold assertzOnce assertzOnceBy
  rw [if_neg]
  intro present
  obtain ⟨a, mem, same⟩ := List.any_eq_true.mp present
  exact absent ((of_decide_eq_true same) ▸ mem)

theorem assertzOnce_of_mem [DecidableEq α] (present : fact ∈ table) :
    assertzOnce fact table = table := by
  unfold assertzOnce assertzOnceBy
  rw [if_pos]
  exact List.any_eq_true.mpr ⟨fact, present, by simp⟩

theorem assertzOnceBy_idem {unifies : α → α → Bool} (self : unifies fact fact = true) :
    assertzOnceBy unifies fact (assertzOnceBy unifies fact table) =
      assertzOnceBy unifies fact table := by
  have present : (assertzOnceBy unifies fact table).any (unifies fact) = true := by
    rcases assertzOnceBy_cases unifies fact table with ⟨same, a, member, found⟩ | ⟨same, -⟩
    · rw [same]
      exact List.any_eq_true.mpr ⟨a, member, found⟩
    · rw [same]
      simp [self]
  rw [assertzOnceBy, if_pos present]

@[simp] theorem assertzOnce_idem [DecidableEq α] :
    assertzOnce fact (assertzOnce fact table) = assertzOnce fact table :=
  assertzOnceBy_idem (by simp)

/-- Assert the facts of a list one after the other. -/
def assertzAllBy (unifies : α → α → Bool) (facts table : List α) : List α :=
  facts.foldl (fun table fact => assertzOnceBy unifies fact table) table

def assertzAll [DecidableEq α] (facts table : List α) : List α :=
  assertzAllBy (fun a b => decide (a = b)) facts table

@[simp] theorem assertzAllBy_nil {unifies : α → α → Bool} :
    assertzAllBy unifies [] table = table := rfl

@[simp] theorem assertzAllBy_cons {unifies : α → α → Bool} :
    assertzAllBy unifies (fact :: facts) table =
      assertzAllBy unifies facts (assertzOnceBy unifies fact table) := rfl

@[simp] theorem assertzAll_nil [DecidableEq α] : assertzAll [] table = table := rfl

@[simp] theorem assertzAll_cons [DecidableEq α] :
    assertzAll (fact :: facts) table = assertzAll facts (assertzOnce fact table) := rfl

theorem mem_of_mem_assertzAllBy {unifies : α → α → Bool}
    (h : a ∈ assertzAllBy unifies facts table) : a ∈ table ∨ a ∈ facts := by
  induction facts generalizing table with
  | nil => exact Or.inl h
  | cons fact facts ih =>
    rcases ih h with old | new
    · rcases mem_of_mem_assertzOnceBy old with old | rfl
      · exact Or.inl old
      · exact Or.inr (List.mem_cons_self)
    · exact Or.inr (List.mem_cons_of_mem _ new)

theorem mem_assertzAllBy_of_mem {unifies : α → α → Bool} (h : a ∈ table) :
    a ∈ assertzAllBy unifies facts table := by
  induction facts generalizing table with
  | nil => exact h
  | cons fact facts ih => exact ih (mem_assertzOnceBy_of_mem h)

theorem sublist_assertzAllBy (unifies : α → α → Bool) (facts table : List α) :
    table.Sublist (assertzAllBy unifies facts table) := by
  induction facts generalizing table with
  | nil => exact List.Sublist.refl _
  | cons fact facts ih =>
    rw [assertzAllBy_cons]
    refine List.Sublist.trans ?_ (ih _)
    rcases assertzOnceBy_cases unifies fact table with ⟨same, -⟩ | ⟨same, -⟩
    · rw [same]
    · rw [same]
      exact List.sublist_append_left _ _

/-- Facts that do not unify with earlier ones are all appended. -/
theorem assertzAllBy_of_pairwise {unifies : α → α → Bool}
    (apart : (table ++ facts).Pairwise fun a b => unifies b a = false) :
    assertzAllBy unifies facts table = table ++ facts := by
  induction facts generalizing table with
  | nil => simp
  | cons fact facts ih =>
    have absent : ∀ a ∈ table, unifies fact a = false := by
      intro a member
      exact (List.pairwise_append.mp apart).2.2 a member fact List.mem_cons_self
    have appended : assertzOnceBy unifies fact table = table ++ [fact] := by
      rcases assertzOnceBy_cases unifies fact table with ⟨-, a, member, present⟩ | ⟨same, -⟩
      · rw [absent a member] at present
        cases present
      · exact same
    rw [assertzAllBy_cons, appended, ih (by simpa using apart)]
    simp

theorem assertzAllBy_nil_of_pairwise {unifies : α → α → Bool}
    (apart : facts.Pairwise fun a b => unifies b a = false) :
    assertzAllBy unifies facts [] = facts :=
  assertzAllBy_of_pairwise (by simpa using apart)

@[simp] theorem mem_assertzAll [DecidableEq α] :
    a ∈ assertzAll facts table ↔ a ∈ table ∨ a ∈ facts := by
  induction facts generalizing table with
  | nil => simp
  | cons fact facts ih => simp [ih, or_assoc]

theorem nodup_assertzAll [DecidableEq α] (nodup : table.Nodup) :
    (assertzAll facts table).Nodup := by
  induction facts generalizing table with
  | nil => exact nodup
  | cons fact facts ih => exact ih (nodup_assertzOnce nodup)

theorem map_assertzAllBy [DecidableEq β] (f : α → β) (facts table : List α) :
    (assertzAllBy (fun a b => decide (f a = f b)) facts table).map f =
      assertzAll (facts.map f) (table.map f) := by
  induction facts generalizing table with
  | nil => rfl
  | cons fact facts ih =>
    have first : (assertzOnceBy (fun a b => decide (f a = f b)) fact table).map f =
        assertzOnce (f fact) (table.map f) := by
      simp only [assertzOnce, assertzOnceBy, List.any_map, Function.comp_def]
      split <;> simp
    rw [assertzAllBy_cons, ih, first]
    rfl

theorem filter_eq_singleton {p : α → Bool} (nodup : table.Nodup) (inside : a ∈ table)
    (holds : p a = true) (only : ∀ b ∈ table, p b = true → b = a) : table.filter p = [a] := by
  apply List.perm_singleton.mp
  refine (List.perm_ext_iff_of_nodup (nodup.filter p) (List.nodup_singleton a)).mpr fun b => ?_
  simp only [List.mem_filter, List.mem_singleton]
  constructor
  · intro found
    exact only b found.1 found.2
  · rintro rfl
    exact ⟨inside, holds⟩

theorem head?_flatMap_eq_some_iff {l : List α} {f : α → List β} {b : β} :
    (l.flatMap f).head? = some b ↔
      ∃ before a after, l = before ++ a :: after ∧ (∀ x ∈ before, f x = []) ∧
        (f a).head? = some b := by
  rw [List.head?_flatMap, List.findSome?_eq_some_iff]
  constructor
  · rintro ⟨before, a, after, same, found, none⟩
    exact ⟨before, a, after, same, fun x member => List.head?_eq_none_iff.mp (none x member), found⟩
  · rintro ⟨before, a, after, same, empty, found⟩
    exact ⟨before, a, after, same, found, fun x member => by rw [empty x member]; rfl⟩

/-- When every choice has either no solution or the same ones, the choice is immaterial. -/
theorem head?_flatMap_of_same {l : List α} {f : α → List β} {solutions : List β}
    (each : ∀ x ∈ l, f x = [] ∨ f x = solutions) (some : ∃ x ∈ l, f x = solutions) :
    (l.flatMap f).head? = solutions.head? := by
  by_cases empty : solutions = []
  · have all : ∀ x ∈ l, f x = [] := fun x member => (each x member).elim id (·.trans empty)
    rw [List.flatMap_eq_nil_iff.mpr all, empty]
  obtain ⟨b, rest, same⟩ := List.exists_cons_of_ne_nil empty
  induction l with
  | nil => simp at some
  | cons x l ih =>
    rcases each x (List.mem_cons_self) with none | found
    · obtain ⟨y, member, found⟩ := some
      have later : y ∈ l := by
        rcases List.mem_cons.mp member with rfl | later
        · exact absurd (none.symm.trans found).symm empty
        · exact later
      rw [List.flatMap_cons, none, List.nil_append]
      exact ih (fun z inside => each z (List.mem_cons_of_mem _ inside)) ⟨y, later, found⟩
    · rw [List.flatMap_cons, found, same]
      rfl

/-- Only the first solution of each choice matters for the first solution. -/
theorem head?_flatMap_congr {l : List α} {f : α → List β} {g : α → List γ} {h : γ → β}
    (each : ∀ x ∈ l, (f x).head? = (g x).head?.map h) :
    (l.flatMap f).head? = (l.flatMap g).head?.map h := by
  induction l with
  | nil => rfl
  | cons x l ih =>
    have first := each x (List.mem_cons_self)
    have rest := ih fun y member => each y (List.mem_cons_of_mem _ member)
    rw [List.flatMap_cons, List.flatMap_cons, List.head?_append, List.head?_append, first, rest]
    cases (g x).head? <;> rfl

end Database
