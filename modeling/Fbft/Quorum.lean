import Mathlib.Data.Finset.Card

/-! Counting arguments over a finite set of participants of which a bounded
number is faulty. -/
namespace Quorum

variable {α : Type*} {members faulty A B : Finset α}

theorem exists_correct (larger : faulty.card < A.card) : ∃ x ∈ A, x ∉ faulty :=
  Finset.exists_mem_notMem_of_card_lt_card larger

theorem card_inter_lower [DecidableEq α] (subA : A ⊆ members) (subB : B ⊆ members) :
    A.card + B.card ≤ members.card + (A ∩ B).card := by
  have union : (A ∪ B).card ≤ members.card := Finset.card_le_card (Finset.union_subset subA subB)
  have count := Finset.card_union_add_card_inter A B
  omega

/-- Two sets whose sizes exceed the members and the faulty ones together share a
correct member. -/
theorem exists_correct_inter [DecidableEq α] (subA : A ⊆ members) (subB : B ⊆ members)
    (large : members.card + faulty.card < A.card + B.card) :
    ∃ x, x ∈ A ∧ x ∈ B ∧ x ∉ faulty := by
  have lower := card_inter_lower subA subB
  have larger : faulty.card < (A ∩ B).card := by omega
  obtain ⟨x, mem, correct⟩ := exists_correct larger
  exact ⟨x, (Finset.mem_inter.mp mem).1, (Finset.mem_inter.mp mem).2, correct⟩

/-- Two sets of one size can be chosen so that they share no more than they must. -/
theorem exists_least_inter [DecidableEq α] (inside : q ≤ members.card) :
    ∃ A B, A ⊆ members ∧ B ⊆ members ∧ A.card = q ∧ B.card = q ∧
      (A ∩ B).card = 2 * q - members.card := by
  obtain ⟨A, subA, sizeA⟩ := Finset.exists_subset_card_eq inside
  have rest : (members \ A).card = members.card - q := by
    rw [Finset.card_sdiff_of_subset subA, sizeA]
  by_cases disjoint : q ≤ (members \ A).card
  · obtain ⟨B, subB, sizeB⟩ := Finset.exists_subset_card_eq disjoint
    refine ⟨A, B, subA, subB.trans Finset.sdiff_subset, sizeA, sizeB, ?_⟩
    have apart : Disjoint A B := Finset.disjoint_of_subset_right subB Finset.disjoint_sdiff
    rw [Finset.disjoint_iff_inter_eq_empty.mp apart, Finset.card_empty]
    omega
  · obtain ⟨B, covers, subB, sizeB⟩ :=
      Finset.exists_subsuperset_card_eq Finset.sdiff_subset (not_le.mp disjoint).le inside
    refine ⟨A, B, subA, subB, sizeA, sizeB, ?_⟩
    have whole : A ∪ B = members := by
      apply (Finset.union_subset subA subB).antisymm
      rw [← Finset.union_sdiff_of_subset subA]
      exact Finset.union_subset_union_right covers
    have count := Finset.card_union_add_card_inter A B
    rw [whole, sizeA, sizeB] at count
    omega

/-- Sets of size `q` all share `k` members exactly when the sizes force them to. -/
theorem forall_card_inter_iff [DecidableEq α] (inside : q ≤ members.card) (some : 0 < k) :
    (∀ A B, A ⊆ members → B ⊆ members → A.card = q → B.card = q → k ≤ (A ∩ B).card) ↔
      members.card + k ≤ 2 * q := by
  constructor
  · intro share
    obtain ⟨A, B, subA, subB, sizeA, sizeB, least⟩ := exists_least_inter inside
    have shared := share A B subA subB sizeA sizeB
    omega
  · intro large A B subA subB sizeA sizeB
    have lower := card_inter_lower subA subB
    omega

end Quorum
