import Fbft.Step
import Fbft.Quorum

/-! The thresholds against the sizes of the sets they are meant for. The formulas are
those of a cluster of `3f + 1` replicas, and are applied to clusters of any size. -/
namespace Fbft

variable {cfg : Config}

def replicas (cfg : Config) : Finset ℕ := Finset.range cfg.clusterSize

/-- What the protocol asks of its thresholds. -/
structure SafeAndLive (cfg : Config) : Prop where
  overlap : ∀ A B, A ⊆ replicas cfg → B ⊆ replicas cfg → A.card = quorum cfg →
    B.card = quorum cfg → maxFaulty cfg + 1 ≤ (A ∩ B).card
  prepare : ∀ v A, A ⊆ replicas cfg → primary cfg v ∉ A → A.card = quorumPrepare cfg →
    (insert (primary cfg v) A).card = quorum cfg
  correctSigner : ∀ A, A ⊆ replicas cfg → A.card = sigQuorum cfg → maxFaulty cfg < A.card
  quorumAnswers : quorum cfg ≤ cfg.clusterSize - maxFaulty cfg
  signersAnswer : sigQuorum cfg ≤ cfg.clusterSize - maxFaulty cfg

theorem quorum_le (cfg : Config) : quorum cfg ≤ cfg.clusterSize - maxFaulty cfg := by
  have positive := cfg.clusterSize_pos
  unfold quorum maxFaulty
  omega

theorem sigQuorum_le (cfg : Config) : sigQuorum cfg ≤ cfg.clusterSize - maxFaulty cfg := by
  have lower := quorum_le cfg
  unfold quorum at lower
  unfold sigQuorum
  omega

theorem card_insert_primary {v : ℕ} {A : Finset ℕ} (others : primary cfg v ∉ A)
    (size : A.card = quorumPrepare cfg) : (insert (primary cfg v) A).card = quorum cfg := by
  rw [Finset.card_insert_of_notMem others, size]
  simp [quorumPrepare, quorum]

/-- Only the overlap depends on the size of the cluster. -/
theorem quorums_overlap_iff :
    (∀ A B, A ⊆ replicas cfg → B ⊆ replicas cfg → A.card = quorum cfg → B.card = quorum cfg →
      maxFaulty cfg + 1 ≤ (A ∩ B).card) ↔ cfg.clusterSize % 3 = 1 := by
  have inside : quorum cfg ≤ (replicas cfg).card := by
    have lower := quorum_le cfg
    simp only [replicas, Finset.card_range]
    omega
  have positive := cfg.clusterSize_pos
  rw [Quorum.forall_card_inter_iff inside (Nat.succ_pos _)]
  simp only [replicas, Finset.card_range, quorum, maxFaulty]
  omega

/-- The thresholds are safe and live for the clusters of `3f + 1` replicas, and for no
other. -/
theorem safeAndLive_iff : SafeAndLive cfg ↔ cfg.clusterSize % 3 = 1 := by
  constructor
  · intro sizes
    exact quorums_overlap_iff.mp sizes.overlap
  · intro size
    constructor
    · exact quorums_overlap_iff.mpr size
    · intro v A inside others
      exact card_insert_primary others
    · intro A inside signers
      simp [signers, sigQuorum]
    · exact quorum_le cfg
    · exact sigQuorum_le cfg

def fiveReplicas : Config := { fourReplicas with clusterSize := 5, clusterSize_pos := by decide }

/-- Of five replicas, `0, 1, 2` and `2, 3, 4` are quorums that share replica 2 alone, and
replica 2 may be the faulty one. -/
theorem fiveReplicas_unsafe : ¬ SafeAndLive fiveReplicas := by
  intro sizes
  have share := sizes.overlap {0, 1, 2} {2, 3, 4} (by decide) (by decide) (by decide) (by decide)
  revert share
  decide

end Fbft
