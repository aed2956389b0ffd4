import Fbft.PrePrepareLog
import Fbft.Counting
import Fbft.Quorum
import Mathlib.Data.List.Forall2
import Mathlib.Logic.Function.Basic

/-! Several replicas and the network between them. A message of a correct replica
arrives only if that replica has broadcast it; a faulty replica may have said anything.
Whatever was once broadcast can arrive any number of times, in any order, or never. -/
namespace Fbft

open Database LabelledPath

/-- A replica with what it has broadcast so far, and with every pre-prepare that was ever
in its log (a history variable: no action reads it). -/
structure Node where
  state : Replica
  sent : List Message
  logged : List PrePrepare
  deriving DecidableEq

/-- The output tables are broadcast after each action. -/
def Node.record (x : Node) (t : Replica) : Node :=
  ⟨t, x.sent ++ t.msgOut, x.logged ++ t.msgLogPrePrepare⟩

abbrev World := ℕ → Node

/-- A cluster of `3f+1` replicas of which at most `f` are faulty. `verify` is the
signature check of the wallet. -/
structure Cluster where
  cfg : Config
  faulty : Finset ℕ
  verify : ℕ → Message → String → Bool
  members : faulty ⊆ Finset.range cfg.clusterSize
  size : cfg.clusterSize = 3 * maxFaulty cfg + 1
  few : faulty.card ≤ maxFaulty cfg

/-- An unbound block is written as some text; a bound one is read back. -/
def ChiEntry.readAs (sent received : ChiEntry) : Prop :=
  received.n = sent.n ∧ received.reqDigest = sent.reqDigest ∧
    (sent.data = none ∨ received.data = sent.data)

instance : DecidableRel ChiEntry.readAs := fun _ _ => inferInstanceAs (Decidable (_ ∧ _))

def Message.readAs (sent received : Message) : Prop :=
  match sent, received with
  | .newView v nu chi, .newView v' nu' chi' =>
    v' = v ∧ nu' = nu ∧ List.Forall₂ ChiEntry.readAs chi chi'
  | sent, received => received = sent

instance : Decidable (Message.readAs sent received) := by
  unfold Message.readAs; split <;> infer_instance

/-- The message of the agreement protocol that an action takes from the network, with its
sender and signature. ROAST messages touch no table of the agreement protocol; they are
left unconstrained. -/
def Action.received : Action → Option (ℕ × Message × String)
  | receivePrePrepare v n reqDigest data senderId senderSig =>
    some (senderId, .prePrepare v n reqDigest data, senderSig)
  | receivePrepare v n reqDigest senderId senderSig =>
    some (senderId, .prepare v n reqDigest, senderSig)
  | receiveCommit v n data senderId senderSig => some (senderId, .commit v n data, senderSig)
  | receiveViewChange v hi c pi qi senderId senderSig =>
    some (senderId, .viewChange v hi c pi qi, senderSig)
  | receiveNewView v nu chi senderId senderSig => some (senderId, .newView v nu chi, senderSig)
  | _ => none

abbrev ClusterLabel := ℕ × ℚ × Action

namespace Cluster

variable {c : Cluster} {w w' w'' : World} {l : ClusterLabel}

def Correct (c : Cluster) (k : ℕ) : Prop := k < c.cfg.clusterSize ∧ k ∉ c.faulty

instance : Decidable (c.Correct k) := inferInstanceAs (Decidable (_ ∧ _))

def Authentic (c : Cluster) (w : World) (j : ℕ) (m : Message) : Prop :=
  j < c.cfg.clusterSize ∧ (j ∈ c.faulty ∨ ∃ said ∈ (w j).sent, said.readAs m)

instance : Decidable (c.Authentic w j m) := inferInstanceAs (Decidable (_ ∧ _))

/-- What the network delivers: signatures are verified and cannot be forged. -/
def Delivered (c : Cluster) (w : World) (a : Action) : Prop :=
  ∀ x ∈ a.received, c.verify x.1 x.2.1 x.2.2 = true ∧ c.Authentic w x.1 x.2.1

instance : Decidable (c.Delivered w a) := by
  unfold Delivered
  cases a.received <;> simp only [Option.mem_def] <;> infer_instance

/-- One action of one correct replica. -/
structure Step (c : Cluster) (w : World) (l : ClusterLabel) (w' : World) : Prop where
  correct : c.Correct l.1
  delivered : c.Delivered w l.2.2
  step : Fbft.Step c.cfg l.1 (w l.1).state l.2 (w' l.1).state
  recorded : w' = Function.update w l.1 ((w l.1).record (w' l.1).state)

def Initial (c : Cluster) (w : World) : Prop :=
  ∀ k, c.Correct k → ∃ height hash timestamp,
    w k = ⟨initNotx c.cfg height hash timestamp none, [], []⟩

def Always (_w : World) (_l : ClusterLabel) : Prop := True

instance : Decidable (Always w l) := inferInstanceAs (Decidable True)

/-- Run a list of labels, stopping at the first one that is not a step or fails `cond`. -/
def exec (c : Cluster) (cond : World → ClusterLabel → Prop) [∀ w l, Decidable (cond w l)] :
    List ClusterLabel → World → Option World
  | [], w => some w
  | l :: labels, w =>
    if c.Correct l.1 ∧ c.Delivered w l.2.2 ∧ l.2.2.admissible (w l.1).state ∧
        l.2.2.pre c.cfg l.1 l.2.1 (w l.1).state ∧ cond w l then
      (l.2.2.apply c.cfg l.1 (w l.1).state).bind fun t =>
        exec c cond labels (Function.update w l.1 ((w l.1).record t))
    else none

theorem exec_path {cond : World → ClusterLabel → Prop} [∀ w l, Decidable (cond w l)]
    {labels : List ClusterLabel} (h : exec c cond labels w = some w') :
    Path (Guarded (Step c) cond) w labels w' := by
  induction labels generalizing w with
  | nil =>
    cases h
    exact .nil
  | cons l labels ih =>
    simp only [exec] at h
    split at h
    · rename_i allowed
      obtain ⟨correct, delivered, admissible, pre, holds⟩ := allowed
      obtain ⟨t, applied, rest⟩ := Option.bind_eq_some_iff.mp h
      refine .cons ⟨⟨correct, delivered, ?_, by simp [Node.record]⟩, holds⟩ (ih rest)
      simpa [Node.record] using ⟨admissible, pre, applied⟩
    · cases h

theorem exec_reachable {cond : World → ClusterLabel → Prop} [∀ w l, Decidable (cond w l)]
    {labels : List ClusterLabel} (start : c.Initial w) (h : exec c cond labels w = some w') :
    Reachable c.Initial c.Step w' :=
  ⟨w, labels, start, (exec_path h).unguard⟩

end Cluster

/-- The cluster of four with a faulty replica 2. A signature names its sender. -/
def fourWithOneFaulty : Cluster where
  cfg := fourReplicas
  faulty := {2}
  verify := fun senderId _ senderSig => senderSig = "S" ++ Nat.repr senderId
  members := by decide
  size := by decide
  few := by decide

/-- The same cluster when the primary of view 0 is the faulty one. -/
def fourWithFaultyPrimary : Cluster where
  cfg := fourReplicas
  faulty := {0}
  verify := fourWithOneFaulty.verify
  members := by decide
  size := by decide
  few := by decide

def genesisWorld : World := fun _ => ⟨genesis, [], []⟩

theorem genesisWorld_initial {c : Cluster} (same : c.cfg = fourReplicas) :
    c.Initial genesisWorld := by
  intro k _
  rw [same]
  exact ⟨0, "H0", 0, rfl⟩

end Fbft
