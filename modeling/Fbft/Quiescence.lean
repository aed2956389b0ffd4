import Fbft.Redelivery
import Fbft.Draining
import Fbft.Uniqueness
import Fbft.Certificates
import Fbft.RoastActive

/-! The normal case cannot get stuck. Where the correct replicas are in one view above one
block, the primary has proposed, every message of a correct replica has arrived at the
others and no vote is due, all of them have committed. -/
namespace Fbft

open Database LabelledPath

variable {cfg : Config} {c : Cluster} {w w' : World} {i j k v n h : ℕ} {d sig : String}
  {now : ℚ} {x : Node} {s t : Replica} {a : Action} {m : Message}

/-- The action with which a message of the agreement protocol arrives. -/
def Message.arrival (senderId : ℕ) (senderSig : String) : Message → Option Action
  | prePrepare v n reqDigest data =>
    some (.receivePrePrepare v n reqDigest data senderId senderSig)
  | prepare v n reqDigest => some (.receivePrepare v n reqDigest senderId senderSig)
  | commit v n data => some (.receiveCommit v n data senderId senderSig)
  | viewChange v hi c pi qi => some (.receiveViewChange v hi c pi qi senderId senderSig)
  | newView v nu chi => some (.receiveNewView v nu chi senderId senderSig)
  | _ => none

def Message.feedsRoast (cfg : Config) (replicaId : ℕ) (r : Roast) : Message → Prop
  | commit v n _ => commitFeedsRoast cfg v n replicaId r
  | _ => False

instance (m : Message) : Decidable (m.feedsRoast cfg i r) := by
  apply m.casesOn (motive := fun m => Decidable (m.feedsRoast cfg i r)) <;> intros <;>
    dsimp only [Message.feedsRoast] <;> infer_instance

instance (a : Action) : Decidable (a.Settled cfg i s) :=
  decidable_of_iff (∀ t ∈ a.apply cfg i s, t = s) Iff.rfl

/-- Nothing is left to do: the messages of the correct replicas have arrived, in that they
change nothing if they arrive again, unless they are an answer to the coordinator, and no
correct replica is about to vote or to join ROAST. -/
structure Quiescent (c : Cluster) (w : World) : Prop where
  delivered : ∀ j, c.Correct j → ∀ k, c.Correct k → ∀ m ∈ (w j).sent, ∃ sig,
    c.verify j m sig = true ∧ ∀ a ∈ m.arrival j sig,
      m.feedsRoast c.cfg k (w k).state.roast ∨ a.Settled c.cfg k (w k).state
  prepares : ∀ k, c.Correct k → ∀ d v n, ¬ preSendPrepare c.cfg d v n k (w k).state
  commits : ∀ k, c.Correct k → ∀ d v n, ¬ preSendCommit c.cfg d v n k (w k).state
  joins : ∀ k, c.Correct k → ∀ d v n, ¬ preRoastInit c.cfg d v n (w k).state

/-- The correct replicas are active in view `v` above block `h` and know the request that
the primary has proposed for the next block. -/
structure RoundOf (c : Cluster) (w : World) (v h : ℕ) (d : String) : Prop where
  primary : primary c.cfg v ∉ c.faulty
  proposed : ∃ block, .prePrepare v (h + 1) d block ∈ (w (Fbft.primary c.cfg v)).sent
  view : ∀ k, c.Correct k → (w k).state.view = v
  active : ∀ k, c.Correct k → (w k).state.activeView = true
  height : ∀ k, c.Correct k → lowWatermark (w k).state = h
  known : ∀ k, c.Correct k → ∃ r ∈ (w k).state.msgLogRequest, r.reqDigest = d

/-- The correct replicas have one proposal for the next block in their logs. -/
structure Agreed (c : Cluster) (w : World) (v h : ℕ) (d : String) : Prop where
  primary : primary c.cfg v ∉ c.faulty
  view : ∀ k, c.Correct k → (w k).state.view = v
  height : ∀ k, c.Correct k → lowWatermark (w k).state = h
  known : ∀ k, c.Correct k → ∃ r ∈ (w k).state.msgLogRequest, r.reqDigest = d
  logged : ∀ k, c.Correct k → ∃ m ∈ (w k).state.msgLogPrePrepare, m.v = v ∧ m.n = h + 1 ∧
    m.reqDigest = d ∧ m.senderId = Fbft.primary c.cfg v

def LogsProposals (x : Node) : Prop :=
  ∀ v n d block, .prePrepare v n d block ∈ x.sent → x.Logged v n d

theorem Step.ownProposal_logged (step : Step cfg i s (now, .sendPrePrepare d data v n) t) :
    ∃ m ∈ t.msgLogPrePrepare, m.v = v ∧ m.n = n ∧ m.reqDigest = d := by
  cases step.apply
  rcases assertzOnceBy_cases PrePrepare.unifies
    ⟨v, n, d, some data, i, sigOwnReplica⟩ s.msgLogPrePrepare with
    ⟨-, m, logged, unifies⟩ | ⟨appended, -⟩
  · simp only [PrePrepare.unifies, Bool.and_eq_true, decide_eq_true_eq] at unifies
    obtain ⟨⟨view, number, digest, -, -⟩, -⟩ := unifies
    exact ⟨m, mem_assertzOnceBy_of_mem logged, view.symm, number.symm, digest.symm⟩
  · have logged : ⟨v, n, d, some data, i, sigOwnReplica⟩ ∈
        (applySendPrePrepare d data v n i s).msgLogPrePrepare := by
      simp [applySendPrePrepare, msgLogAddPrePrepare, msgOutAdd, appended]
    exact ⟨_, logged, rfl, rfl, rfl⟩

theorem LogsProposals.step (logs : LogsProposals x) (journal : Journal cfg i x)
    (step : Step cfg i x.state (now, a) t) : LogsProposals (x.record t) := by
  intro v n d block said
  rcases journal.mem_sent step said with old | new
  · exact (logs v n d block old).record
  · have acts := Action.putsOut_of_mem new
    simp only [Action.PutsOut] at acts
    subst acts
    obtain ⟨m, inside, rfl, rfl, rfl⟩ := step.ownProposal_logged
    exact Node.Logged.of_log inside

theorem logsProposals (reached : Reachable c.Initial c.Step w) (correct : c.Correct k) :
    LogsProposals (w k) := by
  refine ClusterInvariant.nodes_keep (p := fun _ x => LogsProposals x) (fun _ _ _ step => step) ?_
    ?_ reached correct
  · intro k height hash timestamp v n d block said
    cases said
  · intro w i now a w' step journal logs
    exact logs.step journal step.step

/-- ROAST is for the present or an earlier view and window; in the present one the
replica has committed to what it signs. -/
structure JoinedCommitted (cfg : Config) (s : Replica) : Prop where
  past : ∀ x ∈ s.roast.active, x.v ≤ s.view ∧ x.n ≤ lowWatermark s + 1
  committed : ∀ x ∈ s.roast.active, x.v = s.view → x.n = lowWatermark s + 1 →
    committed cfg x.reqDigest x.v x.n s

theorem Step.keeps_commitsFor (step : Step cfg i s (now, a) t) (keeps : a.keeps v n = true) :
    (commitsFor v n s).length ≤ (commitsFor v n t).length := by
  have kept : commitsFor v n t =
      (assertzAll (a.newCommits i s) s.msgLogCommit).filter fun m => m.v = v ∧ m.n = n := by
    rw [commitsFor, step.tables.commit, List.filter_filter]
    apply List.filter_congr
    intro m _
    by_cases same : m.v = v ∧ m.n = n
    · obtain ⟨rfl, rfl⟩ := same
      simp [keeps]
    · simp [same]
  rw [kept]
  exact ((sublist_assertzAllBy _ _ _).filter _).length_le

namespace JoinedCommitted

theorem initial (start : Initial cfg s) : JoinedCommitted cfg s := by
  obtain ⟨height, blockHash, timestamp, view, rfl⟩ := start
  constructor <;> simp [initNotx, setView, roastCollectGarbage]

theorem step (joined : JoinedCommitted cfg s) (inv : Invariant cfg i s)
    (step : Step cfg i s (now, a) t) : JoinedCommitted cfg t := by
  have single := inv.checkpoint
  have low := step.lowWatermark_le single
  have view := step.view_le
  -- ROAST_INIT finds a certificate of the present view and window.
  have fresh : ∀ d v n, a = .roastInit d v n → v = s.view ∧ n = lowWatermark s + 1 := by
    rintro d v n rfl
    obtain ⟨current, window, -⟩ := committed_logged inv step.pre.2.1
    exact ⟨current, window⟩
  have past : ∀ x ∈ t.roast.active, x.v ≤ s.view ∧ x.n ≤ lowWatermark s + 1 := by
    intro x running
    rcases step.active_some running with before | starts
    · exact joined.past x before
    · obtain ⟨current, window⟩ := fresh _ _ _ starts
      omega
  refine ⟨fun x running => ?_, fun x running current window => ?_⟩
  · obtain ⟨reached, below⟩ := past x running
    omega
  have same : x.v = s.view ∧ x.n = lowWatermark s + 1 := by
    obtain ⟨reached, below⟩ := past x running
    omega
  have keeps : a.keeps x.v x.n = true := step.keeps_current single current (by omega)
  have noBlock : ∀ height time hash, a ≠ .receiveBlock height time hash := by
    rintro height time hash rfl
    have cleared := Option.some.inj step.tables.roast
    rw [← cleared] at running
    cases running
  have certificate : Fbft.committed cfg x.reqDigest x.v x.n s := by
    rcases step.active_some running with before | starts
    · exact joined.committed x before same.1 same.2
    · subst starts
      exact step.pre.2.1
  obtain ⟨-, -, logged⟩ := committed_logged inv certificate
  have kept := step.keeps_certificate logged keeps noBlock
  exact committed_iff.mpr ⟨prepared_iff.mpr
    (Or.inr ⟨prePrepared_iff.mpr (Or.inr kept.1), kept.2⟩),
    (committed_iff.mp certificate).2.trans (step.keeps_commitsFor keeps)⟩

end JoinedCommitted

theorem joinedCommitted (reached : Reachable c.Initial c.Step w) (correct : c.Correct k) :
    JoinedCommitted c.cfg (w k).state := by
  refine ClusterInvariant.nodes_keep (p := fun _ x => JoinedCommitted c.cfg x.state)
    (fun _ _ _ step => step) ?_ ?_ reached correct
  · exact fun _ _ _ _ => .initial ⟨_, _, _, _, rfl⟩
  · exact fun w i now a w' step journal joined => joined.step journal.state step.step

theorem Cluster.card_correct (c : Cluster) :
    quorum c.cfg ≤ (Finset.range c.cfg.clusterSize \ c.faulty).card := by
  have few := c.few
  rw [Finset.card_sdiff_of_subset c.members, Finset.card_range, c.quorum_eq, c.size]
  omega

theorem Cluster.mem_correct :
    k ∈ Finset.range c.cfg.clusterSize \ c.faulty ↔ c.Correct k := by
  simp [Cluster.Correct]

namespace Agreed

theorem correct (agreed : Agreed c w v h d) : c.Correct (Fbft.primary c.cfg v) :=
  ⟨primary_lt c.cfg v, agreed.primary⟩

theorem window (agreed : Agreed c w v h d) (inv : ClusterInvariant c w) (correct : c.Correct k) :
    inWv v (h + 1) (w k).state := by
  rw [inWv_iff (inv.journal k correct).state.checkpoint, agreed.view k correct,
    agreed.height k correct]
  exact ⟨rfl, rfl⟩

theorem prePrepared (agreed : Agreed c w v h d) (correct : c.Correct k) :
    Fbft.prePrepared c.cfg d v (h + 1) (w k).state :=
  prePrepared_iff.mpr (Or.inr ⟨agreed.known k correct, agreed.logged k correct⟩)

theorem prepares (agreed : Agreed c w v h d) (quiescent : Quiescent c w)
    (reached : Reachable c.Initial c.Step w) (correct : c.Correct k)
    (backup : Fbft.primary c.cfg v ≠ k) :
    (∃ m ∈ preparesFor d v (h + 1) (w k).state, m.senderId = k) ∧
      .prepare v (h + 1) d ∈ (w k).sent := by
  have inv := ClusterInvariant.reachable reached
  have own : ∃ m ∈ preparesFor d v (h + 1) (w k).state, m.senderId = k := by
    by_contra missing
    exact quiescent.prepares k correct d v (h + 1) ⟨by rwa [agreed.view k correct],
      agreed.window inv correct, agreed.prePrepared correct, missing⟩
  obtain ⟨m, inside, sender⟩ := own
  obtain ⟨logged, view, number, digest⟩ := mem_preparesFor.mp inside
  have authentic := (inv.genuine k correct).prepare m logged
  rw [sender, view, number, digest] at authentic
  obtain ⟨said, sent, read⟩ := authentic.sent correct.2
  exact ⟨⟨m, inside, sender⟩, Message.readAs_prepare read ▸ sent⟩

/-- Every correct replica has the PREPAREs of the correct backups. -/
theorem prepared (agreed : Agreed c w v h d) (quiescent : Quiescent c w)
    (reached : Reachable c.Initial c.Step w) (correct : c.Correct k) :
    Fbft.prepared c.cfg d v (h + 1) (w k).state := by
  have inv := ClusterInvariant.reachable reached
  refine prepared_iff.mpr (Or.inr ⟨agreed.prePrepared correct, ?_⟩)
  have senders : (Finset.range c.cfg.clusterSize \ c.faulty).erase (Fbft.primary c.cfg v) ⊆
      prepareSenders d v (h + 1) (w k).state := by
    intro j inside
    obtain ⟨backup, inside⟩ := Finset.mem_erase.mp inside
    have honest := Cluster.mem_correct.mp inside
    obtain ⟨own, said⟩ := agreed.prepares quiescent reached honest backup.symm
    rw [mem_prepareSenders]
    by_cases self : j = k
    · subst self
      obtain ⟨m, inside, sender⟩ := own
      obtain ⟨logged, view, number, digest⟩ := mem_preparesFor.mp inside
      exact ⟨m, logged, view, number, digest, sender⟩
    · obtain ⟨sig, -, settled⟩ := quiescent.delivered j honest k correct _ said
      have accepted : applyReceivePrepare c.cfg v (h + 1) d j sig k (w k).state =
          some (msgLogAddPrepare ⟨v, h + 1, d, j, sig⟩ (w k).state) :=
        if_pos ⟨self, by rw [agreed.view k correct]; exact backup.symm, agreed.window inv correct⟩
      have same := congrArg Replica.msgLogPrepare ((settled _ rfl).resolve_left id _ accepted)
      have inside : ⟨v, h + 1, d, j, sig⟩ ∈ (w k).state.msgLogPrepare := by
        rw [← same]
        exact mem_assertzOnce.mpr (Or.inr rfl)
      exact ⟨_, inside, rfl, rfl, rfl, rfl⟩
  have count := Finset.card_le_card senders
  have distinct : (prepareSenders d v (h + 1) (w k).state).card ≤
      (preparesFor d v (h + 1) (w k).state).length := by
    rw [← List.length_map (f := Prepare.senderId)]
    exact List.toFinset_card_le _
  have enough := c.card_correct
  rw [Finset.card_erase_of_mem (Cluster.mem_correct.mpr agreed.correct)] at count
  simp only [quorumPrepare]
  omega

theorem commits (agreed : Agreed c w v h d) (quiescent : Quiescent c w)
    (reached : Reachable c.Initial c.Step w) (correct : c.Correct k) :
    (∃ m ∈ commitsFor v (h + 1) (w k).state, m.senderId = k) ∧
      ∃ data, .commit v (h + 1) data ∈ (w k).sent := by
  have inv := ClusterInvariant.reachable reached
  have own : ∃ m ∈ commitsFor v (h + 1) (w k).state, m.senderId = k := by
    by_contra missing
    exact quiescent.commits k correct d v (h + 1) ⟨agreed.window inv correct,
      agreed.prepared quiescent reached correct, missing⟩
  obtain ⟨m, inside, sender⟩ := own
  obtain ⟨logged, view, number⟩ := mem_commitsFor.mp inside
  have authentic := (inv.genuine k correct).commit m logged
  rw [sender, view, number] at authentic
  obtain ⟨said, sent, read⟩ := authentic.sent correct.2
  exact ⟨⟨m, inside, sender⟩, m.data, Message.readAs_commit read ▸ sent⟩

/-- A COMMIT that feeds ROAST need not be logged, but then the quorum is there. -/
theorem enough_commits (agreed : Agreed c w v h d) (quiescent : Quiescent c w)
    (reached : Reachable c.Initial c.Step w) (correct : c.Correct k) :
    quorum c.cfg ≤ (commitsFor v (h + 1) (w k).state).length := by
  have inv := ClusterInvariant.reachable reached
  by_cases feeds : commitFeedsRoast c.cfg v (h + 1) k (w k).state.roast
  · obtain ⟨⟨x, running, rfl, number⟩, -⟩ := feeds
    have certificate := (joinedCommitted reached correct).committed x running
      (agreed.view k correct).symm (by rw [number, agreed.height k correct])
    rw [number] at certificate
    exact (committed_iff.mp certificate).2
  have senders : Finset.range c.cfg.clusterSize \ c.faulty ⊆
      commitSenders v (h + 1) (w k).state := by
    intro j inside
    have honest := Cluster.mem_correct.mp inside
    obtain ⟨own, data, said⟩ := agreed.commits quiescent reached honest
    rw [mem_commitSenders]
    by_cases self : j = k
    · subst self
      obtain ⟨m, inside, sender⟩ := own
      obtain ⟨logged, view, number⟩ := mem_commitsFor.mp inside
      exact ⟨m, logged, view, number, sender⟩
    · obtain ⟨sig, -, settled⟩ := quiescent.delivered j honest k correct _ said
      have accepted : applyReceiveCommit c.cfg v (h + 1) data j sig k (w k).state =
          some (msgLogAddCommit ⟨v, h + 1, data, j, sig⟩ (w k).state) := by
        rw [applyReceiveCommit_inside self (agreed.window inv correct), if_neg feeds]
      have same := congrArg Replica.msgLogCommit ((settled _ rfl).resolve_left feeds _ accepted)
      have inside : ⟨v, h + 1, data, j, sig⟩ ∈ (w k).state.msgLogCommit := by
        rw [← same]
        exact mem_assertzOnce.mpr (Or.inr rfl)
      exact ⟨_, inside, rfl, rfl, rfl⟩
  have count := Finset.card_le_card senders
  have distinct : (commitSenders v (h + 1) (w k).state).card ≤
      (commitsFor v (h + 1) (w k).state).length := by
    rw [← List.length_map (f := Commit.senderId)]
    exact List.toFinset_card_le _
  have enough := c.card_correct
  omega

/-- Nothing being left to do, every correct replica has a commit certificate for it, and has
joined ROAST unless it has executed the block. -/
theorem finished (agreed : Agreed c w v h d) (quiescent : Quiescent c w)
    (reached : Reachable c.Initial c.Step w) (correct : c.Correct k) :
    Fbft.committed c.cfg d v (h + 1) (w k).state ∧
      ((w k).state.lastExec = h → (w k).state.roast.active ≠ none) := by
  have certificate : Fbft.committed c.cfg d v (h + 1) (w k).state :=
    committed_iff.mpr ⟨agreed.prepared quiescent reached correct,
      agreed.enough_commits quiescent reached correct⟩
  refine ⟨certificate, fun waiting idle => ?_⟩
  apply quiescent.joins k correct d v (h + 1)
  refine ⟨by omega, certificate, idle, ?_⟩
  rintro ⟨running, -⟩
  rw [idle] at running
  cases running

end Agreed

namespace RoundOf

theorem correct (round : RoundOf c w v h d) : c.Correct (Fbft.primary c.cfg v) :=
  ⟨primary_lt c.cfg v, round.primary⟩

theorem window (round : RoundOf c w v h d) (inv : ClusterInvariant c w) (correct : c.Correct k) :
    inWv v (h + 1) (w k).state := by
  rw [inWv_iff (inv.journal k correct).state.checkpoint, round.view k correct,
    round.height k correct]
  exact ⟨rfl, rfl⟩

theorem logged (round : RoundOf c w v h d) (quiescent : Quiescent c w)
    (reached : Reachable c.Initial c.Step w) (correct : c.Correct k) :
    ∃ m ∈ (w k).state.msgLogPrePrepare, m.v = v ∧ m.n = h + 1 ∧ m.reqDigest = d ∧
      m.senderId = Fbft.primary c.cfg v := by
  have inv := ClusterInvariant.reachable reached
  obtain ⟨block, said⟩ := round.proposed
  have journal := inv.journal k correct
  have sender : ∀ m ∈ (w k).state.msgLogPrePrepare, m.senderId = Fbft.primary c.cfg v := by
    intro m inside
    rw [(journal.state.prePrepare m inside).2.2, round.view k correct]
  by_cases self : k = Fbft.primary c.cfg v
  · subst self
    obtain ⟨m, inside, view, number, digest⟩ := logsProposals reached correct _ _ _ _ said
    have present : m ∈ (w (Fbft.primary c.cfg v)).state.msgLogPrePrepare := by
      apply journal.current m inside
      · rw [view, round.view _ correct]
      · rw [number, round.height _ correct]
        omega
    exact ⟨m, present, view, number, digest, sender m present⟩
  · obtain ⟨sig, -, settled⟩ := quiescent.delivered _ round.correct k correct _ said
    by_cases present : ∃ m ∈ (w k).state.msgLogPrePrepare, m.v = v ∧ m.n = h + 1
    · -- Whatever is logged for the number is what the primary has proposed.
      obtain ⟨m, inside, view, number⟩ := present
      have entry : (w k).Logged v (h + 1) m.reqDigest :=
        ⟨m, journal.logged m inside, view, number, rfl⟩
      obtain ⟨data, proposes⟩ := inv.logged_proposes correct entry round.primary
      have same := ((inv.proposer _ round.correct).oneProposal _ _ _ _ _ _ proposes
        (Or.inl ⟨block, rfl, said⟩)).1
      exact ⟨m, inside, view, number, same, sender m inside⟩
    · have accepted : applyReceivePrePrepare c.cfg v (h + 1) d block (Fbft.primary c.cfg v) sig k
          (w k).state = some (msgLogAddPrePrepare
            ⟨v, h + 1, d, some block, Fbft.primary c.cfg v, sig⟩ (w k).state) := by
        refine if_pos ⟨fun same => self same.symm, by rw [round.view k correct],
          round.window inv correct, round.active k correct, Or.inl ?_⟩
        rintro ⟨m, inside, view, number, -⟩
        exact present ⟨m, inside, view, number⟩
      have same := congrArg Replica.msgLogPrePrepare ((settled _ rfl).resolve_left id _ accepted)
      rcases assertzOnceBy_cases PrePrepare.unifies
        ⟨v, h + 1, d, some block, Fbft.primary c.cfg v, sig⟩ (w k).state.msgLogPrePrepare with
        ⟨-, m, inside, unifies⟩ | ⟨appended, -⟩
      · simp only [PrePrepare.unifies, Bool.and_eq_true, decide_eq_true_eq] at unifies
        exact absurd ⟨m, inside, unifies.1.1.symm, unifies.1.2.1.symm⟩ present
      · exact absurd (appended.symm.trans same) (by simp)

theorem agreed (round : RoundOf c w v h d) (quiescent : Quiescent c w)
    (reached : Reachable c.Initial c.Step w) : Agreed c w v h d :=
  ⟨round.primary, round.view, round.height, round.known, fun _ correct =>
    round.logged quiescent reached correct⟩

end RoundOf

/-- The normal case ends in a commit certificate at every correct replica, and those that
have not executed the block yet have joined ROAST to sign it. -/
theorem quiescent_committed (reached : Reachable c.Initial c.Step w) (quiescent : Quiescent c w)
    (round : RoundOf c w v h d) (correct : c.Correct k) :
    committed c.cfg d v (h + 1) (w k).state ∧
      ((w k).state.lastExec = h → (w k).state.roast.active ≠ none) :=
  (round.agreed quiescent reached).finished quiescent reached correct

/-- What the correct replicas of the four do for the first block, until nothing is left. -/
def roundOfFour : List ClusterLabel :=
  [(0, 60, .receiveRequest "(H=1, T=60)" 60), (1, 60, .receiveRequest "(H=1, T=60)" 60),
    (3, 60, .receiveRequest "(H=1, T=60)" 60),
    (0, 60, .sendPrePrepare "(H=1, T=60)" "B60" 0 1),
    (1, 60, .receivePrePrepare 0 1 "(H=1, T=60)" "B60" 0 "S0"),
    (3, 60, .receivePrePrepare 0 1 "(H=1, T=60)" "B60" 0 "S0"),
    (1, 60, .sendPrepare "(H=1, T=60)" 0 1), (3, 60, .sendPrepare "(H=1, T=60)" 0 1),
    (0, 60, .receivePrepare 0 1 "(H=1, T=60)" 1 "S1"),
    (0, 60, .receivePrepare 0 1 "(H=1, T=60)" 3 "S3"),
    (1, 60, .receivePrepare 0 1 "(H=1, T=60)" 3 "S3"),
    (3, 60, .receivePrepare 0 1 "(H=1, T=60)" 1 "S1"),
    (0, 60, .sendCommit "(H=1, T=60)" 0 1 "p0"), (1, 60, .sendCommit "(H=1, T=60)" 0 1 "p1"),
    (3, 60, .sendCommit "(H=1, T=60)" 0 1 "p3"),
    (0, 60, .receiveCommit 0 1 "p1" 1 "S1"), (0, 60, .receiveCommit 0 1 "p3" 3 "S3"),
    (1, 60, .receiveCommit 0 1 "p0" 0 "S0"), (1, 60, .receiveCommit 0 1 "p3" 3 "S3"),
    (3, 60, .receiveCommit 0 1 "p0" 0 "S0"), (3, 60, .receiveCommit 0 1 "p1" 1 "S1"),
    (0, 60, .roastInit "(H=1, T=60)" 0 1), (1, 60, .roastInit "(H=1, T=60)" 0 1),
    (3, 60, .roastInit "(H=1, T=60)" 0 1)]

theorem fourWithOneFaulty_correct (correct : fourWithOneFaulty.Correct k) :
    k ∈ [0, 1, 3] := by
  obtain ⟨member, honest⟩ := correct
  have below : k < 4 := member
  have other : k ≠ 2 := fun same => honest (same ▸ Finset.mem_singleton_self 2)
  simp only [List.mem_cons, List.not_mem_nil, or_false]
  omega

theorem quiescent_committed_roundOfFour : ∃ w,
    fourWithOneFaulty.exec Cluster.Always roundOfFour genesisWorld = some w ∧
    Quiescent fourWithOneFaulty w ∧ RoundOf fourWithOneFaulty w 0 0 "(H=1, T=60)" ∧
    committed fourReplicas "(H=1, T=60)" 0 1 (w 3).state := by
  have runs : ∃ w, fourWithOneFaulty.exec Cluster.Always roundOfFour genesisWorld = some w ∧
      (∀ j ∈ [0, 1, 3], ∀ k ∈ [0, 1, 3], ∀ m ∈ (w j).sent,
        ∀ a ∈ m.arrival j ("S" ++ Nat.repr j), m.feedsRoast fourReplicas k (w k).state.roast ∨
          a.Settled fourReplicas k (w k).state) ∧
      (∀ k ∈ [0, 1, 3],
        (∀ e ∈ prePreparedSolutions fourReplicas (w k).state,
          ¬ preSendPrepare fourReplicas e.reqDigest e.v e.n k (w k).state) ∧
        (∀ e ∈ preparedSolutions fourReplicas (w k).state,
          ¬ preSendCommit fourReplicas e.reqDigest e.v e.n k (w k).state) ∧
        (w k).state.roast.active ≠ none ∧ (w k).state.view = 0 ∧ (w k).state.activeView = true ∧
        lowWatermark (w k).state = 0 ∧
        ∃ r ∈ (w k).state.msgLogRequest, r.reqDigest = "(H=1, T=60)") ∧
      .prePrepare 0 1 "(H=1, T=60)" "B60" ∈ (w 0).sent := by
    decide +kernel
  obtain ⟨w, ran, arrived, settled, proposed⟩ := runs
  have quiescent : Quiescent fourWithOneFaulty w := by
    refine ⟨fun j correct k correct' m said => ?_, fun k correct d v n due => ?_,
      fun k correct d v n due => ?_, fun k correct d v n due => ?_⟩
    · exact ⟨_, by simp [fourWithOneFaulty], arrived j (fourWithOneFaulty_correct correct) k
        (fourWithOneFaulty_correct correct') m said⟩
    · exact (settled k (fourWithOneFaulty_correct correct)).1 _ due.2.2.1 due
    · exact (settled k (fourWithOneFaulty_correct correct)).2.1 _ due.2.1 due
    · exact (settled k (fourWithOneFaulty_correct correct)).2.2.1 due.2.2.1
  have round : RoundOf fourWithOneFaulty w 0 0 "(H=1, T=60)" := by
    refine ⟨by decide, ⟨"B60", proposed⟩, fun k correct => ?_, fun k correct => ?_,
      fun k correct => ?_, fun k correct => ?_⟩
    all_goals
      obtain ⟨-, -, -, view, active, height, known⟩ := settled k (fourWithOneFaulty_correct correct)
    · exact view
    · exact active
    · exact height
    · exact known
  exact ⟨w, ran, quiescent, round, (quiescent_committed (k := 3)
    (Cluster.exec_reachable (genesisWorld_initial rfl) ran) quiescent round (by decide)).1⟩

end Fbft
