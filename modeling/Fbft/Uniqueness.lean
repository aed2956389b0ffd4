import Fbft.Proposals

/-! Certificates as facts about the whole cluster: which backups have said PREPARE and
which replicas COMMIT. Two prepare certificates for one view and number are for one
digest, by the primary when it is correct and by a correct backup of both otherwise. -/
namespace Fbft

open Database LabelledPath

variable {c : Cluster} {w w' : World} {l : ClusterLabel} {i j k : ℕ}

def Node.commits (x : Node) (v n : ℕ) : Bool :=
  x.sent.any fun
    | .commit v' n' _ => v' = v ∧ n' = n
    | _ => false

theorem Node.commits_iff {x : Node} : x.commits v n = true ↔ ∃ data, .commit v n data ∈ x.sent := by
  rw [Node.commits, List.any_eq_true]
  constructor
  · rintro ⟨m, said, match'⟩
    cases m with
    | commit v' n' data =>
      simp only [decide_eq_true_eq] at match'
      obtain ⟨rfl, rfl⟩ := match'
      exact ⟨data, said⟩
    | _ => cases match'
  · rintro ⟨data, said⟩
    exact ⟨_, said, by simp⟩

namespace Cluster

def preparers (c : Cluster) (w : World) (v n : ℕ) (d : String) : Finset ℕ :=
  (Finset.range c.cfg.clusterSize).filter fun k =>
    k ≠ primary c.cfg v ∧ (k ∈ c.faulty ∨ .prepare v n d ∈ (w k).sent)

def committers (c : Cluster) (w : World) (v n : ℕ) : Finset ℕ :=
  (Finset.range c.cfg.clusterSize).filter fun k => k ∈ c.faulty ∨ (w k).commits v n

/-- A correct replica has logged the digest and enough backups stand behind it. -/
def Certified (c : Cluster) (w : World) (v n : ℕ) (d : String) : Prop :=
  (∃ k, c.Correct k ∧ (w k).Logged v n d) ∧ quorumPrepare c.cfg ≤ (c.preparers w v n d).card

/-- One text is accepted as the signature of a sender under a message. -/
def OneSignature (c : Cluster) : Prop :=
  ∀ j m sig sig', c.verify j m sig = true → c.verify j m sig' = true → sig = sig'

theorem mem_preparers : k ∈ c.preparers w v n d ↔ k < c.cfg.clusterSize ∧
    k ≠ primary c.cfg v ∧ (k ∈ c.faulty ∨ .prepare v n d ∈ (w k).sent) := by
  simp [preparers]

theorem mem_committers : k ∈ c.committers w v n ↔ k < c.cfg.clusterSize ∧
    (k ∈ c.faulty ∨ ∃ data, .commit v n data ∈ (w k).sent) := by
  simp [committers, Node.commits_iff]

theorem Certified.mono (grows : Grows w w') (certified : c.Certified w v n d) :
    c.Certified w' v n d := by
  obtain ⟨⟨k, correct, logged⟩, enough⟩ := certified
  refine ⟨⟨k, correct, logged.mono grows⟩, enough.trans (Finset.card_le_card fun j inside => ?_)⟩
  obtain ⟨member, backup, said⟩ := mem_preparers.mp inside
  exact mem_preparers.mpr ⟨member, backup, said.imp_right (grows.sent j _)⟩

theorem quorum_eq (c : Cluster) : quorum c.cfg = 2 * maxFaulty c.cfg + 1 := rfl

theorem exists_correct {A : Finset ℕ} (inside : A ⊆ Finset.range c.cfg.clusterSize)
    (large : quorum c.cfg ≤ A.card) : ∃ k ∈ A, c.Correct k := by
  have few := c.few
  rw [quorum_eq] at large
  obtain ⟨k, member, correct⟩ := Quorum.exists_correct (by omega : c.faulty.card < A.card)
  exact ⟨k, member, Finset.mem_range.mp (inside member), correct⟩

theorem exists_correct_inter {A B : Finset ℕ} (subA : A ⊆ Finset.range c.cfg.clusterSize)
    (subB : B ⊆ Finset.range c.cfg.clusterSize) (largeA : quorum c.cfg ≤ A.card)
    (largeB : quorum c.cfg ≤ B.card) : ∃ k, c.Correct k ∧ k ∈ A ∧ k ∈ B := by
  have few := c.few
  have size := c.size
  rw [quorum_eq] at largeA largeB
  obtain ⟨k, inA, inB, correct⟩ := Quorum.exists_correct_inter subA subB
    (by rw [Finset.card_range]; omega : _ + c.faulty.card < _)
  exact ⟨k, ⟨Finset.mem_range.mp (subA inA), correct⟩, inA, inB⟩

theorem preparers_subset : c.preparers w v n d ⊆
    (Finset.range c.cfg.clusterSize).erase (primary c.cfg v) := by
  intro k inside
  obtain ⟨member, backup, -⟩ := mem_preparers.mp inside
  exact Finset.mem_erase.mpr ⟨backup, Finset.mem_range.mpr member⟩

theorem exists_correct_preparer (faulty : primary c.cfg v ∈ c.faulty)
    (enough : quorumPrepare c.cfg ≤ (c.preparers w v n d).card)
    (enough' : quorumPrepare c.cfg ≤ (c.preparers w v n d').card) :
    ∃ k, c.Correct k ∧ .prepare v n d ∈ (w k).sent ∧ .prepare v n d' ∈ (w k).sent := by
  have size := c.size
  have few := c.few
  have member : primary c.cfg v ∈ Finset.range c.cfg.clusterSize := c.members faulty
  have backups : ((Finset.range c.cfg.clusterSize).erase (primary c.cfg v)).card =
      c.cfg.clusterSize - 1 := by
    rw [Finset.card_erase_of_mem member, Finset.card_range]
  have faultyBackups : (c.faulty.erase (primary c.cfg v)).card = c.faulty.card - 1 :=
    Finset.card_erase_of_mem faulty
  have some : 0 < c.faulty.card := Finset.card_pos.mpr ⟨_, faulty⟩
  simp only [quorumPrepare, quorum_eq] at enough enough'
  obtain ⟨k, first, second, correct⟩ := Quorum.exists_correct_inter
    (preparers_subset (w := w) (n := n) (d := d)) (preparers_subset (w := w) (n := n) (d := d'))
    (by rw [backups, faultyBackups]; omega : _ + (c.faulty.erase (primary c.cfg v)).card < _)
  obtain ⟨inRange, backup, said⟩ := mem_preparers.mp first
  obtain ⟨-, -, said'⟩ := mem_preparers.mp second
  have correct' : k ∉ c.faulty := fun inside => correct (Finset.mem_erase.mpr ⟨backup, inside⟩)
  exact ⟨k, ⟨inRange, correct'⟩, said.resolve_left correct', said'.resolve_left correct'⟩

end Cluster

/-- What holds in every state of the cluster, whatever the faulty replicas say. -/
structure ClusterInvariant (c : Cluster) (w : World) : Prop where
  journal : ∀ k, c.Correct k → Journal c.cfg k (w k)
  genuine : ∀ k, c.Correct k → Genuine c w k
  proposer : ∀ k, c.Correct k → Proposer c.cfg k (w k)

namespace ClusterInvariant

theorem initial (start : c.Initial w) : ClusterInvariant c w where
  journal := by
    intro k correct
    obtain ⟨height, hash, timestamp, fresh⟩ := start k correct
    rw [fresh]
    exact Journal.initial ⟨height, hash, timestamp, none, rfl⟩
  genuine := fun k correct => Genuine.initial start correct
  proposer := by
    intro k correct
    obtain ⟨height, hash, timestamp, fresh⟩ := start k correct
    rw [fresh]
    exact Proposer.initial c.cfg k height hash timestamp

/-- What a correct primary has proposed is of a view it has reached. -/
theorem proposes_view (inv : ClusterInvariant c w) (correct : c.Correct k)
    (proposes : (w k).Proposes v n d data) : v ≤ (w k).state.view := by
  rcases proposes with ⟨block, -, said⟩ | ⟨-, nu, chi, said, -⟩
  · exact ((inv.proposer k correct).prePrepare _ _ _ _ said).2.1
  · exact ((inv.proposer k correct).newView _ _ _ said).2.1

theorem correct_primary (correct : primary c.cfg v ∉ c.faulty) :
    c.Correct (primary c.cfg v) := ⟨primary_lt c.cfg v, correct⟩

theorem logged_proposes (inv : ClusterInvariant c w) (correct : c.Correct k)
    (logged : (w k).Logged v n d) (honest : primary c.cfg v ∉ c.faulty) :
    ∃ data, (w (primary c.cfg v)).Proposes v n d data := by
  obtain ⟨m, inside, rfl, rfl, rfl⟩ := logged
  rcases (inv.genuine k correct).prePrepare m inside with faulty | ⟨data, proposes, -⟩
  · exact absurd faulty honest
  · exact ⟨data, proposes⟩

/-- Behind a RECOVER_VIEW stands a quorum of committers at the height of the checkpoint. -/
theorem recovery_quorum (inv : ClusterInvariant c w) (correct : c.Correct k)
    (pre : preRecoverView c.cfg v (w k).state) :
    quorum c.cfg ≤ (c.committers w v (lowWatermark (w k).state)).card := by
  have journal := inv.journal k correct
  obtain ⟨checkpoint, single⟩ := journal.state.checkpoint
  have recoverable := List.max?_mem pre.2
  simp only [recoverableViews, single, List.flatMap_singleton, List.mem_map, List.mem_filter,
    decide_eq_true_eq] at recoverable
  obtain ⟨m, ⟨-, -, -, enough⟩, rfl⟩ := recoverable
  rw [lowWatermark_eq single]
  refine enough.trans ?_
  have nodup : ((w k).state.msgLogCommitViewRecovery.filter fun m' =>
      m'.v = m.v ∧ m'.n = checkpoint.n).Nodup := journal.recoveryNodup.filter _
  have senders : (((w k).state.msgLogCommitViewRecovery.filter fun m' =>
      m'.v = m.v ∧ m'.n = checkpoint.n).map CommitViewRecovery.senderId).Nodup := by
    apply nodup.map_on
    intro x inside y inside' same
    have fields := (List.mem_filter.mp inside).2
    have fields' := (List.mem_filter.mp inside').2
    simp only [decide_eq_true_eq] at fields fields'
    cases x
    cases y
    simp_all
  rw [← List.length_map (f := CommitViewRecovery.senderId), ← List.toFinset_card_of_nodup senders]
  apply Finset.card_le_card
  intro j listed
  obtain ⟨x, inside, rfl⟩ := List.mem_map.mp (List.mem_toFinset.mp listed)
  obtain ⟨logged, fields⟩ := List.mem_filter.mp inside
  simp only [decide_eq_true_eq] at fields
  obtain ⟨data, said⟩ := (inv.genuine k correct).commitViewRecovery x logged
  rw [fields.1, fields.2] at said
  refine Cluster.mem_committers.mpr ⟨said.1, ?_⟩
  by_cases faulty : x.senderId ∈ c.faulty
  · exact Or.inl faulty
  · obtain ⟨message, sent, read⟩ := said.sent faulty
    exact Or.inr ⟨data, Message.readAs_commit read ▸ sent⟩

/-- No correct replica recovers into a view of which it is the primary: the committers of
that view would have prepared a proposal it never made. -/
theorem not_recovered (inv : ClusterInvariant c w) (correct : c.Correct k)
    (step : Step c.cfg k (w k).state (now, .recoverView v) t) : primary c.cfg v ≠ k := by
  rintro rfl
  obtain ⟨j, inside, honest⟩ := Cluster.exists_correct (fun x h =>
    Finset.mem_range.mpr (Cluster.mem_committers.mp h).1) (inv.recovery_quorum correct step.pre)
  obtain ⟨data, said⟩ := (Cluster.mem_committers.mp inside).2.resolve_left honest.2
  obtain ⟨d, logged⟩ := (inv.journal j honest).commit _ _ _ said
  obtain ⟨block, proposes⟩ := inv.logged_proposes honest logged correct.2
  have reached := inv.proposes_view correct proposes
  have raises := step.recoverView_raises.1
  omega

theorem ownNewViews (inv : ClusterInvariant c w) (correct : c.Correct k) :
    OwnNewViews c.cfg k (w k) := by
  intro m logged own
  have said := (inv.genuine k correct).newView m logged
  rw [own] at said
  obtain ⟨message, sent, read⟩ := said.sent correct.2
  obtain ⟨chi, rfl, entries⟩ := Message.readAs_newView read
  exact ⟨chi, sent, entries⟩

theorem step (inv : ClusterInvariant c w) (step : c.Step w l w') : ClusterInvariant c w' := by
  obtain ⟨i, now, a⟩ := l
  have acting : c.Correct i := step.correct
  have self : w' i = (w i).record (w' i).state := step.at_self
  have notRecovered : ∀ v, a = .recoverView v → primary c.cfg v ≠ i := by
    rintro v rfl
    exact inv.not_recovered acting step.step
  refine ⟨fun k correct => ?_, fun k correct => ?_, fun k correct => ?_⟩
  · by_cases same : k = i
    · subst same
      rw [self]
      exact (inv.journal k acting).step step.step
    · rw [step.at_other same]
      exact inv.journal k correct
  · by_cases same : k = i
    · subst same
      exact (inv.genuine k acting).step_self (inv.journal k acting)
        (inv.proposer k acting).started step
    · exact (inv.genuine k correct).mono step.grows (step.at_other same)
  · by_cases same : k = i
    · subst same
      rw [self]
      exact (inv.proposer k acting).step (inv.journal k acting) (inv.ownNewViews acting)
        notRecovered step.step
    · rw [step.at_other same]
      exact inv.proposer k correct

theorem reachable (reached : Reachable c.Initial c.Step w) : ClusterInvariant c w :=
  reached.invariant (fun _ start => initial start) fun _ _ _ inv next => inv.step next

theorem nodes_keep {p : ℕ → Node → Prop} {step : World → ClusterLabel → World → Prop}
    (sound : ∀ w l w', step w l w' → c.Step w l w')
    (start : ∀ k height hash timestamp,
      p k ⟨initNotx c.cfg height hash timestamp none, [], []⟩)
    (keeps : ∀ w i now a w', step w (i, now, a) w' → Journal c.cfg i (w i) → p i (w i) →
      p i ((w i).record (w' i).state))
    (reached : Reachable c.Initial step w) (correct : c.Correct k) : p k (w k) := by
  have holds : ClusterInvariant c w ∧ ∀ k, c.Correct k → p k (w k) := by
    apply reached.invariant
    · intro w fresh
      refine ⟨ClusterInvariant.initial fresh, fun k correct => ?_⟩
      obtain ⟨height, hash, timestamp, same⟩ := fresh k correct
      exact same ▸ start k height hash timestamp
    · rintro w ⟨i, now, a⟩ w' ⟨inv, holds⟩ moves
      have acts := sound w _ w' moves
      refine ⟨inv.step acts, fun k correct => ?_⟩
      by_cases self : k = i
      · subst self
        rw [acts.at_self]
        exact keeps w k now a w' moves (inv.journal k correct) (holds k correct)
      · rw [acts.at_other self]
        exact holds k correct
  exact holds.2 k correct

/-- Two certificates for one view and number are for one digest. -/
theorem certified_unique (inv : ClusterInvariant c w) (certified : c.Certified w v n d)
    (certified' : c.Certified w v n d') : d = d' := by
  obtain ⟨⟨i, correct, logged⟩, enough⟩ := certified
  obtain ⟨⟨j, correct', logged'⟩, enough'⟩ := certified'
  by_cases faulty : primary c.cfg v ∈ c.faulty
  · obtain ⟨k, honest, said, said'⟩ := Cluster.exists_correct_preparer faulty enough enough'
    have journal := inv.journal k honest
    obtain ⟨m, inside, view, number, digest⟩ := journal.prepare _ _ _ said
    obtain ⟨m', inside', view', number', digest'⟩ := journal.prepare _ _ _ said'
    rw [← digest, ← digest']
    exact journal.oneDigest m inside m' inside' (view.trans view'.symm)
      (number.trans number'.symm)
  · obtain ⟨data, proposes⟩ := inv.logged_proposes correct logged faulty
    obtain ⟨data', proposes'⟩ := inv.logged_proposes correct' logged' faulty
    exact ((inv.proposer _ (correct_primary faulty)).oneProposal _ _ _ _ _ _ proposes proposes').1

end ClusterInvariant

/-- The PREPAREs in the log of a replica count backups, and its Pi holds certificates. -/
structure Certifying (c : Cluster) (w : World) (k : ℕ) : Prop where
  onePrepare : OnePrepare (w k).state
  pi : ∀ e ∈ (w k).state.viewChangePi, c.Certified w e.v e.n e.reqDigest

namespace Certifying

theorem initial (start : c.Initial w) (correct : c.Correct k) : Certifying c w k := by
  obtain ⟨height, hash, timestamp, fresh⟩ := start k correct
  constructor <;> simp [fresh, initNotx, setView, OnePrepare]

theorem certified_of_log (certifying : Certifying c w k) (inv : ClusterInvariant c w)
    (correct : c.Correct k) (listed : ⟨n, d, v⟩ ∈ prePreparedSolutions c.cfg (w k).state)
    (enough : quorumPrepare c.cfg ≤ (preparesFor d v n (w k).state).length) :
    c.Certified w v n d := by
  have journal := inv.journal k correct
  refine ⟨⟨k, correct, ?_⟩, enough.trans ?_⟩
  · rcases mem_prePreparedSolutions.mp listed with ⟨q, inside, same⟩ | logged
    · cases same
      exact journal.qi q inside
    · obtain ⟨-, m, inside, view, number, digest, -⟩ := logged
      exact ⟨m, journal.logged m inside, view, number, digest⟩
  · rw [← card_prepareSenders journal.prepareNodup certifying.onePrepare]
    apply Finset.card_le_card
    intro j member
    obtain ⟨m, logged, rfl, rfl, rfl, rfl⟩ := mem_prepareSenders.mp member
    obtain ⟨view, -, backup, -⟩ := journal.state.prepare m logged
    have said := (inv.genuine k correct).prepare m logged
    refine Cluster.mem_preparers.mpr ⟨said.1, view ▸ backup, ?_⟩
    by_cases faulty : m.senderId ∈ c.faulty
    · exact Or.inl faulty
    · obtain ⟨message, sent, read⟩ := said.sent faulty
      exact Or.inr (Message.readAs_prepare read ▸ sent)

theorem certified (certifying : Certifying c w k) (inv : ClusterInvariant c w)
    (correct : c.Correct k) (certificate : prepared c.cfg d v n (w k).state) :
    c.Certified w v n d := by
  rcases prepared_iff.mp certificate with old | ⟨listed, enough⟩
  · exact certifying.pi _ old
  · exact certifying.certified_of_log inv correct listed enough

theorem mono (certifying : Certifying c w k) (grows : Grows w w') (same : w' k = w k) :
    Certifying c w' k where
  onePrepare := by
    rw [same]
    exact certifying.onePrepare
  pi := by
    rw [same]
    exact fun e listed => (certifying.pi e listed).mono grows

/-- Pi changes only where a view change copies the certificates of the log. -/
theorem step_self (certifying : Certifying c w i) (inv : ClusterInvariant c w)
    (step : c.Step w (i, now, a) w') (onePrepare : OnePrepare (w' i).state) :
    Certifying c w' i where
  onePrepare := onePrepare
  pi := by
    intro e listed
    have acts := step.step
    rw [acts.tables.viewChangePi] at listed
    apply Cluster.Certified.mono step.grows
    cases a with
    | sendViewChange v =>
      obtain ⟨⟨solution, enough⟩, -⟩ := mem_updateViewChangePi.mp listed
      exact certifying.certified_of_log inv step.correct solution enough
    | receiveBlock height time hash => exact certifying.pi e (List.mem_filter.mp listed).1
    | _ => exact certifying.pi e listed

/-- With one signature for each message a PREPARE that is repeated is repeated unchanged. -/
theorem onePrepare_of_oneSignature (one : c.OneSignature) (inv : ClusterInvariant c w)
    (correct : c.Correct k) : OnePrepare (w k).state := by
  intro m logged m' logged' view number digest sender
  have genuine := inv.genuine k correct
  have journal := inv.journal k correct
  have signature : m.senderSig = m'.senderSig := by
    by_cases own : m.senderId = k
    · exact (journal.state.ownPrepare m logged own).trans
        (journal.state.ownPrepare m' logged' (sender ▸ own)).symm
    · have valid := genuine.prepareSig m logged own
      have valid' := genuine.prepareSig m' logged' (sender ▸ own)
      rw [← view, ← number, ← digest, ← sender] at valid'
      exact one _ _ _ _ valid valid'
  cases m
  cases m'
  simp_all

theorem reachable (one : c.OneSignature) (reached : Reachable c.Initial c.Step w) :
    ClusterInvariant c w ∧ ∀ k, c.Correct k → Certifying c w k := by
  apply reached.invariant
  · exact fun _ start => ⟨ClusterInvariant.initial start, fun k correct => initial start correct⟩
  rintro w ⟨i, now, a⟩ w' ⟨inv, certifying⟩ step
  have inv' := inv.step step
  refine ⟨inv', fun k correct => ?_⟩
  by_cases same : k = i
  · subst same
    exact (certifying k correct).step_self inv step (onePrepare_of_oneSignature one inv' correct)
  · exact (certifying k correct).mono step.grows (step.at_other same)

end Certifying

theorem Grows.path {labels : List ClusterLabel} (run : Path c.Step w labels w') : Grows w w' :=
  run.related Grows.refl (fun _ _ _ => Grows.trans) fun _ _ _ => Cluster.Step.grows

/-- Whatever two correct replicas prepare for one view and number, at whatever times, is one
request. -/
theorem prepared_unique {labels : List ClusterLabel} (one : c.OneSignature)
    (reached : Reachable c.Initial c.Step w) (run : Path c.Step w labels w')
    (correct : c.Correct i) (correct' : c.Correct j)
    (certificate : prepared c.cfg d v n (w i).state)
    (certificate' : prepared c.cfg d' v n (w' j).state) : d = d' := by
  obtain ⟨inv, certifying⟩ := Certifying.reachable one reached
  obtain ⟨inv', certifying'⟩ := Certifying.reachable one (reached.extend run)
  have certified := ((certifying i correct).certified inv correct certificate).mono (Grows.path run)
  exact inv'.certified_unique certified
    ((certifying' j correct').certified inv' correct' certificate')

theorem fourWithOneFaulty_oneSignature : fourWithOneFaulty.OneSignature := by
  intro j m sig sig' valid valid'
  exact (of_decide_eq_true valid).trans (of_decide_eq_true valid').symm

def commitsFirst : List ClusterLabel :=
  [(0, 60, .receiveRequest "(H=1, T=60)" 60), (1, 60, .receiveRequest "(H=1, T=60)" 60),
    (0, 60, .receiveRequest "(H=2, T=120)" 120), (1, 60, .receiveRequest "(H=2, T=120)" 120),
    (0, 60, .sendPrePrepare "(H=1, T=60)" "B60" 0 1),
    (1, 60, .receivePrePrepare 0 1 "(H=1, T=60)" "B60" 0 "S0"),
    (1, 60, .sendPrepare "(H=1, T=60)" 0 1),
    (1, 60, .receivePrepare 0 1 "(H=1, T=60)" 2 "S2"),
    (1, 60, .sendCommit "(H=1, T=60)" 0 1 "p1"),
    (0, 60, .receivePrepare 0 1 "(H=1, T=60)" 1 "S1"),
    (0, 60, .receivePrepare 0 1 "(H=1, T=60)" 2 "S2"),
    (0, 60, .sendCommit "(H=1, T=60)" 0 1 "p0"),
    (1, 60, .receiveCommit 0 1 "p0" 0 "S0"), (1, 60, .receiveCommit 0 1 "p2" 2 "S2")]

theorem prepared_unique_commitsFirst : ∃ w,
    fourWithOneFaulty.exec Cluster.Always commitsFirst genesisWorld = some w ∧
    prepared fourReplicas "(H=1, T=60)" 0 1 (w 0).state ∧
    ∀ d, prepared fourReplicas d 0 1 (w 1).state → "(H=1, T=60)" = d := by
  have runs : ∃ w, fourWithOneFaulty.exec Cluster.Always commitsFirst genesisWorld = some w ∧
      prepared fourReplicas "(H=1, T=60)" 0 1 (w 0).state := by
    decide +kernel
  obtain ⟨w, ran, certificate⟩ := runs
  refine ⟨w, ran, certificate, fun d certificate' => ?_⟩
  exact prepared_unique (i := 0) (j := 1) fourWithOneFaulty_oneSignature
    (Cluster.exec_reachable (genesisWorld_initial rfl) ran) .nil (by decide) (by decide) certificate
    certificate'

end Fbft
