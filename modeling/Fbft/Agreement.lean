import Fbft.Reports

/-! Agreement across views. A replica that has committed a request has a quorum of COMMITs
behind it, and the history of the cluster is lawful along every run of sound steps. -/
namespace Fbft

open Database LabelledPath CrossView

variable {c : Cluster} {w w' w₀ : World} {l : ClusterLabel} {i j k : ℕ}
  {labels labels' : List ClusterLabel}

theorem takesHighest_iff : TakesHighest msgs n ↔ ∃ e ∈ (chiCase1 msgs n).head?.toList,
    ∃ p ∈ piEntries msgs, p.n = n ∧ p.reqDigest = e.reqDigest ∧
      ∀ p' ∈ piEntries msgs, p'.n = n → p'.v ≤ p.v := by
  simp only [Option.mem_toList]
  constructor
  · rintro ⟨m, p, v, first, listed, highest⟩
    obtain ⟨q, rest, found⟩ := List.exists_cons_of_ne_nil first.eligible.companion
    exact ⟨_, chiCase1_head_iff.mpr ⟨m, p, q, first, by rw [found]; rfl, rfl⟩, _, listed, rfl, rfl,
      highest⟩
  · rintro ⟨e, taken, p, listed, rfl, digest, highest⟩
    obtain ⟨m, p', q, first, -, rfl⟩ := chiCase1_head_iff.mp taken
    have same : p.reqDigest = p'.reqDigest := digest
    exact ⟨m, p', p.v, first, same ▸ listed, highest⟩

instance : Decidable (TakesHighest msgs n) := decidable_of_iff _ takesHighest_iff.symm

instance : Decidable (Node.Logged x v n d) := inferInstanceAs (Decidable (∃ _ ∈ _, _))

theorem Cluster.certified_iff : c.Certified w v n d ↔
    (∃ k ∈ List.range c.cfg.clusterSize, k ∉ c.faulty ∧ (w k).Logged v n d) ∧
      quorumPrepare c.cfg ≤ (c.preparers w v n d).card := by
  simp [Cluster.Certified, Cluster.Correct, and_assoc]

instance : Decidable (c.Certified w v n d) := decidable_of_iff _ Cluster.certified_iff.symm

instance : Decidable (SoundNu c w s msgs) :=
  decidable_of_iff
    ((∀ m ∈ msgs, m.v = s.view) ∧ (∀ m ∈ msgs, m.hi ≤ lowWatermark s) ∧
      (∀ m ∈ msgs, m.senderId ∈ c.faulty → ∀ e ∈ m.pi, lowWatermark s < e.n →
        c.Certified w e.v e.n e.reqDigest) ∧
      ∀ e ∈ piEntries msgs, lowWatermark s < e.n → TakesHighest msgs e.n)
    ⟨fun ⟨current, level, unforged, highest⟩ => ⟨current, level, unforged, highest⟩,
      fun sound => ⟨sound.current, sound.level, sound.unforged, sound.highest⟩⟩

instance : Decidable (SoundStep c w l) := by
  obtain ⟨i, now, a⟩ := l
  apply a.casesOn (motive := fun a => Decidable (SoundStep c w (i, now, a))) <;> intros <;>
    dsimp only [SoundStep] <;> infer_instance

structure SoundInvariant (c : Cluster) (w : World) : Prop where
  cluster : ClusterInvariant c w
  certifying : ∀ k, c.Correct k → Certifying c w k
  accountable : ∀ k, c.Correct k → Accountable c w k
  commitNodup : ∀ k, c.Correct k → (w k).state.msgLogCommit.Nodup
  oneCommit : ∀ k, c.Correct k → OneCommit (w k).state

theorem SoundStep.repeats (sound : SoundStep c w l) : RepeatsCommit (w l.1).state l.2 := by
  obtain ⟨i, now, a⟩ := l
  cases a with
  | receiveCommit v n data j sig => exact sound
  | _ => trivial

namespace SoundInvariant

theorem initial (start : c.Initial w) : SoundInvariant c w where
  cluster := ClusterInvariant.initial start
  certifying := fun _ correct => Certifying.initial start correct
  accountable := fun _ correct => Accountable.initial start correct
  commitNodup := by
    intro k correct
    obtain ⟨height, hash, timestamp, fresh⟩ := start k correct
    simp [fresh, initNotx, setView]
  oneCommit := by
    intro k correct
    obtain ⟨height, hash, timestamp, fresh⟩ := start k correct
    simp [fresh, initNotx, setView, OneCommit]

theorem step (one : c.OneSignature) (inv : SoundInvariant c w) (step : c.Step w l w')
    (sound : SoundStep c w l) : SoundInvariant c w' := by
  obtain ⟨i, now, a⟩ := l
  have acting : c.Correct i := step.correct
  have cluster := inv.cluster.step step
  have self : Certifying c w' i := (inv.certifying i acting).step_self inv.cluster step
    (Certifying.onePrepare_of_oneSignature one cluster acting)
  refine ⟨cluster, fun k correct => ?_, fun k correct => ?_, fun k correct => ?_,
    fun k correct => ?_⟩ <;> by_cases same : k = i
  · exact same ▸ self
  · exact (inv.certifying k correct).mono step.grows (step.at_other same)
  · subst same
    exact Accountable.step_self inv.accountable inv.cluster self step sound
  · exact (inv.accountable k correct).mono step.grows (step.at_other same)
  · subst same
    exact step.acts.commit_nodup (inv.commitNodup k correct)
  · rw [step.at_other same]
    exact inv.commitNodup k correct
  · subst same
    exact (inv.oneCommit k correct).step step.acts sound.repeats
  · rw [step.at_other same]
    exact inv.oneCommit k correct

theorem run (one : c.OneSignature) (inv : SoundInvariant c w)
    (run : Path (Guarded c.Step (SoundStep c)) w labels w') : SoundInvariant c w' :=
  run.invariant (fun _ _ _ inv next => inv.step one next.1 next.2) inv

theorem lawful (inv : SoundInvariant c w) : (c.history w).Lawful where
  inter := by
    rintro A B ⟨subA, largeA⟩ ⟨subB, largeB⟩
    exact Cluster.exists_correct_inter subA subB largeA largeB
  accepted := fun _ _ _ certified => certified.1
  ordered := fun k v n v' n' correct => (inv.accountable k correct).ordered v n v' n'
  covered := by
    rintro k v n v' r correct committed ⟨hi, digest, pi, qi, said, rfl⟩ later
    exact (inv.accountable k correct).covered v n v' hi digest pi qi committed said later
  justified := by
    rintro v n d ⟨k, correct, logged⟩ positive
    exact (inv.accountable k correct).justified v n d logged positive

theorem quorumCommits (inv : SoundInvariant c w) (correct : c.Correct i)
    (commit : committed c.cfg d v n (w i).state) : (c.history w).QuorumCommits v n := by
  have said : ∀ k ∈ commitSenders v n (w i).state, ∃ data, c.Authentic w k (.commit v n data) := by
    intro k inside
    obtain ⟨m, logged, rfl, rfl, rfl⟩ := mem_commitSenders.mp inside
    exact ⟨m.data, (inv.cluster.genuine i correct).commit m logged⟩
  refine ⟨commitSenders v n (w i).state, ⟨fun k inside => ?_, ?_⟩, fun k inside honest => ?_⟩
  · obtain ⟨data, member, -⟩ := said k inside
    exact Finset.mem_range.mpr member
  · rw [card_commitSenders (inv.commitNodup i correct) (inv.oneCommit i correct)]
    exact commit.2
  · obtain ⟨data, authentic⟩ := said k inside
    obtain ⟨message, sent, read⟩ := authentic.sent honest.2
    exact Node.commits_iff.mpr ⟨data, Message.readAs_commit read ▸ sent⟩

end SoundInvariant

/-- What a correct replica has committed is all that a correct replica prepares for the same
number in a later view, along every run of sound steps. -/
theorem committed_agrees (one : c.OneSignature) (start : c.Initial w₀)
    (run : Path (Guarded c.Step (SoundStep c)) w₀ labels w)
    (run' : Path (Guarded c.Step (SoundStep c)) w labels' w')
    (correct : c.Correct i) (correct' : c.Correct j)
    (commit : committed c.cfg d v n (w i).state) (later : v < v')
    (certificate : prepared c.cfg d' v' n (w' j).state) : d' = d := by
  have inv := (SoundInvariant.initial start).run one run
  have inv' := inv.run one run'
  have grows : Grows w w' := Grows.path run'.unguard
  have certified : c.Certified w' v n d :=
    ((inv.certifying i correct).certified inv.cluster correct commit.1).mono grows
  have certified' : c.Certified w' v' n d' :=
    (inv'.certifying j correct').certified inv'.cluster correct' certificate
  have quorum := (inv.quorumCommits correct commit).mono grows.history
  exact inv'.lawful.agreement quorum (fun _ other => inv'.cluster.certified_unique other certified)
    later certified'.1

/-- The VIEW_CHANGEs that a cluster of four exchanges for view `v`, with those of replica `i`
and of the faulty replica 2 at replica `j`. -/
def viewChangesTo (v : ℕ) (pi : List PiEntry) (qi : List QiEntry) (i j : ℕ) : List ClusterLabel :=
  [(j, 1000, .receiveViewChange v 0 "H0" pi qi i ("S" ++ Nat.repr i)),
    (j, 1000, .receiveViewChange v 0 "H0" [] [] 2 "S2")]

def nuOfView (v : ℕ) : List NuEntry :=
  [⟨0, Nat.repr v ++ "/0"⟩, ⟨1, Nat.repr v ++ "/1"⟩, ⟨2, Nat.repr v ++ "/2"⟩]

/-- Replica 1 becomes the primary, and prepares again what it has committed. -/
def preparesAgainInViewOne : List ClusterLabel :=
  [(0, 1000, .sendViewChange 1), (1, 1000, .sendViewChange 1)] ++
  viewChangesTo 1 [⟨1, "(H=1, T=60)", 0⟩] [⟨1, "(H=1, T=60)", some "B60", 0⟩] 0 1 ++
  viewChangesTo 1 [⟨1, "(H=1, T=60)", 0⟩] [⟨1, "(H=1, T=60)", some "B60", 0⟩] 1 0 ++
  [(1, 1000, .sendNewView (nuOfView 1) [⟨1, "(H=1, T=60)", some "B60"⟩]),
    (0, 1000, .receiveNewView 1 (nuOfView 1) [⟨1, "(H=1, T=60)", some "B60"⟩] 1 "S1"),
    (0, 1000, .processNewView 0 (nuOfView 1) [⟨1, "(H=1, T=60)", some "B60"⟩]),
    (1, 1000, .processNewView 0 (nuOfView 1) [⟨1, "(H=1, T=60)", some "B60"⟩]),
    (1, 1000, .receivePrepare 1 1 "(H=1, T=60)" 0 "S0"),
    (1, 1000, .receivePrepare 1 1 "(H=1, T=60)" 2 "S2")]

theorem committed_agrees_preparesAgain : ∃ w w',
    fourWithOneFaulty.exec (SoundStep fourWithOneFaulty) commitsFirst genesisWorld = some w ∧
    fourWithOneFaulty.exec (SoundStep fourWithOneFaulty) preparesAgainInViewOne w = some w' ∧
    committed fourReplicas "(H=1, T=60)" 0 1 (w 1).state ∧
    prepared fourReplicas "(H=1, T=60)" 1 1 (w' 1).state ∧
    ∀ d, prepared fourReplicas d 1 1 (w' 1).state → d = "(H=1, T=60)" := by
  have runs : ∃ w,
      fourWithOneFaulty.exec (SoundStep fourWithOneFaulty) commitsFirst genesisWorld = some w ∧
      committed fourReplicas "(H=1, T=60)" 0 1 (w 1).state ∧ ∃ w',
        fourWithOneFaulty.exec (SoundStep fourWithOneFaulty) preparesAgainInViewOne w = some w' ∧
        prepared fourReplicas "(H=1, T=60)" 1 1 (w' 1).state := by
    decide +kernel
  obtain ⟨w, ran, commit, w', ran', certificate⟩ := runs
  refine ⟨w, w', ran, ran', commit, certificate, fun d certificate' => ?_⟩
  exact committed_agrees (i := 1) (j := 1) fourWithOneFaulty_oneSignature (genesisWorld_initial rfl)
    (Cluster.exec_path ran) (Cluster.exec_path ran') (by decide) (by decide) commit (by decide)
    certificate'

/-- Two view changes in a row: the second VIEW_CHANGE of 0 and of 1 reports nothing, and the
faulty replica 2 proposes another request in view 2. -/
def preparesOtherInViewTwo : List ClusterLabel :=
  [(0, 1000, .sendViewChange 1), (0, 1000, .sendViewChange 2),
    (1, 1000, .sendViewChange 1), (1, 1000, .sendViewChange 2)] ++
  viewChangesTo 2 [] [] 1 0 ++ viewChangesTo 2 [] [] 0 1 ++
  [(0, 1000, .receiveNewView 2 (nuOfView 2) [] 2 "S2"),
    (1, 1000, .receiveNewView 2 (nuOfView 2) [] 2 "S2"),
    (0, 1000, .processNewView 0 (nuOfView 2) []), (1, 1000, .processNewView 0 (nuOfView 2) []),
    (0, 1000, .receivePrePrepare 2 1 "(H=2, T=120)" "B120" 2 "S2"),
    (1, 1000, .receivePrePrepare 2 1 "(H=2, T=120)" "B120" 2 "S2"),
    (0, 1000, .sendPrepare "(H=2, T=120)" 2 1), (1, 1000, .sendPrepare "(H=2, T=120)" 2 1),
    (0, 1000, .receivePrepare 2 1 "(H=2, T=120)" 1 "S1")]

theorem committed_disagrees : ∃ w₀ w w' labels labels',
    fourWithOneFaulty.OneSignature ∧ fourWithOneFaulty.Initial w₀ ∧
    Path fourWithOneFaulty.Step w₀ labels w ∧ Path fourWithOneFaulty.Step w labels' w' ∧
    fourWithOneFaulty.Correct 1 ∧ fourWithOneFaulty.Correct 0 ∧
    committed fourReplicas "(H=1, T=60)" 0 1 (w 1).state ∧
    prepared fourReplicas "(H=2, T=120)" 2 1 (w' 0).state := by
  have runs : ∃ w, fourWithOneFaulty.exec Cluster.Always commitsFirst genesisWorld = some w ∧
      committed fourReplicas "(H=1, T=60)" 0 1 (w 1).state ∧ ∃ w',
        fourWithOneFaulty.exec Cluster.Always preparesOtherInViewTwo w = some w' ∧
        prepared fourReplicas "(H=2, T=120)" 2 1 (w' 0).state := by
    decide +kernel
  obtain ⟨w, ran, commit, w', ran', certificate⟩ := runs
  exact ⟨genesisWorld, w, w', _, _, fourWithOneFaulty_oneSignature, genesisWorld_initial rfl,
    (Cluster.exec_path ran).unguard, (Cluster.exec_path ran').unguard, by decide, by decide, commit,
    certificate⟩

end Fbft
