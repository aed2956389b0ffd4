import Fbft.Uniqueness
import Fbft.Certificates
import Fbft.CrossView

/-! What a correct replica owes to its COMMITs when it changes views, and what it accepts in
a later view: the cluster seen as a history of commits and reports. -/
namespace Fbft

open Database LabelledPath CrossView

variable {c : Cluster} {w w' : World} {l : ClusterLabel} {i j k : ℕ} {msgs : List ViewChange}

def reportOf (hi : ℕ) (pi : List PiEntry) : Report String :=
  ⟨hi, pi.map fun e => ⟨e.n, e.reqDigest, e.v⟩⟩

def Cluster.history (c : Cluster) (w : World) : History ℕ String where
  quorum A := A ⊆ Finset.range c.cfg.clusterSize ∧ quorum c.cfg ≤ A.card
  correct := c.Correct
  commits k v n := (w k).commits v n = true
  reports k v r := ∃ hi digest pi qi, .viewChange v hi digest pi qi ∈ (w k).sent ∧ r = reportOf hi pi
  certified := c.Certified w
  accepted v n d := ∃ k, c.Correct k ∧ (w k).Logged v n d

theorem mem_reportOf {e : Entry String} : e ∈ (reportOf hi pi).entries ↔
    ∃ p ∈ pi, p.n = e.number ∧ p.reqDigest = e.value ∧ p.v = e.view := by
  obtain ⟨number, value, view⟩ := e
  simp [reportOf]

theorem Grows.commits (grows : Grows w w') (committed : (w k).commits v n = true) :
    (w' k).commits v n = true := by
  obtain ⟨data, said⟩ := Node.commits_iff.mp committed
  exact Node.commits_iff.mpr ⟨data, grows.sent k _ said⟩

theorem Grows.history (grows : Grows w w') : (c.history w).Extends (c.history w') where
  quorum := fun _ large => large
  correct := fun _ correct => correct
  commits := fun _ _ _ => grows.commits
  reports := by
    rintro k v r ⟨hi, digest, pi, qi, said, same⟩
    exact ⟨hi, digest, pi, qi, grows.sent k _ said, same⟩
  certified := fun _ _ _ => Cluster.Certified.mono grows

/-- The first certificate that `correct_chi` can take for number `n` has the digest of one of
the highest view. -/
def TakesHighest (msgs : List ViewChange) (n : ℕ) : Prop :=
  ∃ m p v, FirstEligible msgs n m p ∧ HighestCertificate msgs n p.reqDigest v

/-- The VIEW_CHANGEs of a Nu are for the current view, none of them is ahead of the
checkpoint, none claims a certificate that cannot exist, and for what is above the
checkpoint the highest certificate comes first. -/
structure SoundNu (c : Cluster) (w : World) (s : Replica) (msgs : List ViewChange) : Prop where
  current : ∀ m ∈ msgs, m.v = s.view
  level : ∀ m ∈ msgs, m.hi ≤ lowWatermark s
  unforged : ∀ m ∈ msgs, m.senderId ∈ c.faulty → ∀ e ∈ m.pi, lowWatermark s < e.n →
    c.Certified w e.v e.n e.reqDigest
  highest : ∀ e ∈ piEntries msgs, lowWatermark s < e.n → TakesHighest msgs e.n

/-- A view is left only when each number in Pi above the checkpoint was prepared again in it,
a COMMIT is repeated unchanged, and a NEW_VIEW is processed on a sound Nu. -/
def SoundStep (c : Cluster) (w : World) (l : ClusterLabel) : Prop :=
  match l.2.2 with
  | .sendViewChange _ => ∀ e ∈ (w l.1).state.viewChangePi, lowWatermark (w l.1).state < e.n →
      PreparedInLog c.cfg e.n (w l.1).state
  | .processNewView _ nu _ => SoundNu c w (w l.1).state (nuVset nu (w l.1).state)
  | _ => RepeatsCommit (w l.1).state l.2

/-- The present view was recovered, by a quorum of COMMITs for what is settled by now, or
entered on reports. -/
def HasEntered (c : Cluster) (w : World) (k : ℕ) : Prop :=
  (∃ n ≤ lowWatermark (w k).state, (c.history w).QuorumCommits (w k).state.view n) ∨
  ∃ reports, (c.history w).Entered ((w k).Logged (w k).state.view) reports (w k).state.view
    (lowWatermark (w k).state)

/-- What holds of the COMMITs, the VIEW_CHANGEs and the log of a correct replica. -/
structure Accountable (c : Cluster) (w : World) (k : ℕ) : Prop where
  reached : ∀ v n, (w k).commits v n = true →
    v ≤ (w k).state.view ∧ n ≤ lowWatermark (w k).state + 1
  ordered : ∀ v n v' n', (w k).commits v n = true → (w k).commits v' n' = true → v < v' → n ≤ n'
  held : ∀ v n, (w k).commits v n = true → n ≤ lowWatermark (w k).state ∨
    (∃ e ∈ (w k).state.viewChangePi, e.n = n ∧ v ≤ e.v) ∨
    (v = (w k).state.view ∧ ∃ d, LoggedPrepared c.cfg (w k).state ⟨n, d, v⟩) ∨
    (c.history w).Overtaken v n
  reported : ∀ v hi digest pi qi, .viewChange v hi digest pi qi ∈ (w k).sent →
    v ≤ (w k).state.view ∧ ∀ e ∈ pi, e.v < v ∧ c.Certified w e.v e.n e.reqDigest
  covered : ∀ v n v' hi digest pi qi, (w k).commits v n = true →
    .viewChange v' hi digest pi qi ∈ (w k).sent → v < v' →
      (c.history w).Covers (reportOf hi pi) v n
  entered : (w k).state.activeView = true → 0 < (w k).state.view → HasEntered c w k
  justified : ∀ v n d, (w k).Logged v n d → 0 < v → (c.history w).Justified v n d

namespace Cluster.Step

theorem acts (step : c.Step w (i, now, a) w') :
    Fbft.Step c.cfg i (w i).state (now, a) (w' i).state :=
  step.step

theorem new_commits (step : c.Step w (i, now, a) w') (journal : Journal c.cfg i (w i))
    (committed : (w' i).commits v n = true) :
    (w i).commits v n = true ∨ ∃ d data, a = .sendCommit d v n data := by
  obtain ⟨data, said⟩ := Node.commits_iff.mp committed
  rw [step.at_self] at said
  rcases journal.mem_sent step.acts said with old | new
  · exact Or.inl (Node.commits_iff.mpr ⟨data, old⟩)
  · obtain ⟨d, acts⟩ := Action.putsOut_of_mem new
    exact Or.inr ⟨d, data, acts⟩

theorem new_viewChange (step : c.Step w (i, now, a) w') (journal : Journal c.cfg i (w i))
    (said : .viewChange v hi digest pi qi ∈ (w' i).sent) :
    .viewChange v hi digest pi qi ∈ (w i).sent ∨
    (a = .sendViewChange v ∧ hi = lowWatermark (w i).state ∧
      pi = (updateViewChangePi c.cfg (w i).state).viewChangePi) := by
  rw [step.at_self] at said
  rcases journal.mem_sent step.acts said with old | new
  · exact Or.inl old
  · obtain ⟨acts, checkpoint, reported, message⟩ := Action.putsOut_of_mem new
    have height := (reportedCheckpoint_spec reported).2
    rw [getH_eq journal.state.checkpoint] at height
    cases message
    exact Or.inr ⟨acts, (Option.some.inj height).symm, rfl⟩

theorem new_logged (step : c.Step w (i, now, a) w') (journal : Journal c.cfg i (w i))
    (logged : (w' i).Logged v n d) :
    (w i).Logged v n d ∨ (v = (w' i).state.view ∧ lowWatermark (w' i).state < n ∧
      (w' i).state.activeView = true) := by
  obtain ⟨m, inside, rfl, rfl, rfl⟩ := logged
  rw [step.at_self] at inside
  rcases journal.mem_logged step.acts inside with old | new
  · exact Or.inl ⟨m, old, rfl, rfl, rfl⟩
  · obtain ⟨view, above, -, same, height, active⟩ :=
      step.acts.new_prePrepare journal.state.checkpoint new
    exact Or.inr ⟨view.trans same.symm, height ▸ above, active⟩

end Cluster.Step

namespace Accountable

theorem initial (start : c.Initial w) (correct : c.Correct k) : Accountable c w k := by
  obtain ⟨height, hash, timestamp, fresh⟩ := start k correct
  constructor <;> simp [fresh, initNotx, setView, Node.commits, Node.Logged]

theorem mono (accountable : Accountable c w k) (grows : Grows w w') (same : w' k = w k) :
    Accountable c w' k where
  reached := by
    rw [same]
    exact accountable.reached
  ordered := by
    rw [same]
    exact accountable.ordered
  held := by
    rw [same]
    intro v n committed
    exact (accountable.held v n committed).imp_right (Or.imp_right (Or.imp_right
      (History.Overtaken.mono grows.history)))
  reported := by
    rw [same]
    intro v hi digest pi qi said
    obtain ⟨view, entries⟩ := accountable.reported v hi digest pi qi said
    exact ⟨view, fun e listed => ⟨(entries e listed).1, (entries e listed).2.mono grows⟩⟩
  covered := by
    rw [same]
    intro v n v' hi digest pi qi committed said later
    exact (accountable.covered v n v' hi digest pi qi committed said later).mono grows.history
  entered := by
    rw [HasEntered, same]
    intro active positive
    rcases accountable.entered active positive with ⟨n, below, committed⟩ | ⟨reports, entered⟩
    · exact Or.inl ⟨n, below, committed.mono grows.history⟩
    · exact Or.inr ⟨reports, entered.mono grows.history (le_refl _) fun _ _ taken => taken⟩
  justified := by
    rw [same]
    intro v n d logged positive
    exact (accountable.justified v n d logged positive).mono grows.history

end Accountable

def reportsOf (nu : List NuEntry) (s : Replica) : List (ℕ × Report String) :=
  (nuVset nu s).map fun m => (m.senderId, reportOf m.hi m.pi)

theorem mem_reportsOf {x : ℕ × Report String} : x ∈ reportsOf nu s ↔
    ∃ m ∈ nuVset nu s, x = (m.senderId, reportOf m.hi m.pi) := by
  simp [reportsOf, eq_comm]

/-- Each computed entry is processed, under its number and digest. -/
theorem exists_processed {logged computed chi : List ChiEntry} {e : ChiEntry}
    (unified : unifyChi logged computed = some chi) (distinct : (computed.map ChiEntry.n).Nodup)
    (inside : e ∈ computed) : ∃ e' ∈ chi, e'.n = e.n ∧ e'.reqDigest = e.reqDigest := by
  have number : e.n ∈ chi.map ChiEntry.n := by
    rw [unifyChi_numbers unified]
    exact List.mem_map_of_mem inside
  obtain ⟨e', processed, same⟩ := List.mem_map.mp number
  obtain ⟨a, -, b, member, unifies⟩ := mem_unifyChi unified processed
  obtain ⟨numberB, digestB, -⟩ := ChiEntry.unify_spec unifies
  have entry : b = e := List.inj_on_of_nodup_map distinct member inside (numberB.symm.trans same)
  exact ⟨e', processed, same, entry ▸ digestB⟩

/-- What is processed for a number that some Pi lists is the first certificate that can be
taken for it. -/
theorem processed_of_firstEligible {m m' : ViewChange} {p p' : PiEntry}
    (pre : preProcessNewView cfg hi nu chi i s) (inside : m ∈ nuVset nu s) (above : m.hi < n)
    (listed : p ∈ piEntries (nuVset nu s)) (number : p.n = n)
    (first : FirstEligible (nuVset nu s) n m' p') : ∃ e ∈ chi, e.n = n ∧ e.reqDigest = p'.reqDigest := by
  obtain ⟨x, -, -, -, -, computed, solved, unified⟩ := correctNewView_spec pre.2.1
  obtain ⟨distinct, range, entries⟩ := correctChi_range solved
  obtain ⟨e, member, same⟩ := List.mem_map.mp
    ((range n).mpr ⟨⟨m, inside, above⟩, p, listed, number.ge⟩)
  obtain ⟨e', processed, number', digest⟩ := exists_processed unified distinct member
  obtain ⟨q, rest, found⟩ := List.exists_cons_of_ne_nil first.eligible.companion
  have taken : chiEntry (nuVset nu s) n = ⟨n, p'.reqDigest, q.data⟩ := by
    simp [chiEntry, chiCase1_head_iff.mpr ⟨m', p', q, first, by rw [found]; rfl, rfl⟩]
  have entry : e = ⟨n, p'.reqDigest, q.data⟩ := by
    rw [entries e member, same, taken]
  exact ⟨e', processed, number'.trans same, by rw [digest, entry]⟩

section

variable (inv : ClusterInvariant c w) (correct : c.Correct i)

include inv correct

theorem sent_of_logged {m : ViewChange} (logged : m ∈ (w i).state.msgLogViewChange) :
    m.senderId < c.cfg.clusterSize ∧ (m.senderId ∉ c.faulty →
      .viewChange m.v m.hi m.c m.pi m.qi ∈ (w m.senderId).sent) := by
  have said := (inv.genuine i correct).viewChange m logged
  refine ⟨said.1, fun honest => ?_⟩
  obtain ⟨message, sent, read⟩ := said.sent honest
  exact Message.readAs_viewChange read ▸ sent

theorem quorum_of_processNewView (pre : preProcessNewView c.cfg hi nu chi i (w i).state)
    (current : ∀ m ∈ nuVset nu (w i).state, m.v = (w i).state.view) :
    ∃ A, (c.history w).quorum A ∧ ∀ k ∈ A, ∃ x ∈ reportsOf nu (w i).state, x.1 = k := by
  obtain ⟨x, -, -, -, fromLog, -⟩ := correctNewView_spec pre.2.1
  obtain ⟨sub, part, large, rfl⟩ := nu_of_log (Or.inr fromLog)
  have rests := restsOnQuorum_of_sublist (inv.journal i correct).viewChanges part large current
  have element : ∀ k ∈ ((sortNu sub).map NuEntry.j).toFinset, ∃ m ∈ (w i).state.msgLogViewChange,
      m ∈ nuVset (sortNu sub) (w i).state ∧ m.senderId = k := by
    intro k member
    obtain ⟨e, inside, rfl⟩ := List.mem_map.mp (List.mem_toFinset.mp member)
    obtain ⟨m, logged, sender, digest, -⟩ := rests.logged e inside
    exact ⟨m, logged, mem_nuVset.mpr ⟨logged, e, inside, digest⟩, sender⟩
  refine ⟨((sortNu sub).map NuEntry.j).toFinset, ⟨fun k member => ?_, rests.large⟩,
    fun k member => ?_⟩
  · obtain ⟨m, logged, -, rfl⟩ := element k member
    exact Finset.mem_range.mpr (sent_of_logged inv correct logged).1
  · obtain ⟨m, -, listed, rfl⟩ := element k member
    exact ⟨_, mem_reportsOf.mpr ⟨m, listed, rfl⟩, rfl⟩

end

/-- The NEW_VIEW that is processed rests on the reports of a quorum, and its Chi takes up
their highest certificates. -/
theorem entered_of_processNewView (inv : ClusterInvariant c w)
    (accountable : ∀ k, c.Correct k → Accountable c w k)
    (step : c.Step w (i, now, .processNewView hi nu chi) w')
    (sound : SoundNu c w (w i).state (nuVset nu (w i).state)) :
    (c.history w).Entered ((w' i).Logged (w i).state.view) (reportsOf nu (w i).state)
      (w i).state.view (lowWatermark (w i).state) where
  quorum := quorum_of_processNewView inv step.correct step.acts.pre sound.current
  reported := by
    intro x member honest
    obtain ⟨m, inside, rfl⟩ := mem_reportsOf.mp member
    have said := (sent_of_logged inv step.correct (mem_nuVset.mp inside).1).2 honest.2
    rw [sound.current m inside] at said
    exact ⟨m.hi, m.c, m.pi, m.qi, said, rfl⟩
  settled := by
    intro x member
    obtain ⟨m, inside, rfl⟩ := mem_reportsOf.mp member
    exact sound.level m inside
  certified := by
    intro x member e listed above
    obtain ⟨m, inside, rfl⟩ := mem_reportsOf.mp member
    obtain ⟨p, entry, number, digest, view⟩ := mem_reportOf.mp listed
    have logged := (mem_nuVset.mp inside).1
    obtain ⟨sender, sent⟩ := sent_of_logged inv step.correct logged
    rw [← number] at above ⊢
    rw [← digest, ← view, ← sound.current m inside]
    refine ⟨(inv.journal i step.correct).reported m logged p entry, ?_⟩
    by_cases faulty : m.senderId ∈ c.faulty
    · exact sound.unforged m inside faulty p entry above
    · have reported := (accountable m.senderId ⟨sender, faulty⟩).reported _ _ _ _ _ (sent faulty)
      exact (reported.2 p entry).2
  highest := by
    intro x member e listed above
    obtain ⟨m, inside, rfl⟩ := mem_reportsOf.mp member
    obtain ⟨p, entry, number, -, view⟩ := mem_reportOf.mp listed
    have mentioned : p ∈ piEntries (nuVset nu (w i).state) :=
      List.mem_flatMap.mpr ⟨m, inside, entry⟩
    rw [← number] at above ⊢
    obtain ⟨m', p', v, first, certificate⟩ := sound.highest p mentioned above
    have level := sound.level m inside
    obtain ⟨e', processed, number', digest'⟩ := processed_of_firstEligible step.acts.pre inside
      (by omega : m.hi < p.n) mentioned rfl first
    obtain ⟨m'', inside', entry'⟩ := List.mem_flatMap.mp certificate.listed
    refine ⟨_, mem_reportsOf.mpr ⟨m'', inside', rfl⟩, ⟨p.n, p'.reqDigest, v⟩,
      mem_reportOf.mpr ⟨_, entry', rfl, rfl, rfl⟩, rfl, ?_, ?_⟩
    · have populated : ⟨(w i).state.view, e'.n, e'.reqDigest, e'.data,
          primary c.cfg (w i).state.view, sigInNewView⟩ ∈ (w' i).state.msgLogPrePrepare := by
        rw [step.acts.processNewView_log (inv.journal i step.correct).state]
        exact List.mem_map.mpr ⟨e', processed, rfl⟩
      have taken : ((w i).record (w' i).state).Logged (w i).state.view e'.n e'.reqDigest :=
        Node.Logged.of_log populated
      rwa [number', digest', ← step.at_self] at taken
    · rw [← view]
      exact certificate.highest p mentioned rfl

namespace Accountable

theorem quorumCommits_of_recoverView (inv : ClusterInvariant c w) (correct : c.Correct i)
    (pre : preRecoverView c.cfg v (w i).state) :
    (c.history w).QuorumCommits v (lowWatermark (w i).state) := by
  refine ⟨c.committers w v (lowWatermark (w i).state), ⟨fun k member => ?_,
    inv.recovery_quorum correct pre⟩, fun k member honest => ?_⟩
  · exact Finset.mem_range.mpr (Cluster.mem_committers.mp member).1
  · have said := (Cluster.mem_committers.mp member).2.resolve_left honest.2
    exact Node.commits_iff.mpr said

/-- The certificate behind a COMMIT is in the log when it is sent. -/
theorem held_of_sendCommit (inv : ClusterInvariant c w)
    (step : c.Step w (i, now, .sendCommit d v n data) w') :
    v = (w i).state.view ∧ n = lowWatermark (w i).state + 1 ∧
      LoggedPrepared c.cfg (w i).state ⟨n, d, v⟩ := by
  have journal := inv.journal i step.correct
  obtain ⟨window, certificate, -⟩ := step.acts.pre
  obtain ⟨view, number⟩ := (inWv_iff journal.state.checkpoint).mp window
  exact ⟨view, number, prepared_current journal.state certificate view⟩

private theorem step_reached (accountable : Accountable c w i) (inv : ClusterInvariant c w)
    (step : c.Step w (i, now, a) w') : ∀ v n, (w' i).commits v n = true →
      v ≤ (w' i).state.view ∧ n ≤ lowWatermark (w' i).state + 1 := by
  intro v n committed
  have journal := inv.journal i step.correct
  have le := step.acts.view_le
  have grown := step.acts.lowWatermark_le journal.state.checkpoint
  rcases step.new_commits journal committed with old | ⟨d, data, rfl⟩
  · have reached := accountable.reached v n old
    omega
  · obtain ⟨view, number, -⟩ := held_of_sendCommit inv step
    omega

private theorem step_ordered (accountable : Accountable c w i) (inv : ClusterInvariant c w)
    (step : c.Step w (i, now, a) w') : ∀ v n v' n', (w' i).commits v n = true →
      (w' i).commits v' n' = true → v < v' → n ≤ n' := by
  intro v n v' n' committed committed' later
  have journal := inv.journal i step.correct
  rcases step.new_commits journal committed' with old' | ⟨d', data', rfl⟩
  · rcases step.new_commits journal committed with old | ⟨d, data, rfl⟩
    · exact accountable.ordered v n v' n' old old' later
    · obtain ⟨view, -⟩ := held_of_sendCommit inv step
      have reached := (accountable.reached v' n' old').1
      omega
  · obtain ⟨view', number', -⟩ := held_of_sendCommit inv step
    rcases step.new_commits journal committed with old | ⟨d, data, acts⟩
    · have reached := (accountable.reached v n old).2
      omega
    · cases acts
      omega

/-- On leaving a view by a VIEW_CHANGE the certificate is settled, in the new Pi, or a quorum
has moved on. -/
theorem covered_of_sendViewChange (accountable : Accountable c w i) (inv : ClusterInvariant c w)
    (correct : c.Correct i)
    (renews : ∀ e ∈ (w i).state.viewChangePi, lowWatermark (w i).state < e.n →
      PreparedInLog c.cfg e.n (w i).state)
    (committed : (w i).commits v n = true) :
    n ≤ lowWatermark (w i).state ∨
    (∃ e ∈ (updateViewChangePi c.cfg (w i).state).viewChangePi, e.n = n ∧ v ≤ e.v) ∨
    (c.history w).Overtaken v n := by
  have journal := inv.journal i correct
  rcases accountable.held v n committed with settled | ⟨e, listed, number, view⟩ |
    ⟨view, d, certificate⟩ | overtaken
  · exact Or.inl settled
  · by_cases settled : n ≤ lowWatermark (w i).state
    · exact Or.inl settled
    obtain ⟨m, inside, number', certificate⟩ := renews e listed (by omega)
    have before := journal.state.pi e listed
    have current := certificate.1.view journal.state
    simp only at current
    exact Or.inr (Or.inl ⟨_, certificate.mem_pi journal.state, number'.trans number,
      by simp only; omega⟩)
  · exact Or.inr (Or.inl ⟨_, certificate.mem_pi journal.state, rfl, le_refl _⟩)
  · exact Or.inr (Or.inr overtaken)

private theorem step_held (accountable : Accountable c w i) (inv : ClusterInvariant c w)
    (step : c.Step w (i, now, a) w') (sound : SoundStep c w (i, now, a)) :
    ∀ v n, (w' i).commits v n = true → n ≤ lowWatermark (w' i).state ∨
      (∃ e ∈ (w' i).state.viewChangePi, e.n = n ∧ v ≤ e.v) ∨
      (v = (w' i).state.view ∧ ∃ d, LoggedPrepared c.cfg (w' i).state ⟨n, d, v⟩) ∨
      (c.history w').Overtaken v n := by
  intro v n committed
  have acts := step.acts
  have journal := inv.journal i step.correct
  have table := acts.tables.viewChangePi
  have view := acts.tables.view
  have grown := acts.lowWatermark_le journal.state.checkpoint
  have overtake : (c.history w).Overtaken v n → (c.history w').Overtaken v n :=
    History.Overtaken.mono step.grows.history
  rcases step.new_commits journal committed with old | ⟨d, data, rfl⟩
  · cases a with
    | sendViewChange v' =>
      rcases accountable.covered_of_sendViewChange inv step.correct sound old with
        settled | listed | overtaken
      · exact Or.inl (by omega)
      · rw [table]
        exact Or.inr (Or.inl listed)
      · exact Or.inr (Or.inr (Or.inr (overtake overtaken)))
    | recoverView v' =>
      rcases accountable.held v n old with settled | listed | ⟨current, -⟩ | overtaken
      · exact Or.inl (by omega)
      · rw [table]
        exact Or.inr (Or.inl listed)
      · by_cases settled : n ≤ lowWatermark (w i).state
        · exact Or.inl (by omega)
        have raised := acts.recoverView_raises.1
        have recovered : (c.history w).QuorumCommits v' (lowWatermark (w i).state) :=
          quorumCommits_of_recoverView inv step.correct acts.pre
        exact Or.inr (Or.inr (Or.inr (overtake ⟨v', _, by omega, by omega, recovered⟩)))
      · exact Or.inr (Or.inr (Or.inr (overtake overtaken)))
    | receiveBlock height time hash =>
      obtain ⟨higher, checkpoint⟩ := acts.block_checkpoint journal.state.checkpoint
      have reached := (accountable.reached v n old).2
      have settled := lowWatermark_eq checkpoint
      simp only at settled
      exact Or.inl (by omega)
    | _ =>
      rcases accountable.held v n old with settled | listed | ⟨current, d, certificate⟩ | overtaken
      · exact Or.inl (by omega)
      · rw [table]
        exact Or.inr (Or.inl listed)
      · exact Or.inr (Or.inr (Or.inl ⟨current.trans view.symm, d,
          acts.keeps_certificate certificate rfl (by simp)⟩))
      · exact Or.inr (Or.inr (Or.inr (overtake overtaken)))
  · obtain ⟨current, -, certificate⟩ := held_of_sendCommit inv step
    exact Or.inr (Or.inr (Or.inl ⟨current.trans view.symm, d,
      acts.keeps_certificate certificate rfl (by simp)⟩))

private theorem step_reported (accountable : Accountable c w i) (inv : ClusterInvariant c w)
    (certifying : Certifying c w' i) (step : c.Step w (i, now, a) w') :
    ∀ v hi digest pi qi, .viewChange v hi digest pi qi ∈ (w' i).sent →
      v ≤ (w' i).state.view ∧ ∀ e ∈ pi, e.v < v ∧ c.Certified w' e.v e.n e.reqDigest := by
  intro v hi digest pi qi said
  have journal := inv.journal i step.correct
  have le := step.acts.view_le
  rcases step.new_viewChange journal said with old | ⟨rfl, -, rfl⟩
  · obtain ⟨view, entries⟩ := accountable.reported v hi digest pi qi old
    exact ⟨by omega, fun e listed => ⟨(entries e listed).1, (entries e listed).2.mono step.grows⟩⟩
  · obtain ⟨raised, next⟩ := step.acts.sendViewChange_raises
    refine ⟨next.ge, fun e listed => ⟨?_, certifying.pi e ?_⟩⟩
    · obtain ⟨⟨solution, -⟩, -⟩ := mem_updateViewChangePi.mp listed
      have before := mem_prePreparedSolutions_view journal.state solution
      omega
    · rwa [step.acts.tables.viewChangePi]

private theorem step_covered (accountable : Accountable c w i) (inv : ClusterInvariant c w)
    (step : c.Step w (i, now, a) w') (sound : SoundStep c w (i, now, a)) :
    ∀ v n v' hi digest pi qi, (w' i).commits v n = true →
      .viewChange v' hi digest pi qi ∈ (w' i).sent → v < v' →
        (c.history w').Covers (reportOf hi pi) v n := by
  intro v n v' hi digest pi qi committed said later
  have journal := inv.journal i step.correct
  apply History.Covers.mono step.grows.history
  rcases step.new_viewChange journal said with old | ⟨rfl, rfl, rfl⟩
  · rcases step.new_commits journal committed with old' | ⟨d, data, rfl⟩
    · exact accountable.covered v n v' hi digest pi qi old' old later
    · obtain ⟨current, -⟩ := held_of_sendCommit inv step
      have reached := (accountable.reported v' hi digest pi qi old).1
      omega
  · rcases step.new_commits journal committed with old' | ⟨d, data, acts⟩
    · rcases accountable.covered_of_sendViewChange inv step.correct sound old' with
        settled | ⟨e, listed, number, view⟩ | overtaken
      · exact Or.inl settled
      · exact Or.inr (Or.inl ⟨⟨e.n, e.reqDigest, e.v⟩, mem_reportOf.mpr ⟨e, listed, rfl, rfl, rfl⟩,
          number, view⟩)
      · exact Or.inr (Or.inr overtaken)
    · cases acts

/-- How the present view was entered. -/
private theorem step_entered (accountable : ∀ k, c.Correct k → Accountable c w k)
    (inv : ClusterInvariant c w) (step : c.Step w (i, now, a) w')
    (sound : SoundStep c w (i, now, a)) :
    (w' i).state.activeView = true → 0 < (w' i).state.view → HasEntered c w' i := by
  intro active positive
  have acts := step.acts
  have journal := inv.journal i step.correct
  have view := acts.tables.view
  have grown := acts.lowWatermark_le journal.state.checkpoint
  have grows := step.grows
  rw [acts.tables.activeView] at active
  have kept : (w' i).state.view = (w i).state.view → (w i).state.activeView = true →
      HasEntered c w' i := by
    intro same live
    rw [same] at positive
    rw [HasEntered, same]
    rcases (accountable i step.correct).entered live positive with
      ⟨n, below, committed⟩ | ⟨reports, entered⟩
    · exact Or.inl ⟨n, below.trans grown, committed.mono grows.history⟩
    · exact Or.inr ⟨reports, entered.mono grows.history grown fun _ _ => Node.Logged.mono grows⟩
  cases a with
  | recoverView v =>
    have next : (w' i).state.view = v := view
    have recovered := quorumCommits_of_recoverView inv step.correct acts.pre
    rw [HasEntered, next]
    exact Or.inl ⟨_, grown, recovered.mono grows.history⟩
  | sendViewChange v => cases active
  | processNewView hi nu chi =>
    have next : (w' i).state.view = (w i).state.view := view
    have entered := entered_of_processNewView inv accountable step sound
    rw [HasEntered, next]
    exact Or.inr ⟨_, entered.mono grows.history grown fun _ _ taken => taken⟩
  | _ => exact kept view active

private theorem step_justified (accountable : Accountable c w i) (inv : ClusterInvariant c w)
    (inv' : ClusterInvariant c w') (step : c.Step w (i, now, a) w')
    (entered : (w' i).state.activeView = true → 0 < (w' i).state.view → HasEntered c w' i) :
    ∀ v n d, (w' i).Logged v n d → 0 < v → (c.history w').Justified v n d := by
  intro v n d logged positive
  rcases step.new_logged (inv.journal i step.correct) logged with old | ⟨rfl, above, active⟩
  · exact (accountable.justified v n d old positive).mono step.grows.history
  rcases entered active positive with ⟨n', below, committed⟩ | ⟨reports, entered⟩
  · exact Or.inl ⟨n', by omega, committed⟩
  · refine Or.inr ⟨reports, entered.supports above fun d' logged' => ?_⟩
    obtain ⟨m, inside, view, number, rfl⟩ := logged
    obtain ⟨m', inside', view', number', rfl⟩ := logged'
    exact (inv'.journal i step.correct).oneDigest m' inside' m inside (view'.trans view.symm)
      (number'.trans number.symm)

theorem step_self (accountable : ∀ k, c.Correct k → Accountable c w k)
    (inv : ClusterInvariant c w) (certifying : Certifying c w' i)
    (step : c.Step w (i, now, a) w') (sound : SoundStep c w (i, now, a)) :
    Accountable c w' i where
  reached := step_reached (accountable i step.correct) inv step
  ordered := step_ordered (accountable i step.correct) inv step
  held := step_held (accountable i step.correct) inv step sound
  reported := step_reported (accountable i step.correct) inv certifying step
  covered := step_covered (accountable i step.correct) inv step sound
  entered := step_entered accountable inv step sound
  justified := step_justified (accountable i step.correct) inv (inv.step step) step
    (step_entered accountable inv step sound)

end Accountable

end Fbft
