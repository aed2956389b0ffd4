import Fbft.Invariant
import Mathlib.Data.Finset.Card
import Mathlib.Data.Finset.Dedup

/-! When the certificate tests, which count logged facts, count replicas. A fact of
the log carries the signature and, for a COMMIT, the pre-signature share, so a sender
who varies them is counted again. -/
namespace Fbft

open Database LabelledPath

variable {cfg : Config} {i : ℕ} {now : ℚ} {s t : Replica} {a : Action}

def prepareSenders (d : String) (v n : ℕ) (s : Replica) : Finset ℕ :=
  ((preparesFor d v n s).map Prepare.senderId).toFinset

def commitSenders (v n : ℕ) (s : Replica) : Finset ℕ :=
  ((commitsFor v n s).map Commit.senderId).toFinset

structure CountsReplicas (cfg : Config) (s : Replica) : Prop where
  prepared : ∀ d v n, LoggedPrepared cfg s ⟨n, d, v⟩ →
    2 * maxFaulty cfg ≤ ((prepareSenders d v n s).erase (primary cfg v)).card
  committed : ∀ d v n, LoggedPrepared cfg s ⟨n, d, v⟩ → committed cfg d v n s →
    2 * maxFaulty cfg + 1 ≤ (commitSenders v n s).card

/-- A sender whose PREPARE is logged repeats it under the same signature or not at all. -/
def RepeatsPrepare (s : Replica) (l : ℚ × Action) : Prop :=
  match l.2 with
  | .receivePrepare v n d j sig => ∀ m ∈ preparesFor d v n s, m.senderId = j → m.senderSig = sig
  | _ => True

/-- A sender whose COMMIT is logged repeats it unchanged or not at all. -/
def RepeatsCommit (s : Replica) (l : ℚ × Action) : Prop :=
  match l.2 with
  | .receiveCommit v n data j sig =>
    ∀ m ∈ commitsFor v n s, m.senderId = j → m.data = data ∧ m.senderSig = sig
  | _ => True

def RepeatsUnchanged (s : Replica) (l : ℚ × Action) : Prop :=
  RepeatsPrepare s l ∧ RepeatsCommit s l

instance : Decidable (RepeatsPrepare s l) := by
  obtain ⟨now, a⟩ := l
  apply a.casesOn (motive := fun a => Decidable (RepeatsPrepare s (now, a))) <;> intros <;>
    dsimp only [RepeatsPrepare] <;> infer_instance

instance : Decidable (RepeatsCommit s l) := by
  obtain ⟨now, a⟩ := l
  apply a.casesOn (motive := fun a => Decidable (RepeatsCommit s (now, a))) <;> intros <;>
    dsimp only [RepeatsCommit] <;> infer_instance

instance : Decidable (RepeatsUnchanged s l) := inferInstanceAs (Decidable (_ ∧ _))

def OnePrepare (s : Replica) : Prop :=
  ∀ m ∈ s.msgLogPrepare, ∀ m' ∈ s.msgLogPrepare, m.v = m'.v → m.n = m'.n →
    m.reqDigest = m'.reqDigest → m.senderId = m'.senderId → m = m'

def OneCommit (s : Replica) : Prop :=
  ∀ m ∈ s.msgLogCommit, ∀ m' ∈ s.msgLogCommit, m.v = m'.v → m.n = m'.n →
    m.senderId = m'.senderId → m = m'

structure OneFactPerSender (s : Replica) : Prop where
  prepareNodup : s.msgLogPrepare.Nodup
  commitNodup : s.msgLogCommit.Nodup
  prepare : OnePrepare s
  commit : OneCommit s

theorem mem_preparesFor {m : Prepare} : m ∈ preparesFor d v n s ↔
    m ∈ s.msgLogPrepare ∧ m.v = v ∧ m.n = n ∧ m.reqDigest = d := by
  simp [preparesFor]

theorem mem_commitsFor {m : Commit} : m ∈ commitsFor v n s ↔
    m ∈ s.msgLogCommit ∧ m.v = v ∧ m.n = n := by
  simp [commitsFor]

theorem quorum_pos (cfg : Config) : 0 < quorum cfg := by simp [quorum]

/-- COMMITs are logged for the current view only, so a commit certificate rests on the log
and never on Pi. -/
theorem committed_logged (inv : Invariant cfg i s) (certificate : committed cfg d v n s) :
    v = s.view ∧ n = lowWatermark s + 1 ∧ LoggedPrepared cfg s ⟨n, d, v⟩ := by
  obtain ⟨prepared, commits⟩ := committed_iff.mp certificate
  have positive := quorum_pos cfg
  obtain ⟨m, inside⟩ := List.exists_mem_of_length_pos (positive.trans_le commits)
  obtain ⟨logged, rfl, rfl⟩ := mem_commitsFor.mp inside
  obtain ⟨view, number⟩ := inv.commit m logged
  exact ⟨view, number, prepared_current inv prepared view⟩

theorem mem_prepareSenders : j ∈ prepareSenders d v n s ↔
    ∃ m ∈ s.msgLogPrepare, m.v = v ∧ m.n = n ∧ m.reqDigest = d ∧ m.senderId = j := by
  simp [prepareSenders, mem_preparesFor, and_assoc]

theorem mem_commitSenders : j ∈ commitSenders v n s ↔
    ∃ m ∈ s.msgLogCommit, m.v = v ∧ m.n = n ∧ m.senderId = j := by
  simp [commitSenders, mem_commitsFor, and_assoc]

theorem Action.newCommits_unique (new : m ∈ a.newCommits i s) (new' : m' ∈ a.newCommits i s) :
    m = m' := by
  cases a with
  | sendCommit d v n data => rw [List.mem_singleton.mp new, List.mem_singleton.mp new']
  | receiveCommit v n data j sig =>
    simp only [Action.newCommits] at new new'
    split at new
    · rename_i window
      rw [if_pos window] at new'
      rw [List.mem_singleton.mp new, List.mem_singleton.mp new']
    · cases new
  | _ => cases new

theorem prepareSenders_nodup (nodup : s.msgLogPrepare.Nodup) (one : OnePrepare s) (d : String)
    (v n : ℕ) : ((preparesFor d v n s).map Prepare.senderId).Nodup := by
  have nodup' : (preparesFor d v n s).Nodup := nodup.filter _
  apply nodup'.map_on
  intro m inside m' inside' same
  obtain ⟨logged, view, number, digest⟩ := mem_preparesFor.mp inside
  obtain ⟨logged', view', number', digest'⟩ := mem_preparesFor.mp inside'
  exact one m logged m' logged' (view.trans view'.symm) (number.trans number'.symm)
    (digest.trans digest'.symm) same

theorem commitSenders_nodup (nodup : s.msgLogCommit.Nodup)
    (one : ∀ m ∈ commitsFor v n s, ∀ m' ∈ commitsFor v n s, m.senderId = m'.senderId → m = m') :
    ((commitsFor v n s).map Commit.senderId).Nodup := by
  have nodup' : (commitsFor v n s).Nodup := nodup.filter _
  exact nodup'.map_on one

theorem card_prepareSenders (nodup : s.msgLogPrepare.Nodup) (one : OnePrepare s) (d : String)
    (v n : ℕ) : (prepareSenders d v n s).card = (preparesFor d v n s).length := by
  rw [prepareSenders, List.toFinset_card_of_nodup (prepareSenders_nodup nodup one d v n),
    List.length_map]

theorem card_commitSenders (nodup : s.msgLogCommit.Nodup) (one : OneCommit s) (v n : ℕ) :
    (commitSenders v n s).card = (commitsFor v n s).length := by
  have senders : ((commitsFor v n s).map Commit.senderId).Nodup := by
    apply commitSenders_nodup nodup
    intro m inside m' inside' same
    obtain ⟨logged, view, number⟩ := mem_commitsFor.mp inside
    obtain ⟨logged', view', number'⟩ := mem_commitsFor.mp inside'
    exact one m logged m' logged' (view.trans view'.symm) (number.trans number'.symm) same
  rw [commitSenders, List.toFinset_card_of_nodup senders, List.length_map]

theorem Step.prepare_nodup (step : Step cfg i s (now, a) t) (nodup : s.msgLogPrepare.Nodup) :
    t.msgLogPrepare.Nodup := by
  rw [step.tables.prepare]
  exact (nodup_assertzAll nodup).filter _

theorem Step.commit_nodup (step : Step cfg i s (now, a) t) (nodup : s.msgLogCommit.Nodup) :
    t.msgLogCommit.Nodup := by
  rw [step.tables.commit]
  exact (nodup_assertzAll nodup).filter _

private theorem new_prepare (inv : Invariant cfg i s) (step : Step cfg i s (now, a) t)
    (repeats : RepeatsPrepare s (now, a)) (new : m ∈ a.newPrepares cfg i s)
    (old : m' ∈ s.msgLogPrepare) (view : m.v = m'.v) (number : m.n = m'.n)
    (digest : m.reqDigest = m'.reqDigest) (sender : m.senderId = m'.senderId) : m = m' := by
  have signature : m.senderSig = m'.senderSig := by
    by_cases own : m.senderId = i
    · have sig := (step.new_prepare inv.checkpoint new).2.2.2.2.1 own
      exact sig.trans (inv.ownPrepare m' old (sender ▸ own)).symm
    · cases a with
      | receivePrepare v n d j sig =>
        simp only [Action.newPrepares, List.mem_singleton] at new
        subst new
        have logged := mem_preparesFor.mpr ⟨old, view.symm, number.symm, digest.symm⟩
        exact (repeats m' logged sender.symm).symm
      | sendPrepare d v n =>
        rw [List.mem_singleton.mp new] at own
        exact absurd rfl own
      | processNewView hi nu chi =>
        simp only [Action.newPrepares] at new
        split at new
        · cases new
        · obtain ⟨e, -, rfl⟩ := List.mem_map.mp new
          exact absurd rfl own
      | _ => cases new
  obtain ⟨v, n, d, j, sig⟩ := m
  obtain ⟨v', n', d', j', sig'⟩ := m'
  simp_all

private theorem new_new_prepare (step : Step cfg i s (now, a) t)
    (new : m ∈ a.newPrepares cfg i s) (new' : m' ∈ a.newPrepares cfg i s)
    (number : m.n = m'.n) : m = m' := by
  cases a with
  | sendPrepare d v n | receivePrepare v n d j sig =>
    rw [List.mem_singleton.mp new, List.mem_singleton.mp new']
  | processNewView hi nu chi =>
    obtain ⟨distinct, -⟩ := preProcessNewView_numbers step.pre
    simp only [Action.newPrepares] at new new'
    split at new
    · cases new
    · rename_i backup
      rw [if_neg backup] at new'
      obtain ⟨e, inside, rfl⟩ := List.mem_map.mp new
      obtain ⟨e', inside', rfl⟩ := List.mem_map.mp new'
      rw [List.inj_on_of_nodup_map distinct inside inside' number]
  | _ => cases new

private theorem new_commit (step : Step cfg i s (now, a) t)
    (repeats : RepeatsCommit s (now, a)) (new : m ∈ a.newCommits i s)
    (old : m' ∈ s.msgLogCommit) (view : m.v = m'.v) (number : m.n = m'.n)
    (sender : m.senderId = m'.senderId) : m = m' := by
  cases a with
  | sendCommit d v n data =>
    simp only [Action.newCommits, List.mem_singleton] at new
    subst new
    have none := step.pre.2.2
    exact absurd ⟨m', mem_commitsFor.mpr ⟨old, view.symm, number.symm⟩, sender.symm⟩ none
  | receiveCommit v n data j sig =>
    simp only [Action.newCommits] at new
    split at new
    · rw [List.mem_singleton] at new
      subst new
      obtain ⟨share, signature⟩ :=
        repeats m' (mem_commitsFor.mpr ⟨old, view.symm, number.symm⟩) sender.symm
      obtain ⟨v', n', data', j', sig'⟩ := m'
      simp_all
    · cases new
  | _ => cases new

theorem OnePrepare.step (one : OnePrepare s) (inv : Invariant cfg i s)
    (step : Step cfg i s (now, a) t) (repeats : RepeatsPrepare s (now, a)) : OnePrepare t := by
  intro m logged m' logged' view number digest sender
  obtain ⟨old | new, -⟩ := step.mem_prepare.mp logged
  · obtain ⟨old' | new', -⟩ := step.mem_prepare.mp logged'
    · exact one m old m' old' view number digest sender
    · exact (new_prepare inv step repeats new' old view.symm number.symm digest.symm
        sender.symm).symm
  · obtain ⟨old' | new', -⟩ := step.mem_prepare.mp logged'
    · exact new_prepare inv step repeats new old' view number digest sender
    · exact new_new_prepare step new new' number

theorem OneCommit.step (one : OneCommit s) (step : Step cfg i s (now, a) t)
    (repeats : RepeatsCommit s (now, a)) : OneCommit t := by
  intro m logged m' logged' view number sender
  obtain ⟨old | new, -⟩ := step.mem_commit.mp logged
  · obtain ⟨old' | new', -⟩ := step.mem_commit.mp logged'
    · exact one m old m' old' view number sender
    · exact (new_commit step repeats new' old view.symm number.symm sender.symm).symm
  · obtain ⟨old' | new', -⟩ := step.mem_commit.mp logged'
    · exact new_commit step repeats new old' view number sender
    · exact Action.newCommits_unique new new'

namespace OneFactPerSender

theorem initial (start : Initial cfg s) : OneFactPerSender s := by
  obtain ⟨height, blockHash, timestamp, view, rfl⟩ := start
  constructor <;> simp [initNotx, setView, OnePrepare, OneCommit]

theorem step (one : OneFactPerSender s) (inv : Invariant cfg i s)
    (step : Step cfg i s (now, a) t) (repeats : RepeatsUnchanged s (now, a)) :
    OneFactPerSender t where
  prepareNodup := step.prepare_nodup one.prepareNodup
  commitNodup := step.commit_nodup one.commitNodup
  prepare := one.prepare.step inv step repeats.1
  commit := one.commit.step step repeats.2

theorem run {labels : List (ℚ × Action)}
    (run : Path (Guarded (Step cfg i) RepeatsUnchanged) s labels t) (start : Initial cfg s) :
    Invariant cfg i t ∧ OneFactPerSender t := by
  apply run.invariant _ ⟨Invariant.initial start, initial start⟩
  rintro u l w ⟨inv, one⟩ ⟨next, repeats⟩
  exact ⟨inv.step next, one.step inv next repeats⟩

/-- No PREPARE of the primary is ever logged, and no sender twice. -/
theorem countsReplicas (one : OneFactPerSender s) (inv : Invariant cfg i s) :
    CountsReplicas cfg s where
  prepared := by
    intro d v n certificate
    have absent : primary cfg v ∉ prepareSenders d v n s := by
      intro inside
      obtain ⟨m, logged, rfl, -, -, sender⟩ := mem_prepareSenders.mp inside
      obtain ⟨view, -, backup, -⟩ := inv.prepare m logged
      exact backup (view ▸ sender)
    have enough := certificate.2
    rw [Finset.erase_eq_of_notMem absent, card_prepareSenders one.prepareNodup one.prepare]
    simp only [quorumPrepare, quorum] at enough
    omega
  committed := by
    intro d v n _ certificate
    rw [card_commitSenders one.commitNodup one.commit]
    exact certificate.2

end OneFactPerSender

/-- The quorums count replicas along every run in which senders repeat themselves
unchanged. -/
theorem countsReplicas_of_repeatsUnchanged {labels : List (ℚ × Action)} (start : Initial cfg s)
    (run : Path (Guarded (Step cfg i) RepeatsUnchanged) s labels t) : CountsReplicas cfg t := by
  obtain ⟨inv, one⟩ := OneFactPerSender.run run start
  exact one.countsReplicas inv

def preparedByTwo : List (ℚ × Action) :=
  [(60, .receiveRequest "(H=1, T=60)" 60),
    (60, .receivePrePrepare 0 1 "(H=1, T=60)" "B60" 0 "S0"),
    (60, .sendPrepare "(H=1, T=60)" 0 1),
    (60, .receivePrepare 0 1 "(H=1, T=60)" 2 "S2")]

theorem countsReplicas_preparedByTwo : ∃ t,
    exec fourReplicas 1 RepeatsUnchanged preparedByTwo genesis = some t ∧
      CountsReplicas fourReplicas t := by
  have runs : (exec fourReplicas 1 RepeatsUnchanged preparedByTwo genesis).isSome := by
    decide +kernel
  obtain ⟨t, ran⟩ := Option.isSome_iff_exists.mp runs
  exact ⟨t, ran, countsReplicas_of_repeatsUnchanged genesis_initial (exec_path ran)⟩

/-- Then the faulty replica 3 commits three times, with three pre-signature shares. -/
def threeCommits : List (ℚ × Action) :=
  preparedByTwo ++
    [(60, .receiveCommit 0 1 "share a" 3 "S3a"), (60, .receiveCommit 0 1 "share b" 3 "S3b"),
      (60, .receiveCommit 0 1 "share c" 3 "S3c")]

theorem threeCommits_not_countsReplicas : ∃ s,
    Reachable (Initial fourReplicas) (Step fourReplicas 1) s ∧ ¬ CountsReplicas fourReplicas s := by
  have ran : ∃ s, exec fourReplicas 1 Always threeCommits genesis = some s ∧
      committed fourReplicas "(H=1, T=60)" 0 1 s ∧ (commitSenders 0 1 s).card = 1 ∧
      prePreparedSolutions fourReplicas s = [⟨1, "(H=1, T=60)", 0⟩] ∧ s.viewChangeQi = [] ∧
      (preparesFor "(H=1, T=60)" 0 1 s).length = 2 := by
    decide +kernel
  obtain ⟨s, ran, certificate, single, listed, noQi, prepares⟩ := ran
  refine ⟨s, exec_reachable genesis_initial ran, fun counts => ?_⟩
  have solution : (⟨1, "(H=1, T=60)", 0⟩ : PiEntry) ∈ prePreparedSolutions fourReplicas s := by
    simp [listed]
  rcases mem_prePreparedSolutions.mp solution with ⟨q, inside, -⟩ | logged
  · simp [noQi] at inside
  · have enough : quorumPrepare fourReplicas ≤ (preparesFor "(H=1, T=60)" 0 1 s).length := by
      rw [prepares]
      decide
    have three := counts.committed _ _ _ ⟨logged, enough⟩ certificate
    rw [single] at three
    exact absurd three (by decide)

end Fbft
