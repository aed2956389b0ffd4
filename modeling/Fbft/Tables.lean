import Fbft.Step

/-! What one step does to each table. The facts an action asserts and the facts it
drops are functions of the action and the state before it. -/
namespace Fbft

open Database LabelledPath

variable {cfg : Config} {i : ℕ} {now : ℚ} {s t : Replica} {a : Action}

namespace Action

/-- Whether an action keeps a fact of view `v` and sequence number `n` in the logs of
the three phases. -/
def keeps (v n : ℕ) : Action → Bool
  | recoverView w => ¬ v < w
  | sendViewChange w => ¬ v < w
  | receiveBlock blockHeight _ _ => blockHeight < n
  | _ => true

def keepsView (v : ℕ) : Action → Bool
  | recoverView w => ¬ v < w
  | sendViewChange w => ¬ v < w
  | _ => true

def newRequests (s : Replica) : Action → List Request
  | receiveRequest reqDigest reqTimestamp =>
    if reqTimestamp ≤ s.lastRep then [] else [⟨reqDigest, reqTimestamp⟩]
  | _ => []

def newPrePrepares (cfg : Config) (i : ℕ) (s : Replica) : Action → List PrePrepare
  | sendPrePrepare reqDigest data v n => [⟨v, n, reqDigest, some data, i, sigOwnReplica⟩]
  | receivePrePrepare v n reqDigest data senderId senderSig =>
    [⟨v, n, reqDigest, some data, senderId, senderSig⟩]
  | processNewView _ _ chi => prePreparesOfChi cfg s.view chi
  | _ => []

def newPrepares (cfg : Config) (i : ℕ) (s : Replica) : Action → List Prepare
  | sendPrepare reqDigest v n => [⟨v, n, reqDigest, i, sigOwnReplica⟩]
  | receivePrepare v n reqDigest senderId senderSig => [⟨v, n, reqDigest, senderId, senderSig⟩]
  | processNewView _ _ chi =>
    if primary cfg s.view = i then [] else ownPrepares s.view i chi
  | _ => []

def newCommits (i : ℕ) (s : Replica) : Action → List Commit
  | sendCommit _ v n data => [⟨v, n, data, i, sigOwnReplica⟩]
  | receiveCommit v n data senderId senderSig =>
    if inWv v n s then [⟨v, n, data, senderId, senderSig⟩] else []
  | _ => []

def newCommitViewRecoveries (s : Replica) : Action → List CommitViewRecovery
  | receiveCommit v n _ senderId _ => if inWv v n s then [] else [⟨v, n, senderId⟩]
  | _ => []

def newViewChanges (cfg : Config) (i : ℕ) (s : Replica) : Action → List ViewChange
  | sendViewChange v => (reportedCheckpoint s).toList.map fun c => ownViewChange cfg v i c s
  | receiveViewChange v hi c pi qi senderId senderSig =>
    [⟨cfg.digestViewChange v hi c pi qi senderId, v, hi, c, pi, qi, senderId, senderSig⟩]
  | _ => []

def newNewViews (s : Replica) : Action → List NewView
  | sendNewView nu chi => [⟨s.view, nu, chi, sigOwnReplica⟩]
  | receiveNewView v nu chi _ senderSig => [⟨v, nu, chi, senderSig⟩]
  | _ => []

/-- The protocol messages that an action puts into the output tables. -/
def newMessages (cfg : Config) (i : ℕ) (s : Replica) : Action → List Message
  | sendPrePrepare reqDigest data v n => [.prePrepare v n reqDigest data]
  | sendPrepare reqDigest v n => [.prepare v n reqDigest]
  | sendCommit _ v n data => [.commit v n data]
  | sendViewChange v =>
    (reportedCheckpoint s).toList.map fun c => (ownViewChange cfg v i c s).message
  | sendNewView nu chi => [.newView s.view nu chi]
  | processNewView _ _ chi =>
    if primary cfg s.view = i then [] else chi.map fun e => .prepare s.view e.n e.reqDigest
  | _ => []

/-- A message names the action that puts it out. -/
def PutsOut (cfg : Config) (i : ℕ) (s : Replica) (a : Action) : Message → Prop
  | .prePrepare v n d data => a = .sendPrePrepare d data v n
  | .prepare v n d => a = .sendPrepare d v n ∨ ∃ hi nu chi, a = .processNewView hi nu chi ∧
      v = s.view ∧ ∃ e ∈ chi, e.n = n ∧ e.reqDigest = d
  | .commit v n data => ∃ d, a = .sendCommit d v n data
  | .viewChange v hi digest pi qi => a = .sendViewChange v ∧ ∃ c, reportedCheckpoint s = some c ∧
      (ownViewChange cfg v i c s).message = .viewChange v hi digest pi qi
  | .newView v nu chi => a = .sendNewView nu chi ∧ v = s.view
  | _ => False

theorem putsOut_of_mem {m : Message} (new : m ∈ a.newMessages cfg i s) : a.PutsOut cfg i s m := by
  cases a with
  | sendPrePrepare d data v n | sendPrepare d v n | sendCommit d v n data | sendNewView nu chi =>
    rw [List.mem_singleton.mp new]
    simp [PutsOut]
  | sendViewChange v =>
    obtain ⟨c, reported, rfl⟩ := List.mem_map.mp new
    exact ⟨rfl, c, Option.mem_toList.mp reported, rfl⟩
  | processNewView hi nu chi =>
    simp only [newMessages] at new
    split at new
    · cases new
    · obtain ⟨e, inside, rfl⟩ := List.mem_map.mp new
      exact Or.inr ⟨hi, nu, chi, rfl, rfl, e, inside, rfl, rfl⟩
  | _ => cases new

def nextView (s : Replica) : Action → ℕ
  | recoverView v => v
  | sendViewChange v => v
  | _ => s.view

def nextActiveView (s : Replica) : Action → Bool
  | sendViewChange _ => false
  | processNewView _ _ _ => true
  | _ => s.activeView

def nextCheckpoint (s : Replica) : Action → List Checkpoint
  | receiveBlock blockHeight blockTimestamp blockHash =>
    (assertzOnce ⟨blockHeight, blockHash, blockTimestamp⟩ s.checkpoint).filter
      fun c => ¬ c.n < blockHeight
  | _ => s.checkpoint

def nextViewChangePi (cfg : Config) (s : Replica) : Action → List PiEntry
  | sendViewChange _ => (updateViewChangePi cfg s).viewChangePi
  | receiveBlock blockHeight _ _ => s.viewChangePi.filter fun e => e.n ≠ blockHeight
  | _ => s.viewChangePi

def nextViewChangeQi (cfg : Config) (s : Replica) : Action → List QiEntry
  | sendViewChange _ => (updateViewChangeQi cfg s).viewChangeQi
  | receiveBlock blockHeight _ _ => s.viewChangeQi.filter fun e => e.n ≠ blockHeight
  | _ => s.viewChangeQi

def nextSeqno (cfg : Config) (s : Replica) : Action → ℕ
  | sendPrePrepare _ _ _ n => n
  | processNewView hi _ chi => processedSeqno cfg hi chi s
  | _ => s.seqno

def nextRoast (cfg : Config) (i : ℕ) (s : Replica) : Action → Option Roast
  | msgOutClearAll => some { s.roast with msgOut := [] }
  | receiveCommit v n data senderId _ =>
    if inWv v n s ∧ commitFeedsRoast cfg v n i s.roast then
      applyReceiveSigShare cfg senderId none data i s.roast
    else some s.roast
  | receiveBlock _ _ _ => some roastCollectGarbage
  | sendViewChange _ => some (setRoastActive none s.roast)
  | roastInit reqDigest v n =>
    applyRoastInit cfg ⟨v, n, reqDigest⟩ (commitsFor v n s) i s.roast
  | receivePreSignature signers preSignature signatureShare nextPreSignatureShare =>
    applyReceivePreSignature signers preSignature signatureShare nextPreSignatureShare s.roast
  | receiveSigShare signerId signatureShare nextPreSignatureShare =>
    applyReceiveSigShare cfg signerId (some signatureShare) nextPreSignatureShare i s.roast
  | _ => some s.roast

end Action

/-- Every table after the step, from the tables before it. -/
structure TablesAfter (cfg : Config) (i : ℕ) (s : Replica) (a : Action) (t : Replica) : Prop where
  prePrepare : t.msgLogPrePrepare =
    (assertzAllBy PrePrepare.unifies (a.newPrePrepares cfg i s) s.msgLogPrePrepare).filter
      fun m => a.keeps m.v m.n
  prepare : t.msgLogPrepare =
    (assertzAll (a.newPrepares cfg i s) s.msgLogPrepare).filter fun m => a.keeps m.v m.n
  commit : t.msgLogCommit =
    (assertzAll (a.newCommits i s) s.msgLogCommit).filter fun m => a.keeps m.v m.n
  commitViewRecovery : t.msgLogCommitViewRecovery =
    assertzAll (a.newCommitViewRecoveries s) s.msgLogCommitViewRecovery
  viewChange : t.msgLogViewChange =
    (assertzAll (a.newViewChanges cfg i s) s.msgLogViewChange).filter fun m => a.keepsView m.v
  newView : ∀ m ∈ t.msgLogNewView, m ∈ s.msgLogNewView ∨ m ∈ a.newNewViews s
  keepsNewView : ∀ m ∈ s.msgLogNewView, m ∈ t.msgLogNewView ∨ a.keepsView m.v = false
  request : ∀ r ∈ t.msgLogRequest, r ∈ s.msgLogRequest ∨ r ∈ a.newRequests s
  keepsRequest : ∀ r ∈ s.msgLogRequest,
    r ∈ t.msgLogRequest ∨ ∃ height time blockHash, a = .receiveBlock height time blockHash
  msgOut : ∀ m ∈ t.msgOut, m ∈ s.msgOut ∨ m ∈ a.newMessages cfg i s
  sends : ∀ m ∈ a.newMessages cfg i s, m ∈ t.msgOut
  view : t.view = a.nextView s
  activeView : t.activeView = a.nextActiveView s
  checkpoint : t.checkpoint = a.nextCheckpoint s
  viewChangePi : t.viewChangePi = a.nextViewChangePi cfg s
  viewChangeQi : t.viewChangeQi = a.nextViewChangeQi cfg s
  seqno : t.seqno = a.nextSeqno cfg s
  roast : a.nextRoast cfg i s = some t.roast

section

attribute [local simp] Action.keeps Action.keepsView Action.newRequests Action.newPrePrepares
  Action.newPrepares Action.newCommits Action.newCommitViewRecoveries Action.newViewChanges
  Action.newNewViews Action.newMessages Action.nextView Action.nextActiveView
  Action.nextCheckpoint Action.nextViewChangePi Action.nextViewChangeQi Action.nextSeqno
  Action.nextRoast
  msgLogAddPrePrepare msgLogAddPrepare msgLogAddCommit msgLogAddCommitViewRecovery
  msgLogAddViewChange msgLogAddNewView msgOutAdd setView msgLogClearWhereViewLessThan

theorem Action.tables (h : a.apply cfg i s = some t) : TablesAfter cfg i s a t := by
  cases a with
  | setSyntheticTime _ | msgOutClearAll =>
    cases h
    constructor <;> simp
  | receiveRequest d time =>
    cases h
    unfold applyReceiveRequest
    split <;> constructor <;> simp +contextual [*]
  | sendPrePrepare d data v n =>
    cases h
    constructor <;> simp [applySendPrePrepare]
  | receivePrePrepare v n d data j sig =>
    obtain ⟨-, -, -, -, -, rfl⟩ := applyReceivePrePrepare_spec h
    constructor <;> simp
  | sendPrepare d v n =>
    cases h
    constructor <;> simp [applySendPrepare]
  | receivePrepare v n d j sig =>
    obtain ⟨-, -, -, rfl⟩ := applyReceivePrepare_spec h
    constructor <;> simp
  | sendCommit d v n data =>
    cases h
    constructor <;> simp [applySendCommit]
  | receiveCommit v n data j sig =>
    obtain ⟨-, ⟨window, r, ⟨feeds, rfl⟩ | ⟨feeds, shared⟩, rfl⟩ | ⟨window, -, rfl⟩⟩ :=
      applyReceiveCommit_spec h
    all_goals constructor <;> simp [*]
  | recoverView v =>
    cases h
    constructor <;> simp +contextual [applyRecoverView, le_or_gt]
  | execute d v n val =>
    cases h
    obtain ⟨lastExec, lastRep, val', same, -, -⟩ := applyExecute_eq d n val s
    rw [same]
    constructor <;> simp
  | receiveBlock height time blockHash =>
    obtain ⟨r, -, -, rfl⟩ := applyReceiveBlock_spec h
    obtain ⟨lastExec, lastRep, val', same, -, -⟩ := applyExecute_eq r.reqDigest height blockHash s
    rw [same]
    constructor <;> simp +contextual [collectGarbage, addCheckpoint]
  | sendViewChange v =>
    obtain ⟨c, reported, rfl⟩ := applySendViewChange_spec h
    constructor <;> simp +contextual [reported, enterViewChange_eq, le_or_gt]
  | receiveViewChange v hi c pi qi j sig =>
    obtain ⟨-, -, -, -, rfl⟩ := applyReceiveViewChange_spec h
    constructor <;> simp
  | sendNewView nu chi =>
    cases h
    constructor <;> simp [applySendNewView]
    · exact fun m member => mem_of_mem_assertzOnceBy member
    · exact fun m member => mem_assertzOnceBy_of_mem member
  | receiveNewView v nu chi j sig =>
    obtain ⟨-, -, -, -, rfl | rfl⟩ := applyReceiveNewView_spec h
    all_goals constructor <;> simp +contextual
    · exact fun m member => mem_of_mem_assertzOnceBy member
    · exact fun m member => mem_assertzOnceBy_of_mem member
  | processNewView hi nu chi =>
    cases h
    rw [applyProcessNewView_eq]
    constructor <;> simp [populatedPrePrepares]
    intro m backup e inside same
    exact Or.inr ⟨backup, e, inside, same⟩
  | roastInit _ _ _ | receivePreSignature _ _ _ _ | receiveSigShare _ _ _ =>
    obtain ⟨r, shared, rfl⟩ := updateRoast_spec h
    constructor <;> simp [shared]

theorem Step.tables (step : Step cfg i s (now, a) t) : TablesAfter cfg i s a t :=
  Action.tables step.apply

end

end Fbft
