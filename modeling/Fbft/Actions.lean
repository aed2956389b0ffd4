import Fbft.Roast

/-! The actions of the engine. `pre` tests are propositions on the state before
the action, `apply` functions return `none` where a goal fails: the transaction
around `apply_ACTION` then leaves the database as it was. -/
namespace Fbft

open Database

/-- `init_notx`, with the view found in the database file, if there is one. -/
def initNotx (cfg : Config) (initialBlockHeight : ℕ) (initialBlockHash : String)
    (initialBlockTimestamp : ℕ) (persistedView : Option ℕ) : Replica :=
  setView cfg (persistedView.getD 0)
    { syntheticTime := none, val := initialBlockHash, lastRep := initialBlockTimestamp,
      checkpoint := [⟨initialBlockHeight, initialBlockHash, initialBlockTimestamp⟩],
      msgLogRequest := [], msgLogPrePrepare := [], msgLogPrepare := [], msgLogCommit := [],
      msgLogCommitViewRecovery := [], msgLogViewChange := [], msgLogNewView := [],
      msgOut := [], viewChangePi := [], viewChangeQi := [], timeout := 0, view := 0,
      activeView := true, lastExec := initialBlockHeight, seqno := initialBlockHeight,
      roast := roastCollectGarbage }

def applyReceiveRequest (reqDigest : String) (reqTimestamp : ℕ) (s : Replica) : Replica :=
  if reqTimestamp ≤ s.lastRep then s
  else { s with msgLogRequest := assertzOnce ⟨reqDigest, reqTimestamp⟩ s.msgLogRequest }

def dueTimestamps (now : ℚ) (replicaId : ℕ) (s : Replica) : List ℕ :=
  (s.msgLogRequest.filter fun r =>
    (¬ ∃ m ∈ s.msgLogPrePrepare, m.reqDigest = r.reqDigest ∧ m.senderId = replicaId) ∧
      (r.reqTimestamp : ℚ) ≤ getSyntheticTime now s).map Request.reqTimestamp

def preSendPrePrepare (cfg : Config) (now : ℚ) (reqDigest : String) (v n replicaId : ℕ)
    (s : Replica) : Prop :=
  s.activeView = true ∧ primary cfg s.view = replicaId ∧ s.seqno + 1 = n ∧ inWv v n s ∧
  (∃ r ∈ s.msgLogRequest, r.reqDigest = reqDigest ∧
    (dueTimestamps now replicaId s).min? = some r.reqTimestamp) ∧
  ¬ ∃ m ∈ s.msgLogPrePrepare, m.v = v ∧ m.n ≠ n ∧ m.reqDigest = reqDigest ∧
    m.senderId = replicaId

instance : Decidable (preSendPrePrepare cfg now d v n i s) :=
  inferInstanceAs (Decidable (_ ∧ _))

def msgLogAddPrePrepare (m : PrePrepare) (s : Replica) : Replica :=
  { s with msgLogPrePrepare := assertzOnceBy PrePrepare.unifies m s.msgLogPrePrepare }

def applySendPrePrepare (reqDigest data : String) (v n replicaId : ℕ) (s : Replica) : Replica :=
  msgLogAddPrePrepare ⟨v, n, reqDigest, some data, replicaId, sigOwnReplica⟩
    (msgOutAdd (.prePrepare v n reqDigest data) { s with seqno := n })

def applyReceivePrePrepare (cfg : Config) (v n : ℕ) (reqDigest data : String) (senderId : ℕ)
    (senderSig : String) (replicaId : ℕ) (s : Replica) : Option Replica :=
  if senderId ≠ replicaId ∧ primary cfg s.view = senderId ∧ inWv v n s ∧ s.activeView = true ∧
      ((¬ ∃ m ∈ s.msgLogPrePrepare, m.v = v ∧ m.n = n ∧ m.senderId = senderId) ∨
        ∃ m ∈ s.msgLogPrePrepare,
          m.v = v ∧ m.n = n ∧ m.reqDigest = reqDigest ∧ m.senderId = senderId) then
    some (msgLogAddPrePrepare ⟨v, n, reqDigest, some data, senderId, senderSig⟩ s)
  else none

def preSendPrepare (cfg : Config) (reqDigest : String) (v n replicaId : ℕ) (s : Replica) : Prop :=
  primary cfg s.view ≠ replicaId ∧ inWv v n s ∧ prePrepared cfg reqDigest v n s ∧
  ¬ ∃ m ∈ preparesFor reqDigest v n s, m.senderId = replicaId

instance : Decidable (preSendPrepare cfg d v n i s) := inferInstanceAs (Decidable (_ ∧ _))

def msgLogAddPrepare (m : Prepare) (s : Replica) : Replica :=
  { s with msgLogPrepare := assertzOnce m s.msgLogPrepare }

def applySendPrepare (reqDigest : String) (v n replicaId : ℕ) (s : Replica) : Replica :=
  msgLogAddPrepare ⟨v, n, reqDigest, replicaId, sigOwnReplica⟩
    (msgOutAdd (.prepare v n reqDigest) s)

def applyReceivePrepare (cfg : Config) (v n : ℕ) (reqDigest : String) (senderId : ℕ)
    (senderSig : String) (replicaId : ℕ) (s : Replica) : Option Replica :=
  if senderId ≠ replicaId ∧ primary cfg s.view ≠ senderId ∧ inWv v n s then
    some (msgLogAddPrepare ⟨v, n, reqDigest, senderId, senderSig⟩ s)
  else none

def preSendCommit (cfg : Config) (reqDigest : String) (v n replicaId : ℕ) (s : Replica) : Prop :=
  inWv v n s ∧ prepared cfg reqDigest v n s ∧
  ¬ ∃ m ∈ commitsFor v n s, m.senderId = replicaId

instance : Decidable (preSendCommit cfg d v n i s) := inferInstanceAs (Decidable (_ ∧ _))

def msgLogAddCommit (m : Commit) (s : Replica) : Replica :=
  { s with msgLogCommit := assertzOnce m s.msgLogCommit }

def applySendCommit (v n : ℕ) (data : String) (replicaId : ℕ) (s : Replica) : Replica :=
  msgLogAddCommit ⟨v, n, data, replicaId, sigOwnReplica⟩ (msgOutAdd (.commit v n data) s)

def msgLogAddCommitViewRecovery (m : CommitViewRecovery) (s : Replica) : Replica :=
  { s with msgLogCommitViewRecovery := assertzOnce m s.msgLogCommitViewRecovery }

/-- A COMMIT that arrives while this replica coordinates ROAST for it also counts as
an answer to the coordinator. -/
def commitFeedsRoast (cfg : Config) (v n replicaId : ℕ) (r : Roast) : Prop :=
  (∃ a ∈ r.active, a.v = v ∧ a.n = n) ∧ primary cfg v = replicaId ∧
  ¬ roastFinalSignatureSession cfg r

instance : Decidable (commitFeedsRoast cfg v n i r) :=
  haveI : Decidable (∃ a ∈ r.active, a.v = v ∧ a.n = n) := by
    cases r.active <;> simp only [Option.mem_def] <;> infer_instance
  inferInstanceAs (Decidable (_ ∧ _))

def applyReceiveCommit (cfg : Config) (v n : ℕ) (data : String) (senderId : ℕ)
    (senderSig : String) (replicaId : ℕ) (s : Replica) : Option Replica :=
  if senderId = replicaId then none
  else if inWv v n s then
    let s := msgLogAddCommit ⟨v, n, data, senderId, senderSig⟩ s
    if commitFeedsRoast cfg v n replicaId s.roast then
      (applyReceiveSigShare cfg senderId none data replicaId s.roast).map fun r =>
        { s with roast := r }
    else some s
  else if s.view < v then
    some (msgLogAddCommitViewRecovery ⟨v, n, senderId⟩ s)
  else none

/-- The higher views that a quorum of COMMITs at a checkpoint height speaks for. -/
def recoverableViews (cfg : Config) (s : Replica) : List ℕ :=
  s.checkpoint.flatMap fun c =>
    (s.msgLogCommitViewRecovery.filter fun m =>
      m.n = c.n ∧ s.view < m.v ∧
      quorum cfg ≤ (s.msgLogCommitViewRecovery.filter fun m' => m'.v = m.v ∧ m'.n = c.n).length).map
        CommitViewRecovery.v

def preRecoverView (cfg : Config) (v : ℕ) (s : Replica) : Prop :=
  s.activeView = true ∧ (recoverableViews cfg s).max? = some v

instance : Decidable (preRecoverView cfg v s) := inferInstanceAs (Decidable (_ ∧ _))

/-- Neither Pi and Qi nor the ROAST state are touched. -/
def applyRecoverView (cfg : Config) (v : ℕ) (s : Replica) : Replica :=
  msgLogClearWhereViewLessThan v (setView cfg v s)

def preExecute (cfg : Config) (reqDigest : String) (v n replicaId : ℕ) (s : Replica) : Prop :=
  s.lastExec + 1 = n ∧ committed cfg reqDigest v n s ∧ primary cfg v = replicaId ∧
  roastFinalSignatureSession cfg s.roast

instance : Decidable (preExecute cfg d v n i s) := inferInstanceAs (Decidable (_ ∧ _))

def applyExecute (reqDigest : String) (n : ℕ) (stateVal : String) (s : Replica) : Replica :=
  match s.msgLogRequest.find? fun r => r.reqDigest = reqDigest ∧ s.lastRep < r.reqTimestamp with
  | some r => { s with lastExec := n, lastRep := r.reqTimestamp, val := stateVal }
  | none => s

/-- Pi and Qi facts are removed at height `n` only: the goals meant for the lower
heights name `view_change_Pi/5` and `view_change_Qi/6`, which do not exist. -/
def collectGarbage (n : ℕ) (s : Replica) : Replica :=
  { s with
    checkpoint := s.checkpoint.filter fun c => ¬ c.n < n
    msgLogPrePrepare := s.msgLogPrePrepare.filter fun m => n < m.n
    msgLogPrepare := s.msgLogPrepare.filter fun m => n < m.n
    msgLogCommit := s.msgLogCommit.filter fun m => n < m.n
    viewChangePi := s.viewChangePi.filter fun e => e.n ≠ n
    viewChangeQi := s.viewChangeQi.filter fun e => e.n ≠ n
    msgLogRequest := s.msgLogRequest.filter fun r => ¬ r.reqTimestamp ≤ s.lastRep
    roast := roastCollectGarbage }

def addCheckpoint (c : Checkpoint) (s : Replica) : Replica :=
  { s with checkpoint := assertzOnce c s.checkpoint }

def applyReceiveBlock (blockHeight blockTimestamp : ℕ) (blockHash : String) (s : Replica) :
    Option Replica :=
  (s.msgLogRequest.find? fun r => r.reqTimestamp = blockTimestamp).map fun r =>
    collectGarbage blockHeight
      (addCheckpoint ⟨blockHeight, blockHash, blockTimestamp⟩
        (applyExecute r.reqDigest blockHeight blockHash s))

def preSendViewChange (now : ℚ) (v : ℕ) (s : Replica) : Prop :=
  v = s.view + 1 ∧ ∃ r ∈ s.msgLogRequest, s.lastRep < r.reqTimestamp ∧
    s.timeout < getSyntheticTime now s - r.reqTimestamp

instance : Decidable (preSendViewChange now v s) := inferInstanceAs (Decidable (_ ∧ _))

def msgLogAddViewChange (m : ViewChange) (s : Replica) : Replica :=
  { s with msgLogViewChange := assertzOnce m s.msgLogViewChange }

/-- The state in which `apply_SEND_VIEW_CHANGE` reads Pi and Qi. -/
def enterViewChange (cfg : Config) (v : ℕ) (s : Replica) : Replica :=
  let s := setView cfg v s
  let s := { s with activeView := false, roast := setRoastActive none s.roast }
  updateViewChangeQi cfg (updateViewChangePi cfg s)

def applySendViewChange (cfg : Config) (v replicaId : ℕ) (s : Replica) : Option Replica :=
  let s := enterViewChange cfg v s
  let pi := s.viewChangePi
  let qi := s.viewChangeQi
  (getH s).bind fun hi =>
    (s.checkpoint.find? fun c => c.n = hi).map fun c =>
      let vcDigest := cfg.digestViewChange v hi c.stateVal pi qi replicaId
      msgLogClearWhereViewLessThan v
        (msgLogAddViewChange ⟨vcDigest, v, hi, c.stateVal, pi, qi, replicaId, sigOwnReplica⟩
          (msgOutAdd (.viewChange v hi c.stateVal pi qi) s))

def applyReceiveViewChange (cfg : Config) (v hi : ℕ) (c : String) (pi : List PiEntry)
    (qi : List QiEntry) (senderId : ℕ) (senderSig : String) (replicaId : ℕ) (s : Replica) :
    Option Replica :=
  if senderId ≠ replicaId ∧ s.view ≤ v ∧ correctViewChange v hi pi qi ∧
      ¬ ∃ m ∈ s.msgLogViewChange, m.v = v ∧ m.senderId = senderId then
    some (msgLogAddViewChange
      ⟨cfg.digestViewChange v hi c pi qi senderId, v, hi, c, pi, qi, senderId, senderSig⟩ s)
  else none

def preSendNewView (cfg : Config) (nu : List NuEntry) (chi : List ChiEntry) (replicaId : ℕ)
    (s : Replica) : Prop :=
  primary cfg s.view = replicaId ∧ correctNuOnce cfg replicaId s = some nu ∧
  correctChi cfg nu s = some chi ∧ ¬ ∃ m ∈ s.msgLogNewView, m.v = s.view

instance : Decidable (preSendNewView cfg nu chi i s) := inferInstanceAs (Decidable (_ ∧ _))

def msgLogAddNewView (m : NewView) (s : Replica) : Replica :=
  { s with msgLogNewView := assertzOnceBy NewView.unifies m s.msgLogNewView }

def applySendNewView (nu : List NuEntry) (chi : List ChiEntry) (s : Replica) : Replica :=
  msgOutAdd (.newView s.view nu chi) (msgLogAddNewView ⟨s.view, nu, chi, sigOwnReplica⟩ s)

def applyReceiveNewView (cfg : Config) (v : ℕ) (nu : List NuEntry) (chi : List ChiEntry)
    (senderId : ℕ) (senderSig : String) (replicaId : ℕ) (s : Replica) : Option Replica :=
  if senderId ≠ replicaId ∧ 0 < v ∧ v ≤ s.view ∧ senderId = primary cfg v then
    if ∃ m ∈ s.msgLogNewView, m.v = s.view ∧ m.nu = nu ∧ (unifyChi m.chi chi).isSome then some s
    else some (msgLogAddNewView ⟨v, nu, chi, senderSig⟩ s)
  else none

/-- The VIEW_CHANGEs of Nu that speak for the checkpoint height of this replica:
`Hi` is already bound when the messages are collected. -/
def viewChangesAt (hi : ℕ) (nu : List NuEntry) (s : Replica) : List ViewChange :=
  (nuVset nu s).filter fun m => m.hi = hi

def preProcessNewView (cfg : Config) (hi : ℕ) (nu : List NuEntry) (chi : List ChiEntry)
    (replicaId : ℕ) (s : Replica) : Prop :=
  s.activeView = false ∧ (nu, chi) ∈ correctNewView cfg replicaId s ∧ getH s = some hi ∧
  viewChangesAt hi nu s ≠ [] ∧
  (∀ m ∈ viewChangesAt hi nu s, ∃ c ∈ s.checkpoint, c.stateVal = m.c) ∧
  ((chi.map ChiEntry.n).min? = some (hi + 1) ∨ chi = []) ∧
  ∀ e ∈ chi, e.reqDigest = nullDigest ∨ ∃ r ∈ s.msgLogRequest, r.reqDigest = e.reqDigest

instance : Decidable (preProcessNewView cfg hi nu chi i s) := inferInstanceAs (Decidable (_ ∧ _))

/-- Chi populates the pre-prepare log as if the primary had sent its entries. -/
def prePreparesOfChi (cfg : Config) (v : ℕ) (chi : List ChiEntry) : List PrePrepare :=
  chi.map fun e => ⟨v, e.n, e.reqDigest, e.data, primary cfg v, sigInNewView⟩

def applyProcessNewView (cfg : Config) (hi : ℕ) (chi : List ChiEntry) (replicaId : ℕ)
    (s : Replica) : Replica :=
  let v := s.view
  let s := (prePreparesOfChi cfg v chi).foldl (fun s m => msgLogAddPrePrepare m s)
    { s with activeView := true }
  let seqNumbers := (s.msgLogPrePrepare.filter fun m => m.v = v).map PrePrepare.n
  let s := { s with seqno := seqNumbers.max?.getD hi }
  if primary cfg v = replicaId then s
  else chi.foldl (fun s e => applySendPrepare e.reqDigest v e.n replicaId s) s

def preRoastInit (cfg : Config) (reqDigest : String) (v n : ℕ) (s : Replica) : Prop :=
  s.lastExec + 1 = n ∧ committed cfg reqDigest v n s ∧ s.roast.active = none ∧
  ¬ roastFinalSignatureSession cfg s.roast

instance : Decidable (preRoastInit cfg d v n s) := inferInstanceAs (Decidable (_ ∧ _))

def updateRoast (f : Roast → Option Roast) (s : Replica) : Option Replica :=
  (f s.roast).map fun r => { s with roast := r }

inductive Action where
  | setSyntheticTime (t : Option ℚ)
  | msgOutClearAll
  | receiveRequest (reqDigest : String) (reqTimestamp : ℕ)
  | sendPrePrepare (reqDigest data : String) (v n : ℕ)
  | receivePrePrepare (v n : ℕ) (reqDigest data : String) (senderId : ℕ) (senderSig : String)
  | sendPrepare (reqDigest : String) (v n : ℕ)
  | receivePrepare (v n : ℕ) (reqDigest : String) (senderId : ℕ) (senderSig : String)
  | sendCommit (reqDigest : String) (v n : ℕ) (data : String)
  | receiveCommit (v n : ℕ) (data : String) (senderId : ℕ) (senderSig : String)
  | recoverView (v : ℕ)
  | execute (reqDigest : String) (v n : ℕ) (stateVal : String)
  | receiveBlock (blockHeight blockTimestamp : ℕ) (blockHash : String)
  | sendViewChange (v : ℕ)
  | receiveViewChange (v hi : ℕ) (c : String) (pi : List PiEntry) (qi : List QiEntry)
      (senderId : ℕ) (senderSig : String)
  | sendNewView (nu : List NuEntry) (chi : List ChiEntry)
  | receiveNewView (v : ℕ) (nu : List NuEntry) (chi : List ChiEntry) (senderId : ℕ)
      (senderSig : String)
  | processNewView (hi : ℕ) (nu : List NuEntry) (chi : List ChiEntry)
  | roastInit (reqDigest : String) (v n : ℕ)
  | receivePreSignature (signers : List ℕ) (preSignature : String)
      (signatureShare nextPreSignatureShare : String)
  | receiveSigShare (signerId : ℕ) (signatureShare nextPreSignatureShare : String)
  deriving DecidableEq, Repr

namespace Action

def pre (cfg : Config) (replicaId : ℕ) (now : ℚ) (s : Replica) : Action → Prop
  | sendPrePrepare reqDigest _ v n => preSendPrePrepare cfg now reqDigest v n replicaId s
  | sendPrepare reqDigest v n => preSendPrepare cfg reqDigest v n replicaId s
  | sendCommit reqDigest v n _ => preSendCommit cfg reqDigest v n replicaId s
  | recoverView v => preRecoverView cfg v s
  | execute reqDigest v n _ => preExecute cfg reqDigest v n replicaId s
  | sendViewChange v => preSendViewChange now v s
  | sendNewView nu chi => preSendNewView cfg nu chi replicaId s
  | processNewView hi nu chi => preProcessNewView cfg hi nu chi replicaId s
  | roastInit reqDigest v n => preRoastInit cfg reqDigest v n s
  | _ => True

instance (a : Action) : Decidable (a.pre cfg i now s) := by
  cases a <;> dsimp only [pre] <;> infer_instance

def apply (cfg : Config) (replicaId : ℕ) (s : Replica) : Action → Option Replica
  | setSyntheticTime t => some { s with syntheticTime := t }
  | msgOutClearAll => some { s with msgOut := [], roast := { s.roast with msgOut := [] } }
  | receiveRequest reqDigest reqTimestamp => some (applyReceiveRequest reqDigest reqTimestamp s)
  | sendPrePrepare reqDigest data v n => some (applySendPrePrepare reqDigest data v n replicaId s)
  | receivePrePrepare v n reqDigest data senderId senderSig =>
    applyReceivePrePrepare cfg v n reqDigest data senderId senderSig replicaId s
  | sendPrepare reqDigest v n => some (applySendPrepare reqDigest v n replicaId s)
  | receivePrepare v n reqDigest senderId senderSig =>
    applyReceivePrepare cfg v n reqDigest senderId senderSig replicaId s
  | sendCommit _ v n data => some (applySendCommit v n data replicaId s)
  | receiveCommit v n data senderId senderSig =>
    applyReceiveCommit cfg v n data senderId senderSig replicaId s
  | recoverView v => some (applyRecoverView cfg v s)
  | execute reqDigest _ n stateVal => some (applyExecute reqDigest n stateVal s)
  | receiveBlock blockHeight blockTimestamp blockHash =>
    applyReceiveBlock blockHeight blockTimestamp blockHash s
  | sendViewChange v => applySendViewChange cfg v replicaId s
  | receiveViewChange v hi c pi qi senderId senderSig =>
    applyReceiveViewChange cfg v hi c pi qi senderId senderSig replicaId s
  | sendNewView nu chi => some (applySendNewView nu chi s)
  | receiveNewView v nu chi senderId senderSig =>
    applyReceiveNewView cfg v nu chi senderId senderSig replicaId s
  | processNewView hi _ chi => some (applyProcessNewView cfg hi chi replicaId s)
  | roastInit reqDigest v n =>
    updateRoast (applyRoastInit cfg ⟨v, n, reqDigest⟩ (commitsFor v n s) replicaId) s
  | receivePreSignature signers preSignature signatureShare nextPreSignatureShare =>
    updateRoast
      (applyReceivePreSignature signers preSignature signatureShare nextPreSignatureShare) s
  | receiveSigShare signerId signatureShare nextPreSignatureShare =>
    updateRoast
      (applyReceiveSigShare cfg signerId (some signatureShare) nextPreSignatureShare replicaId) s

/-- What the callers of the engine promise: a request digest reads `(H=.., T=..)`, the
chain only grows, and no text that comes from the network is an unbound variable. -/
def admissible (s : Replica) : Action → Prop
  | receiveRequest reqDigest _ => reqDigest ≠ nullDigest
  | receiveBlock blockHeight _ _ => ∀ h ∈ getH s, h < blockHeight
  | receiveViewChange _ _ _ _ qi _ _ => ∀ e ∈ qi, e.data ≠ none
  | receiveNewView _ _ chi _ _ => ∀ e ∈ chi, e.data ≠ none
  | _ => True

instance (a : Action) : Decidable (a.admissible s) := by
  cases a <;> dsimp only [admissible] <;> infer_instance

end Action

/-- `PrePrepare::FindByV_N_Req`: the query binds only the replica and the digest, so
the first logged pre-prepare with that digest is returned, or an exception is thrown. -/
def findByVNReq (_v _n : ℕ) (reqDigest : String) (s : Replica) : Option PrePrepare :=
  s.msgLogPrePrepare.find? fun m => m.reqDigest = reqDigest

def blockToSign (s : Replica) : Option Data :=
  s.roast.active.bind fun a => (findByVNReq a.v a.n a.reqDigest s).map PrePrepare.data

end Fbft
