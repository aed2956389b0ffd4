import Fbft.Auxiliary

/-! ROAST, the second half of the engine. All of its state lies in the `Roast`
record, so the coordinator's algorithm is a partial function on that record;
`none` is a goal that fails, which makes the transaction fail. -/
namespace Fbft

open Database

variable {cfg : Config} {r r' : Roast}

def setRoastActive (active : Option RoastActive) (r : Roast) : Roast :=
  { r with active := active }

def roastMarkResponsive (signer : ℕ) (r : Roast) : Roast :=
  { r with responsiveSigner := assertzOnce signer r.responsiveSigner }

def roastClearResponsiveSigners (r : Roast) : Roast := { r with responsiveSigner := [] }

def roastMarkMalicious (signer : ℕ) (r : Roast) : Roast :=
  { r with maliciousSigner := assertzOnce signer r.maliciousSigner }

def setLatestPreSignatureShare (signerId : ℕ) (preSignatureShare : String) (r : Roast) : Roast :=
  { r with
    latestPreSignatureShare := assertzOnce (signerId, preSignatureShare)
      (r.latestPreSignatureShare.filter fun e => e.1 ≠ signerId) }

def setRoastSessionCounter (counter : ℕ) (r : Roast) : Roast :=
  { r with sessionCounter := some counter }

def setRoastSignersSid (signer sessionId : ℕ) (r : Roast) : Roast :=
  { r with
    signersSid := assertzOnce (signer, sessionId)
      (r.signersSid.filter fun e => e.1 ≠ signer) }

def setRoastSignatureSession (session : SignatureSession) (r : Roast) : Roast :=
  { r with
    signatureSession := assertzOnce session
      (r.signatureSession.filter fun e => e.sessionId ≠ session.sessionId) }

/-- The session recorded for a signer, SID[i]. -/
def roastSignersSid (signer : ℕ) (r : Roast) : Option ℕ :=
  (r.signersSid.find? fun e => e.1 = signer).map Prod.snd

def roastSignatureSession (sessionId : ℕ) (r : Roast) : Option SignatureSession :=
  r.signatureSession.find? fun e => e.sessionId = sessionId

def roastFinalSignatureSession (cfg : Config) (r : Roast) : Prop :=
  r.active.isSome ∧ ∃ e ∈ r.signatureSession, e.signatureShares.length = sigQuorum cfg

instance : Decidable (roastFinalSignatureSession cfg r) := inferInstanceAs (Decidable (_ ∧ _))

def roastMsgOutAdd (m : Message) (r : Roast) : Roast :=
  { r with msgOut := assertzOnce m r.msgOut }

/-- The wallet's PreAggr: the shares joined by the delimiter. -/
def roastCryptoPreSigAggregate (preSignatureShares : List String) : String :=
  String.intercalate "+" preSignatureShares

def roastCollectGarbage : Roast :=
  { active := none, responsiveSigner := [], maliciousSigner := [],
    latestPreSignatureShare := [], sessionCounter := none, signersSid := [],
    signatureSession := [], msgOut := [] }

/-- The comment of the source says to mark the signer and break; the code goes on. -/
def markUnsolicited (signerId : ℕ) (r : Roast) : Roast :=
  if signerId ∈ r.responsiveSigner then roastMarkMalicious signerId r else r

/-- When SID[i] is not null the share goes to that session, whatever it is. -/
def storeSignatureShare (signerId : ℕ) (signatureShare : Option String) (r : Roast) :
    Option Roast :=
  match roastSignersSid signerId r with
  | none => some r
  | some sessionId =>
    match roastSignatureSession sessionId r with
    | none => none
    | some session =>
      if r.latestPreSignatureShare.any (fun e => e.1 = signerId) then
        some (setRoastSignatureSession
          { session with signatureShares := session.signatureShares ++ [signatureShare] } r)
      else none

def lookupPreSignatureShares (signers : List ℕ) (r : Roast) : List String :=
  signers.flatMap fun i =>
    (r.latestPreSignatureShare.filter fun e => e.1 = i).map Prod.snd

def assignSignersSid (signers : List ℕ) (sessionId : ℕ) (r : Roast) : Roast :=
  signers.foldl (fun r i => setRoastSignersSid i sessionId r) r

/-- With the threshold of responsive signers, a new session is opened with them. -/
def initiateSession (cfg : Config) (r : Roast) : Option Roast :=
  if r.responsiveSigner.length = sigQuorum cfg then
    r.sessionCounter.map fun oldSidCounter =>
      let sidCounter := oldSidCounter + 1
      let signers := r.responsiveSigner
      let preSignature := roastCryptoPreSigAggregate (lookupPreSignatureShares signers r)
      let r := setRoastSessionCounter sidCounter r
      let r := assignSignersSid signers sidCounter r
      let r := roastMsgOutAdd (.roastPreSignature signers preSignature) r
      roastClearResponsiveSigners
        (setRoastSignatureSession ⟨sidCounter, signers, preSignature, []⟩ r)
  else some r

def applyReceiveSigShare (cfg : Config) (signerId : ℕ) (signatureShare : Option String)
    (nextPreSignatureShare : String) (replicaId : ℕ) (r : Roast) : Option Roast :=
  match r.active with
  | none => none
  | some active =>
    if roastFinalSignatureSession cfg r then none
    else if primary cfg active.v ≠ replicaId then none
    else
      (storeSignatureShare signerId signatureShare (markUnsolicited signerId r)).bind fun r =>
        if roastFinalSignatureSession cfg r then some r
        else initiateSession cfg (roastMarkResponsive signerId
          (setLatestPreSignatureShare signerId nextPreSignatureShare r))

/-- The `foreach` over the logged COMMITs: none of them brings a signature share. -/
def receiveCommitShares (cfg : Config) (replicaId : ℕ) : List Commit → Roast → Option Roast
  | [], r => some r
  | m :: commits, r =>
    (applyReceiveSigShare cfg m.senderId none m.data replicaId r).bind
      (receiveCommitShares cfg replicaId commits)

def applyRoastInit (cfg : Config) (active : RoastActive) (commits : List Commit)
    (replicaId : ℕ) (r : Roast) : Option Roast :=
  if primary cfg active.v = replicaId then
    receiveCommitShares cfg replicaId commits
      (setRoastSessionCounter 0 (setRoastActive (some active) r))
  else some (setRoastActive (some active) r)

def applyReceivePreSignature (_signers : List ℕ) (_preSignature : String)
    (signatureShare nextPreSignatureShare : String) (r : Roast) : Option Roast :=
  if r.active.isSome then
    some (roastMsgOutAdd (.roastSignatureShare signatureShare nextPreSignatureShare) r)
  else none

end Fbft
