import Fbft.Database
import Mathlib.Data.Rat.Defs

/-! The data model of one replica engine: one field for each dynamic predicate of
the Prolog engine. A table is the list of its facts in assertion order, without
the leading `Replica_id`, which is the same in every fact of one replica. -/
namespace Fbft

/-- Associated data is a string; `none` stands for the unbound variable that
`correct_chi` leaves in a null entry. -/
abbrev Data := Option String

/-- `[N, Req_digest, V]`, an element of Pi. -/
structure PiEntry where
  n : ℕ
  reqDigest : String
  v : ℕ
  deriving DecidableEq, Repr

/-- `[N, Req_digest, Associated_pre_prepare_data, V]`, an element of Qi. -/
structure QiEntry where
  n : ℕ
  reqDigest : String
  data : Data
  v : ℕ
  deriving DecidableEq, Repr

/-- `[N, Req_digest, Associated_pre_prepare_data]`, an element of Chi. -/
structure ChiEntry where
  n : ℕ
  reqDigest : String
  data : Data
  deriving DecidableEq, Repr

/-- `[J, D]`, an element of Nu: a sender and the digest of its VIEW_CHANGE. -/
structure NuEntry where
  j : ℕ
  d : String
  deriving DecidableEq, Repr

structure Checkpoint where
  n : ℕ
  stateVal : String
  lastRepT : ℕ
  deriving DecidableEq, Repr

structure Request where
  reqDigest : String
  reqTimestamp : ℕ
  deriving DecidableEq, Repr

structure PrePrepare where
  v : ℕ
  n : ℕ
  reqDigest : String
  data : Data
  senderId : ℕ
  senderSig : String
  deriving DecidableEq, Repr

structure Prepare where
  v : ℕ
  n : ℕ
  reqDigest : String
  senderId : ℕ
  senderSig : String
  deriving DecidableEq, Repr

structure Commit where
  v : ℕ
  n : ℕ
  data : String
  senderId : ℕ
  senderSig : String
  deriving DecidableEq, Repr

structure CommitViewRecovery where
  v : ℕ
  n : ℕ
  senderId : ℕ
  deriving DecidableEq, Repr

structure ViewChange where
  vcDigest : String
  v : ℕ
  hi : ℕ
  c : String
  pi : List PiEntry
  qi : List QiEntry
  senderId : ℕ
  senderSig : String
  deriving DecidableEq, Repr

structure NewView where
  v : ℕ
  nu : List NuEntry
  chi : List ChiEntry
  senderSig : String
  deriving DecidableEq, Repr

/-- The content of a network message; the sender and its signature travel beside it. -/
inductive Message where
  | prePrepare (v n : ℕ) (reqDigest : String) (data : String)
  | prepare (v n : ℕ) (reqDigest : String)
  | commit (v n : ℕ) (data : String)
  | viewChange (v hi : ℕ) (c : String) (pi : List PiEntry) (qi : List QiEntry)
  | newView (v : ℕ) (nu : List NuEntry) (chi : List ChiEntry)
  | roastPreSignature (signers : List ℕ) (preSignature : String)
  | roastSignatureShare (signatureShare nextPreSignatureShare : String)
  deriving DecidableEq, Repr

/-- A share is `none` for the placeholder `false` that a COMMIT passes. -/
structure SignatureSession where
  sessionId : ℕ
  signers : List ℕ
  preSignature : String
  signatureShares : List (Option String)
  deriving DecidableEq, Repr

/-- `roast_active(V, N, Req_digest)`. -/
structure RoastActive where
  v : ℕ
  n : ℕ
  reqDigest : String
  deriving DecidableEq, Repr

/-- The ROAST tables. `msgOut` holds the two ROAST output tables. -/
structure Roast where
  active : Option RoastActive
  responsiveSigner : List ℕ
  maliciousSigner : List ℕ
  latestPreSignatureShare : List (ℕ × String)
  sessionCounter : Option ℕ
  signersSid : List (ℕ × ℕ)
  signatureSession : List SignatureSession
  msgOut : List Message
  deriving DecidableEq, Repr

/-- `syntheticTime` is `none` for `false`: the system clock is used instead.
`msgOut` holds the five output tables of the agreement protocol. -/
structure Replica where
  syntheticTime : Option ℚ
  val : String
  lastRep : ℕ
  checkpoint : List Checkpoint
  msgLogRequest : List Request
  msgLogPrePrepare : List PrePrepare
  msgLogPrepare : List Prepare
  msgLogCommit : List Commit
  msgLogCommitViewRecovery : List CommitViewRecovery
  msgLogViewChange : List ViewChange
  msgLogNewView : List NewView
  msgOut : List Message
  viewChangePi : List PiEntry
  viewChangeQi : List QiEntry
  timeout : ℚ
  view : ℕ
  activeView : Bool
  lastExec : ℕ
  seqno : ℕ
  roast : Roast
  deriving DecidableEq, Repr

/-- The values all replicas share. `digestViewChange` stands for the hash of the
JSON text of a VIEW_CHANGE; nothing is assumed of it here. -/
structure Config where
  clusterSize : ℕ
  clusterSize_pos : 0 < clusterSize
  targetBlockTime : ℕ
  digestViewChange : ℕ → ℕ → String → List PiEntry → List QiEntry → ℕ → String

/-- `nb_setval(request_buffer_len, 1)`. -/
def requestBufferLen : ℕ := 1

def sigOwnReplica : String := "SIG_OWN_REPLICA"
def sigInNewView : String := "SIG_IN_NEW_VIEW"

/-- The request digest of a Chi entry for which Nu holds no certificate. -/
def nullDigest : String := "null"

namespace Data

/-- Two terms unify when one is a variable or they are equal. -/
def unifies (a b : Data) : Bool :=
  match a, b with
  | some x, some y => decide (x = y)
  | _, _ => true

def unify (a b : Data) : Option Data :=
  match a, b with
  | none, b => some b
  | some x, none => some (some x)
  | some x, some y => if x = y then some (some x) else none

end Data

def ChiEntry.unify (a b : ChiEntry) : Option ChiEntry :=
  if a.n = b.n ∧ a.reqDigest = b.reqDigest then
    (Data.unify a.data b.data).map (fun data => ⟨a.n, a.reqDigest, data⟩)
  else none

/-- Unification of two lists of Chi entries, entry by entry. -/
def unifyChi : List ChiEntry → List ChiEntry → Option (List ChiEntry)
  | [], [] => some []
  | a :: as, b :: bs =>
    match a.unify b, unifyChi as bs with
    | some c, some cs => some (c :: cs)
    | _, _ => none
  | _, _ => none

def PrePrepare.unifies (a b : PrePrepare) : Bool :=
  decide (a.v = b.v ∧ a.n = b.n ∧ a.reqDigest = b.reqDigest ∧
    a.senderId = b.senderId ∧ a.senderSig = b.senderSig) && Data.unifies a.data b.data

def NewView.unifies (a b : NewView) : Bool :=
  decide (a.v = b.v ∧ a.nu = b.nu ∧ a.senderSig = b.senderSig) && (unifyChi a.chi b.chi).isSome

end Fbft
