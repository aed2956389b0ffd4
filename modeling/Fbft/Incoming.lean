import Fbft.Json
import Fbft.State
import Fbft.Wallet

/-! The messages of the network. Each constructor reads its fields from a JSON value and throws
where an accessor throws or the text of a block cannot be decoded. -/
namespace Fbft

open CppString Throwing

/-- What may end the path of a message. -/
inductive Fault where
  | json (e : Json.AccessError)
  | stackLimit
  | thrown (e : Thrown)
  | badOptionalAccess
  | undefinedBehaviour
  | rpc
  | plException
  deriving DecidableEq, Repr

inductive MsgType where
  | block | commit | newView | prepare | prePrepare | request | roastPreSignature
  | roastSignatureShare | viewChange
  deriving DecidableEq, Repr

def MsgType.number : MsgType → ℕ
  | .block => 0
  | .commit => 1
  | .newView => 2
  | .prepare => 3
  | .prePrepare => 4
  | .request => 5
  | .roastPreSignature => 6
  | .roastSignatureShare => 7
  | .viewChange => 8

def MsgType.ofNumber : ℕ → Option MsgType
  | 0 => some .block
  | 1 => some .commit
  | 2 => some .newView
  | 3 => some .prepare
  | 4 => some .prePrepare
  | 5 => some .request
  | 6 => some .roastPreSignature
  | 7 => some .roastSignatureShare
  | 8 => some .viewChange
  | _ => none

theorem MsgType.ofNumber_eq_some_iff {k : ℕ} {t : MsgType} :
    MsgType.ofNumber k = some t ↔ k = t.number := by
  constructor
  · intro found
    unfold ofNumber at found
    split at found <;> cases found <;> rfl
  · rintro rfl
    cases t <;> rfl

namespace Messages

structure Commit where
  senderId : ℕ
  signature : String
  view : ℕ
  seqNumber : ℕ
  preSignature : String
  deriving DecidableEq, Repr

structure Prepare where
  senderId : ℕ
  signature : String
  view : ℕ
  seqNumber : ℕ
  reqDigest : String
  deriving DecidableEq, Repr

structure PrePrepare (Block : Type) where
  senderId : ℕ
  signature : String
  view : ℕ
  seqNumber : ℕ
  reqDigest : String
  proposedBlock : Block
  deriving DecidableEq, Repr

/-- `view_change_pre_prepared_elem_t`. -/
structure PrePreparedElem where
  n : ℕ
  reqDigest : String
  prepBlock : String
  v : ℕ
  deriving DecidableEq, Repr

structure ViewChange where
  senderId : ℕ
  signature : String
  view : ℕ
  hi : ℕ
  c : String
  pi : List PiEntry
  qi : List PrePreparedElem
  deriving DecidableEq, Repr

structure NewView (Block : Type) where
  senderId : ℕ
  signature : String
  view : ℕ
  vcMessages : List ViewChange
  pppMessages : List (PrePrepare Block)
  deriving DecidableEq, Repr

structure RoastPreSignature where
  senderId : ℕ
  signature : String
  signers : List ℕ
  preSignature : String
  deriving DecidableEq, Repr

structure RoastSignatureShare where
  senderId : ℕ
  signature : String
  signatureShare : String
  nextPreSignatureShare : String
  deriving DecidableEq, Repr

end Messages

/-- A message that the network can deliver. -/
inductive Incoming (Block : Type) where
  | commit (m : Messages.Commit)
  | newView (m : Messages.NewView Block)
  | prepare (m : Messages.Prepare)
  | prePrepare (m : Messages.PrePrepare Block)
  | roastPreSignature (m : Messages.RoastPreSignature)
  | roastSignatureShare (m : Messages.RoastSignatureShare)
  | viewChange (m : Messages.ViewChange)
  deriving DecidableEq, Repr

namespace Incoming

def senderId {Block : Type} : Incoming Block → ℕ
  | commit m => m.senderId
  | newView m => m.senderId
  | prepare m => m.senderId
  | prePrepare m => m.senderId
  | roastPreSignature m => m.senderId
  | roastSignatureShare m => m.senderId
  | viewChange m => m.senderId

def signature {Block : Type} : Incoming Block → String
  | commit m => m.signature
  | newView m => m.signature
  | prepare m => m.signature
  | prePrepare m => m.signature
  | roastPreSignature m => m.signature
  | roastSignatureShare m => m.signature
  | viewChange m => m.signature

end Incoming

def memberAt (key : String) (j : Json) : Except Fault Json := (j.member key).mapError .json

def uintAt (key : String) (j : Json) : Except Fault ℕ :=
  (j.member key >>= Json.asUInt).mapError .json

def textAt (key : String) (j : Json) : Except Fault String :=
  (j.member key >>= Json.asString).mapError .json

/-- `root["payload"][key]`, and its conversions. -/
def payloadMember (root : Json) (key : String) : Except Fault Json :=
  memberAt "payload" root >>= memberAt key

def payloadUInt (root : Json) (key : String) : Except Fault ℕ :=
  memberAt "payload" root >>= uintAt key

def payloadText (root : Json) (key : String) : Except Fault String :=
  memberAt "payload" root >>= textAt key

namespace Messages

variable {Block : Type} (codec : BlockCodec Block)

/-- `Message::Message(const Json::Value&)`: the sender and the signature. -/
def header (root : Json) : Except Fault (ℕ × String) := do
  let senderId ← payloadUInt root "sender_id"
  let signature ← textAt "signature" root
  return (senderId, signature)

def Commit.ofJson (root : Json) : Except Fault Commit := do
  let (senderId, signature) ← header root
  let view ← payloadUInt root "v"
  let seqNumber ← payloadUInt root "n"
  let preSignature ← payloadText root "data"
  return ⟨senderId, signature, view, seqNumber, preSignature⟩

def Prepare.ofJson (root : Json) : Except Fault Prepare := do
  let (senderId, signature) ← header root
  let view ← payloadUInt root "v"
  let seqNumber ← payloadUInt root "n"
  let reqDigest ← payloadText root "req_digest"
  return ⟨senderId, signature, view, seqNumber, reqDigest⟩

def PrePrepare.ofJson (root : Json) : Except Fault (PrePrepare Block) := do
  let (senderId, signature) ← header root
  let view ← payloadUInt root "v"
  let seqNumber ← payloadUInt root "n"
  let reqDigest ← payloadText root "req_digest"
  let proposedBlockHex ← payloadText root "data"
  let proposedBlock ← (codec.parse proposedBlockHex).mapError .thrown
  return ⟨senderId, signature, view, seqNumber, reqDigest, proposedBlock⟩

def piElem (e : Json) : Except Fault PiEntry := do
  let n ← uintAt "n" e
  let reqDigest ← textAt "req_digest" e
  let v ← uintAt "v" e
  return ⟨n, reqDigest, v⟩

def qiElem (e : Json) : Except Fault PrePreparedElem := do
  let n ← uintAt "n" e
  let reqDigest ← textAt "req_digest" e
  let data ← textAt "data" e
  let v ← uintAt "v" e
  return ⟨n, reqDigest, data, v⟩

def ViewChange.ofJson (root : Json) : Except Fault ViewChange := do
  let (senderId, signature) ← header root
  let view ← payloadUInt root "v"
  let hi ← payloadUInt root "hi"
  let c ← payloadText root "c"
  let pi ← payloadMember root "pi"
  let pi ← pi.elements.mapM piElem
  let qi ← payloadMember root "qi"
  let qi ← qi.elements.mapM qiElem
  return ⟨senderId, signature, view, hi, c, pi, qi⟩

def NewView.ofJson (root : Json) : Except Fault (NewView Block) := do
  let (senderId, signature) ← header root
  let view ← payloadUInt root "v"
  let nu ← payloadMember root "nu"
  let vcMessages ← nu.elements.mapM ViewChange.ofJson
  let chi ← payloadMember root "chi"
  let pppMessages ← chi.elements.mapM (PrePrepare.ofJson codec)
  return ⟨senderId, signature, view, vcMessages, pppMessages⟩

def RoastPreSignature.ofJson (root : Json) : Except Fault RoastPreSignature := do
  let (senderId, signature) ← header root
  let preSignature ← payloadText root "pre_signature"
  let signers ← payloadMember root "signers"
  let signers ← signers.elements.mapM fun e => e.asUInt.mapError .json
  return ⟨senderId, signature, signers, preSignature⟩

def RoastSignatureShare.ofJson (root : Json) : Except Fault RoastSignatureShare := do
  let (senderId, signature) ← header root
  let signatureShare ← payloadText root "signature_share"
  let nextPreSignatureShare ← payloadText root "next_pre_sig_share"
  return ⟨senderId, signature, signatureShare, nextPreSignatureShare⟩

variable (cfg : Config)

def ViewChange.qiAsTerm (m : ViewChange) : List QiEntry :=
  m.qi.map fun q => ⟨q.n, q.reqDigest, some q.prepBlock, q.v⟩

def ViewChange.digest (m : ViewChange) : String :=
  cfg.digestViewChange m.view m.hi m.c m.pi m.qiAsTerm m.senderId

def NewView.nu (m : NewView Block) : List NuEntry :=
  m.vcMessages.map fun vc => ⟨vc.senderId, vc.digest cfg⟩

def NewView.chi (m : NewView Block) : List ChiEntry :=
  m.pppMessages.map fun ppp => ⟨ppp.seqNumber, ppp.reqDigest, some (codec.getHex ppp.proposedBlock)⟩

end Messages

open Messages

namespace Incoming

variable {Block : Type} (codec : BlockCodec Block)

/-- The branches of `BuildFromBinBuffer`: a BLOCK and a REQUEST are no messages of the network. -/
def ofJson (root : Json) : MsgType → Except Fault (Option (Incoming Block))
  | .commit => (some ∘ commit) <$> Commit.ofJson root
  | .newView => (some ∘ newView) <$> NewView.ofJson codec root
  | .prepare => (some ∘ prepare) <$> Prepare.ofJson root
  | .prePrepare => (some ∘ prePrepare) <$> PrePrepare.ofJson codec root
  | .viewChange => (some ∘ viewChange) <$> ViewChange.ofJson root
  | .roastSignatureShare => (some ∘ roastSignatureShare) <$> RoastSignatureShare.ofJson root
  | .roastPreSignature => (some ∘ roastPreSignature) <$> RoastPreSignature.ofJson root
  | .block | .request => .ok none

/-- The JSON reader is a parameter: it fails, or it throws where values nest too deep. -/
def buildFromBinBuffer {Bytes : Type} (parse : Bytes → Except Fault (Option Json))
    (binBuffer : Bytes) : Except Fault (Option (Incoming Block)) := do
  match ← parse binBuffer with
  | none => return none
  | some root =>
    match MsgType.ofNumber (← payloadUInt root "type") with
    | none => return none
    | some msgType => ofJson codec root msgType

end Incoming

end Fbft
