import Fbft.Hex
import Fbft.Ingest
import Fbft.Transport

/-! Every message of the network comes back from the wire as it was sent. A class writes its
members in one function and reads them in another; the two lists of names agree. -/
namespace Fbft

open Throwing

namespace Messages

def Commit.toJson (m : Commit) : Json :=
  finalizeJsonRoot
    [("data", .str m.preSignature), ("n", .int m.seqNumber), ("sender_id", .int m.senderId),
      ("type", .int MsgType.commit.number), ("v", .int m.view)] m.signature

def Prepare.toJson (m : Prepare) : Json :=
  finalizeJsonRoot
    [("n", .int m.seqNumber), ("req_digest", .str m.reqDigest), ("sender_id", .int m.senderId),
      ("type", .int MsgType.prepare.number), ("v", .int m.view)] m.signature

def RoastPreSignature.toJson (m : RoastPreSignature) : Json :=
  finalizeJsonRoot
    [("pre_signature", .str m.preSignature), ("sender_id", .int m.senderId),
      ("signers", jsonList (m.signers.map fun signer : ℕ => .int signer)),
      ("type", .int MsgType.roastPreSignature.number)] m.signature

def RoastSignatureShare.toJson (m : RoastSignatureShare) : Json :=
  finalizeJsonRoot
    [("next_pre_sig_share", .str m.nextPreSignatureShare), ("sender_id", .int m.senderId),
      ("signature_share", .str m.signatureShare),
      ("type", .int MsgType.roastSignatureShare.number)] m.signature

structure Commit.Fits32 (m : Commit) : Prop where
  senderId : m.senderId < 2 ^ 32
  view : m.view < 2 ^ 32
  seqNumber : m.seqNumber < 2 ^ 32

structure Prepare.Fits32 (m : Prepare) : Prop where
  senderId : m.senderId < 2 ^ 32
  view : m.view < 2 ^ 32
  seqNumber : m.seqNumber < 2 ^ 32

structure RoastPreSignature.Fits32 (m : RoastPreSignature) : Prop where
  senderId : m.senderId < 2 ^ 32
  signers : ∀ signer ∈ m.signers, signer < 2 ^ 32

end Messages

namespace Incoming

open Messages

variable {Block Bytes : Type}

def msgType : Incoming Block → MsgType
  | commit _ => .commit
  | newView _ => .newView
  | prepare _ => .prepare
  | prePrepare _ => .prePrepare
  | roastPreSignature _ => .roastPreSignature
  | roastSignatureShare _ => .roastSignatureShare
  | viewChange _ => .viewChange

def toBinBuffer (codec : BlockCodec Block) (readJson : Bytes → Except Fault (Option Json))
    (writeJson : Json → Bytes) : Incoming Block → Except Fault Bytes
  | commit m => .ok (writeJson m.toJson)
  | newView m => m.toBinBuffer codec readJson writeJson
  | prepare m => .ok (writeJson m.toJson)
  | prePrepare m => .ok (writeJson (m.toJson codec))
  | roastPreSignature m => .ok (writeJson m.toJson)
  | roastSignatureShare m => .ok (writeJson m.toJson)
  | viewChange m => .ok (writeJson m.toJson)

def Fits32 : Incoming Block → Prop
  | commit m => m.Fits32
  | newView m => m.Fits32
  | prepare m => m.Fits32
  | prePrepare m => m.Fits32
  | roastPreSignature m => m.Fits32
  | roastSignatureShare m => m.senderId < 2 ^ 32
  | viewChange m => m.Fits32

end Incoming

namespace Messages

theorem Commit.ofJson_toJson {m : Commit} (fits : m.Fits32) : Commit.ofJson m.toJson = .ok m := by
  simp only [Commit.ofJson, bind_eq_ok_iff]
  exact ⟨_, header_finalize rfl fits.senderId,
    _, payloadUInt_finalize rfl fits.view,
    _, payloadUInt_finalize rfl fits.seqNumber,
    _, payloadText_finalize rfl, rfl⟩

theorem Prepare.ofJson_toJson {m : Prepare} (fits : m.Fits32) :
    Prepare.ofJson m.toJson = .ok m := by
  simp only [Prepare.ofJson, bind_eq_ok_iff]
  exact ⟨_, header_finalize rfl fits.senderId,
    _, payloadUInt_finalize rfl fits.view,
    _, payloadUInt_finalize rfl fits.seqNumber,
    _, payloadText_finalize rfl, rfl⟩

theorem RoastPreSignature.ofJson_toJson {m : RoastPreSignature} (fits : m.Fits32) :
    RoastPreSignature.ofJson m.toJson = .ok m := by
  simp only [RoastPreSignature.ofJson, bind_eq_ok_iff]
  refine ⟨_, header_finalize rfl fits.senderId,
    _, payloadText_finalize rfl,
    _, payloadMember_finalize rfl, m.signers, ?_, rfl⟩
  rw [elements_jsonList]
  refine mapM_map_eq_ok fun signer member => ?_
  rw [Json.IsUInt.asUInt_eq (fits.signers signer member)]
  rfl

theorem RoastSignatureShare.ofJson_toJson {m : RoastSignatureShare} (small : m.senderId < 2 ^ 32) :
    RoastSignatureShare.ofJson m.toJson = .ok m := by
  simp only [RoastSignatureShare.ofJson, bind_eq_ok_iff]
  exact ⟨_, header_finalize rfl small, _, payloadText_finalize rfl, _, payloadText_finalize rfl,
    rfl⟩

theorem Commit.Fits32.plain_toJson {m : Commit} (fits : m.Fits32) : Plain m.toJson := by
  have number : MsgType.commit.number < 2 ^ 32 := by decide
  have ordered : Ordered ["data", "n", "sender_id", "type", "v"] := by decide
  refine plain_finalizeJsonRoot ordered ?_
  simp only [List.forall_mem_cons, List.not_mem_nil, false_imp_iff, implies_true, and_true]
  exact ⟨.str _, .int fits.seqNumber, .int fits.senderId, .int number, .int fits.view⟩

theorem Prepare.Fits32.plain_toJson {m : Prepare} (fits : m.Fits32) : Plain m.toJson := by
  have number : MsgType.prepare.number < 2 ^ 32 := by decide
  have ordered : Ordered ["n", "req_digest", "sender_id", "type", "v"] := by decide
  refine plain_finalizeJsonRoot ordered ?_
  simp only [List.forall_mem_cons, List.not_mem_nil, false_imp_iff, implies_true, and_true]
  exact ⟨.int fits.seqNumber, .str _, .int fits.senderId, .int number, .int fits.view⟩

theorem RoastPreSignature.Fits32.plain_toJson {m : RoastPreSignature} (fits : m.Fits32) :
    Plain m.toJson := by
  have number : MsgType.roastPreSignature.number < 2 ^ 32 := by decide
  have signers : Plain (jsonList (m.signers.map fun signer : ℕ => .int signer)) :=
    plain_jsonList (List.forall_mem_map.mpr fun signer member => .int (fits.signers signer member))
  have ordered : Ordered ["pre_signature", "sender_id", "signers", "type"] := by decide
  refine plain_finalizeJsonRoot ordered ?_
  simp only [List.forall_mem_cons, List.not_mem_nil, false_imp_iff, implies_true, and_true]
  exact ⟨.str _, .int fits.senderId, signers, .int number⟩

theorem RoastSignatureShare.plain_toJson {m : RoastSignatureShare} (small : m.senderId < 2 ^ 32) :
    Plain m.toJson := by
  have number : MsgType.roastSignatureShare.number < 2 ^ 32 := by decide
  have ordered : Ordered ["next_pre_sig_share", "sender_id", "signature_share", "type"] := by decide
  refine plain_finalizeJsonRoot ordered ?_
  simp only [List.forall_mem_cons, List.not_mem_nil, false_imp_iff, implies_true, and_true]
  exact ⟨.str _, .int small, .str _, .int number⟩

end Messages

namespace Incoming

open Messages

variable {Block Bytes : Type} {codec : BlockCodec Block}
  {readJson : Bytes → Except Fault (Option Json)} {writeJson : Json → Bytes} {msg : Incoming Block}

theorem build_writeJson (roundTrips : RoundTrips readJson writeJson) {root : Json} {t : MsgType}
    (plain : Plain root) (type : payloadUInt root "type" = .ok t.number)
    (built : ofJson codec root t = .ok (some msg)) :
    buildFromBinBuffer codec readJson (writeJson root) = .ok (some msg) := by
  refine bind_eq_ok_iff.mpr ⟨some root, roundTrips root plain, ?_⟩
  refine bind_eq_ok_iff.mpr ⟨t.number, type, ?_⟩
  rw [MsgType.ofNumber_eq_some_iff.mpr rfl]
  exact built

theorem build_toBinBuffer (roundTrips : RoundTrips readJson writeJson) (fits : msg.Fits32) :
    (msg.toBinBuffer codec readJson writeJson >>= buildFromBinBuffer codec readJson) =
      .ok (some msg) := by
  cases msg with
  | commit m =>
    exact build_writeJson roundTrips (Commit.Fits32.plain_toJson fits)
      (payloadUInt_finalize rfl (by decide)) (built_iff.mpr ⟨m, Commit.ofJson_toJson fits, rfl⟩)
  | newView m => exact NewView.build_toBinBuffer roundTrips fits
  | prepare m =>
    exact build_writeJson roundTrips (Prepare.Fits32.plain_toJson fits)
      (payloadUInt_finalize rfl (by decide)) (built_iff.mpr ⟨m, Prepare.ofJson_toJson fits, rfl⟩)
  | prePrepare m =>
    exact build_writeJson roundTrips (PrePrepare.Fits32.plain_toJson fits)
      (payloadUInt_finalize rfl (by decide)) (built_iff.mpr ⟨m, PrePrepare.ofJson_toJson fits, rfl⟩)
  | roastPreSignature m =>
    exact build_writeJson roundTrips (RoastPreSignature.Fits32.plain_toJson fits)
      (payloadUInt_finalize rfl (by decide))
      (built_iff.mpr ⟨m, RoastPreSignature.ofJson_toJson fits, rfl⟩)
  | roastSignatureShare m =>
    exact build_writeJson roundTrips (RoastSignatureShare.plain_toJson fits)
      (payloadUInt_finalize rfl (by decide))
      (built_iff.mpr ⟨m, RoastSignatureShare.ofJson_toJson fits, rfl⟩)
  | viewChange m =>
    exact build_writeJson roundTrips (ViewChange.Fits32.plain_toJson fits)
      (payloadUInt_finalize rfl (by decide)) (built_iff.mpr ⟨m, ViewChange.ofJson_toJson fits, rfl⟩)

end Incoming

/-- The network of the replicas whose blocks go as hexadecimal texts. -/
def Network.ofBlocks {Block : Type} (network : Network Block) (cblock : BlockSerialization Block) :
    Network Block :=
  { network with toBlockCodec := hexSerializableCBlock cblock }

/-- For every message of every type: what is read from the bytes that were written is a message of
the same type, with the same fields and the same digest. -/
theorem wire_roundTrip {Block Bytes : Type} (network : Network Block) (cfg : Config)
    (cblock : BlockSerialization Block) {readJson : Bytes → Except Fault (Option Json)}
    {writeJson : Json → Bytes} (roundTrips : RoundTrips readJson writeJson) {msg : Incoming Block}
    (fits : msg.Fits32) :
    ∃ msg', (msg.toBinBuffer (hexSerializableCBlock cblock) readJson writeJson >>=
        Incoming.buildFromBinBuffer (hexSerializableCBlock cblock) readJson) = .ok (some msg') ∧
      msg'.msgType = msg.msgType ∧ msg' = msg ∧
      msg'.digest (network.ofBlocks cblock) cfg = msg.digest (network.ofBlocks cblock) cfg :=
  ⟨msg, Incoming.build_toBinBuffer roundTrips fits, rfl, rfl, rfl⟩

def wordBlocks : BlockSerialization (UInt8 × UInt8 × UInt8 × UInt8) where
  serialize block := [block.1, block.2.1, block.2.2.1, block.2.2.2]
  unserialize
    | a :: b :: c :: d :: _ => .ok (a, b, c, d)
    | _ => .error .runtimeError
  unserialize_serialize _ := rfl

def nestedNewView : Messages.NewView (UInt8 × UInt8 × UInt8 × UInt8) :=
  ⟨1, "S1", 1, [⟨2, "S2", 1, 0, "H0", [], []⟩], [⟨1, "P1", 1, 1, "(H=1, T=60)", (0, 1, 254, 255)⟩]⟩

theorem wire_roundTrip_nestedNewView : ∃ msg',
    ((Incoming.newView nestedNewView).toBinBuffer (hexSerializableCBlock wordBlocks)
        (fun j : Json => .ok (some j)) id >>=
        Incoming.buildFromBinBuffer (hexSerializableCBlock wordBlocks) fun j => .ok (some j)) =
      .ok (some msg') ∧ msg' = .newView nestedNewView := by
  have small : ∀ k : ℕ, k ≤ 2 → k < 2 ^ 32 := fun k bound => by omega
  have fits : (Incoming.newView nestedNewView).Fits32 := by
    refine ⟨small _ (by decide), small _ (by decide), ?_, ?_⟩
    · simp only [nestedNewView, List.forall_mem_singleton]
      exact ⟨small _ (by decide), small _ (by decide), small _ (by decide), by simp, by simp⟩
    · simp only [nestedNewView, List.forall_mem_singleton]
      exact ⟨small _ (by decide), small _ (by decide), small _ (by decide)⟩
  obtain ⟨msg', built, -, same, -⟩ := wire_roundTrip
    { toBlockCodec := hexSerializableCBlock wordBlocks, readJson := fun _ => .ok none,
      sha := fun _ => "D", atomJsonDict := fun _ => "", genesisBlockTimestamp := 0,
      p2pkh := fun _ => "A", verifymessage := fun _ _ _ => .ok true }
    fourReplicas wordBlocks (fun _ _ => rfl) fits
  exact ⟨msg', built, same⟩

end Fbft
