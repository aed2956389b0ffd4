import Fbft.Acceptance
import Fbft.Wire

/-! The messages in the output buffer: one for each fact in the output tables of the engine, in
the order in which `UpdateOutMessageBuffer` goes through the tables. -/
namespace Fbft

open Throwing

def Message.msgType : Message → MsgType
  | prePrepare .. => .prePrepare
  | prepare .. => .prepare
  | commit .. => .commit
  | viewChange .. => .viewChange
  | newView .. => .newView
  | roastPreSignature .. => .roastPreSignature
  | roastSignatureShare .. => .roastSignatureShare

section

variable {Block : Type} (codec : BlockCodec Block) (i : ℕ) (s : Replica)

/-- The constructor on the terms of a fact. A VIEW_CHANGE is read like one in the log, which has
a digest and a signature besides. -/
def Message.toBeSent : Message → Except Fault (Incoming Block)
  | prePrepare v n reqDigest data =>
    .prePrepare <$> Messages.PrePrepare.ofTerms codec i v n reqDigest (some data)
  | prepare v n reqDigest => .ok (.prepare ⟨toUInt32 i, "", toUInt32 v, toUInt32 n, reqDigest⟩)
  | commit v n data => .ok (.commit ⟨toUInt32 i, "", toUInt32 v, toUInt32 n, data⟩)
  | viewChange v hi c pi qi =>
    .ok (.viewChange (Messages.ViewChange.ofFact ⟨"", v, hi, c, pi, qi, i, ""⟩))
  | newView v nu chi => .newView <$> Messages.NewView.ofTerms codec i v nu chi s
  | roastPreSignature signers preSignature =>
    .ok (.roastPreSignature ⟨toUInt32 i, "", signers.map toUInt32, preSignature⟩)
  | roastSignatureShare signatureShare nextPreSignatureShare =>
    .ok (.roastSignatureShare ⟨toUInt32 i, "", signatureShare, nextPreSignatureShare⟩)

def outFacts : List Message := s.msgOut ++ s.roast.msgOut

def outTables : List MsgType :=
  [.prePrepare, .prepare, .commit, .viewChange, .newView, .roastPreSignature,
    .roastSignatureShare]

def updateOutMessageBuffer : Except Fault (List (Incoming Block)) :=
  (outTables.flatMap fun table => (outFacts s).filter fun m => m.msgType = table).mapM
    (Message.toBeSent codec i s)

end

end Fbft
