import Fbft.Fields

/-! What is written to the network. The members of an object stand in the order of their names,
and a list without elements is null. -/
namespace Fbft

open Throwing

/-- The order of the names in an object, byte by byte. -/
def nameBefore : List Char → List Char → Bool
  | a :: as, b :: bs => a.toNat < b.toNat || (a.toNat = b.toNat && nameBefore as bs)
  | [], _ :: _ => true
  | _, [] => false

def Ordered (names : List String) : Prop :=
  names.Pairwise fun a b => nameBefore a.toList b.toList = true

instance : Decidable (Ordered names) := inferInstanceAs (Decidable (List.Pairwise _ _))

/-- What the writer is given: no truth values, no real numbers, 32 bits for a number, and
each name once. -/
inductive Plain : Json → Prop where
  | null : Plain .null
  | int {k : ℕ} : k < 2 ^ 32 → Plain (.int k)
  | str (text : String) : Plain (.str text)
  | arr {elements : List Json} : (∀ e ∈ elements, Plain e) → Plain (.arr elements)
  | obj {members : List (String × Json)} : Ordered (members.map Prod.fst) →
      (∀ m ∈ members, Plain m.2) → Plain (.obj members)

/-- The reader reads back what the writer has written. -/
def RoundTrips {Bytes : Type} (readJson : Bytes → Except Fault (Option Json))
    (writeJson : Json → Bytes) : Prop :=
  ∀ j, Plain j → readJson (writeJson j) = .ok (some j)

/-- `append` for each element. -/
def jsonList : List Json → Json
  | [] => .null
  | e :: l => .arr (e :: l)

@[simp] theorem elements_jsonList (l : List Json) : (jsonList l).elements = l := by
  cases l <;> rfl

theorem plain_jsonList {l : List Json} (plain : ∀ e ∈ l, Plain e) : Plain (jsonList l) := by
  cases l with
  | nil => exact .null
  | cons e l => exact .arr plain

def finalizeJsonRoot (payload : List (String × Json)) (signature : String) : Json :=
  .obj [("payload", .obj payload), ("signature", .str signature)]

theorem plain_finalizeJsonRoot {payload : List (String × Json)} {signature : String}
    (ordered : Ordered (payload.map Prod.fst)) (plain : ∀ m ∈ payload, Plain m.2) :
    Plain (finalizeJsonRoot payload signature) := by
  have root : Ordered ["payload", "signature"] := by decide
  refine .obj root ?_
  simp only [List.forall_mem_cons, List.not_mem_nil, false_imp_iff, implies_true, and_true]
  exact ⟨.obj ordered plain, .str _⟩

namespace Messages

variable {Block : Type} (codec : BlockCodec Block)

def PrePrepare.toJson (m : PrePrepare Block) : Json :=
  finalizeJsonRoot
    [("data", .str (codec.getHex m.proposedBlock)), ("n", .int m.seqNumber),
      ("req_digest", .str m.reqDigest), ("sender_id", .int m.senderId),
      ("type", .int MsgType.prePrepare.number), ("v", .int m.view)] m.signature

def piJson (e : PiEntry) : Json :=
  .obj [("n", .int e.n), ("req_digest", .str e.reqDigest), ("v", .int e.v)]

def qiJson (e : PrePreparedElem) : Json :=
  .obj [("data", .str e.prepBlock), ("n", .int e.n), ("req_digest", .str e.reqDigest),
    ("v", .int e.v)]

def ViewChange.toJson (m : ViewChange) : Json :=
  finalizeJsonRoot
    [("c", .str m.c), ("hi", .int m.hi), ("pi", jsonList (m.pi.map piJson)),
      ("qi", jsonList (m.qi.map qiJson)), ("sender_id", .int m.senderId),
      ("type", .int MsgType.viewChange.number), ("v", .int m.view)] m.signature

variable {Bytes : Type} (readJson : Bytes → Except Fault (Option Json)) (writeJson : Json → Bytes)

/-- An embedded message is written to a text of its own and read again. -/
def rewritten (j : Json) : Except Fault Json := do
  let read ← readJson (writeJson j)
  return read.getD .null

def NewView.toBinBuffer (m : NewView Block) : Except Fault Bytes := do
  let nu ← m.vcMessages.mapM fun vc => rewritten readJson writeJson vc.toJson
  let chi ← m.pppMessages.mapM fun ppp => rewritten readJson writeJson (ppp.toJson codec)
  return writeJson (finalizeJsonRoot
    [("chi", jsonList chi), ("nu", jsonList nu), ("sender_id", .int m.senderId),
      ("type", .int MsgType.newView.number), ("v", .int m.view)] m.signature)

structure PrePrepare.Fits32 (m : PrePrepare Block) : Prop where
  senderId : m.senderId < 2 ^ 32
  view : m.view < 2 ^ 32
  seqNumber : m.seqNumber < 2 ^ 32

structure ViewChange.Fits32 (m : ViewChange) : Prop where
  senderId : m.senderId < 2 ^ 32
  view : m.view < 2 ^ 32
  hi : m.hi < 2 ^ 32
  pi : ∀ e ∈ m.pi, e.n < 2 ^ 32 ∧ e.v < 2 ^ 32
  qi : ∀ e ∈ m.qi, e.n < 2 ^ 32 ∧ e.v < 2 ^ 32

structure NewView.Fits32 (m : NewView Block) : Prop where
  senderId : m.senderId < 2 ^ 32
  view : m.view < 2 ^ 32
  vcMessages : ∀ vc ∈ m.vcMessages, vc.Fits32
  pppMessages : ∀ ppp ∈ m.pppMessages, ppp.Fits32

end Messages

section

variable {Block : Type} {codec : BlockCodec Block} {members : List (String × Json)}
  {signature key text : String} {k : ℕ} {value : Json}

theorem hasPayload_finalize : HasPayload (finalizeJsonRoot members signature) :=
  ⟨trivial, trivial⟩

theorem payload_finalize : payload (finalizeJsonRoot members signature) = .obj members := by
  simp [payload, finalizeJsonRoot, Json.get, Json.lookup]

theorem get_of_lookup {j : Json} (found : j.lookup key = some value) : j.get key = value := by
  rw [Json.get, found, Option.getD_some]

theorem payloadUInt_finalize (found : (Json.obj members).lookup key = some (.int k))
    (small : k < 2 ^ 32) : payloadUInt (finalizeJsonRoot members signature) key = .ok k := by
  refine payloadUInt_eq_ok_iff.mpr ⟨hasPayload_finalize, ?_⟩
  rw [payload_finalize, get_of_lookup found, Json.IsUInt.asUInt_eq small]

theorem payloadText_finalize (found : (Json.obj members).lookup key = some (.str text)) :
    payloadText (finalizeJsonRoot members signature) key = .ok text := by
  refine payloadText_eq_ok_iff.mpr ⟨hasPayload_finalize, ?_⟩
  rw [payload_finalize, get_of_lookup found]
  rfl

theorem payloadMember_finalize (found : (Json.obj members).lookup key = some value) :
    payloadMember (finalizeJsonRoot members signature) key = .ok value := by
  refine payloadMember_eq_ok_iff.mpr ⟨hasPayload_finalize, ?_⟩
  rw [payload_finalize, get_of_lookup found]

theorem uintAt_eq_ok (found : (Json.obj members).lookup key = some (.int k)) (small : k < 2 ^ 32) :
    uintAt key (.obj members) = .ok k := by
  simp only [uintAt, mapError_eq_ok_iff, bind_eq_ok_iff, Json.member_eq_ok_iff]
  exact ⟨.int k, ⟨trivial, (get_of_lookup found).symm⟩, Json.IsUInt.asUInt_eq small⟩

theorem textAt_eq_ok (found : (Json.obj members).lookup key = some (.str text)) :
    textAt key (.obj members) = .ok text := by
  simp only [textAt, mapError_eq_ok_iff, bind_eq_ok_iff, Json.member_eq_ok_iff]
  exact ⟨.str text, ⟨trivial, (get_of_lookup found).symm⟩, rfl⟩

theorem header_finalize (found : (Json.obj members).lookup "sender_id" = some (.int k))
    (small : k < 2 ^ 32) :
    Messages.header (finalizeJsonRoot members signature) = .ok (k, signature) := by
  have signed : textAt "signature" (finalizeJsonRoot members signature) = .ok signature :=
    textAt_eq_ok rfl
  exact bind_eq_ok_iff.mpr ⟨k, payloadUInt_finalize found small,
    bind_eq_ok_iff.mpr ⟨signature, signed, rfl⟩⟩

end

namespace Messages

variable {Block : Type} {codec : BlockCodec Block}

theorem PrePrepare.ofJson_toJson {m : PrePrepare Block} (fits : m.Fits32) :
    PrePrepare.ofJson codec (m.toJson codec) = .ok m := by
  have block : (codec.parse (codec.getHex m.proposedBlock)).mapError Fault.thrown =
      .ok m.proposedBlock := by
    rw [mapError_eq_ok_iff, codec.parse_getHex]
  simp only [PrePrepare.ofJson, bind_eq_ok_iff]
  exact ⟨_, header_finalize rfl fits.senderId,
    _, payloadUInt_finalize rfl fits.view,
    _, payloadUInt_finalize rfl fits.seqNumber,
    _, payloadText_finalize rfl,
    _, payloadText_finalize rfl, _, block, rfl⟩

theorem piElem_piJson {e : PiEntry} (small : e.n < 2 ^ 32 ∧ e.v < 2 ^ 32) :
    piElem (piJson e) = .ok e := by
  simp only [piElem, piJson, bind_eq_ok_iff]
  exact ⟨_, uintAt_eq_ok rfl small.1, _, textAt_eq_ok rfl,
    _, uintAt_eq_ok rfl small.2, rfl⟩

theorem qiElem_qiJson {e : PrePreparedElem} (small : e.n < 2 ^ 32 ∧ e.v < 2 ^ 32) :
    qiElem (qiJson e) = .ok e := by
  simp only [qiElem, qiJson, bind_eq_ok_iff]
  exact ⟨_, uintAt_eq_ok rfl small.1, _, textAt_eq_ok rfl,
    _, textAt_eq_ok rfl, _, uintAt_eq_ok rfl small.2, rfl⟩

theorem ViewChange.ofJson_toJson {m : ViewChange} (fits : m.Fits32) :
    ViewChange.ofJson m.toJson = .ok m := by
  simp only [ViewChange.ofJson, bind_eq_ok_iff]
  refine ⟨_, header_finalize rfl fits.senderId,
    _, payloadUInt_finalize rfl fits.view,
    _, payloadUInt_finalize rfl fits.hi,
    _, payloadText_finalize rfl,
    _, payloadMember_finalize rfl, m.pi, ?_,
    _, payloadMember_finalize rfl, m.qi, ?_, rfl⟩
  · rw [elements_jsonList]
    exact mapM_map_eq_ok fun e member => piElem_piJson (fits.pi e member)
  · rw [elements_jsonList]
    exact mapM_map_eq_ok fun e member => qiElem_qiJson (fits.qi e member)

theorem PrePrepare.Fits32.plain_toJson {m : PrePrepare Block} (fits : m.Fits32) :
    Plain (m.toJson codec) := by
  have number : MsgType.prePrepare.number < 2 ^ 32 := by decide
  have ordered : Ordered ["data", "n", "req_digest", "sender_id", "type", "v"] := by decide
  refine plain_finalizeJsonRoot ordered ?_
  simp only [List.forall_mem_cons, List.not_mem_nil, false_imp_iff, implies_true, and_true]
  exact ⟨.str _, .int fits.seqNumber, .str _, .int fits.senderId, .int number, .int fits.view⟩

theorem plain_piJson {e : PiEntry} (small : e.n < 2 ^ 32 ∧ e.v < 2 ^ 32) : Plain (piJson e) := by
  have ordered : Ordered ["n", "req_digest", "v"] := by decide
  refine .obj ordered ?_
  simp only [List.forall_mem_cons, List.not_mem_nil, false_imp_iff, implies_true, and_true]
  exact ⟨.int small.1, .str _, .int small.2⟩

theorem plain_qiJson {e : PrePreparedElem} (small : e.n < 2 ^ 32 ∧ e.v < 2 ^ 32) :
    Plain (qiJson e) := by
  have ordered : Ordered ["data", "n", "req_digest", "v"] := by decide
  refine .obj ordered ?_
  simp only [List.forall_mem_cons, List.not_mem_nil, false_imp_iff, implies_true, and_true]
  exact ⟨.str _, .int small.1, .str _, .int small.2⟩

theorem ViewChange.Fits32.plain_toJson {m : ViewChange} (fits : m.Fits32) : Plain m.toJson := by
  have number : MsgType.viewChange.number < 2 ^ 32 := by decide
  have pi : Plain (jsonList (m.pi.map piJson)) :=
    plain_jsonList (List.forall_mem_map.mpr fun e member => plain_piJson (fits.pi e member))
  have qi : Plain (jsonList (m.qi.map qiJson)) :=
    plain_jsonList (List.forall_mem_map.mpr fun e member => plain_qiJson (fits.qi e member))
  have ordered : Ordered ["c", "hi", "pi", "qi", "sender_id", "type", "v"] := by decide
  refine plain_finalizeJsonRoot ordered ?_
  simp only [List.forall_mem_cons, List.not_mem_nil, false_imp_iff, implies_true, and_true]
  exact ⟨.str _, .int fits.hi, pi, qi, .int fits.senderId, .int number, .int fits.view⟩

variable {Bytes : Type} {readJson : Bytes → Except Fault (Option Json)} {writeJson : Json → Bytes}

theorem rewritten_eq (roundTrips : RoundTrips readJson writeJson) {j : Json} (plain : Plain j) :
    rewritten readJson writeJson j = .ok j :=
  bind_eq_ok_iff.mpr ⟨some j, roundTrips j plain, rfl⟩

theorem NewView.build_toBinBuffer (roundTrips : RoundTrips readJson writeJson)
    {m : NewView Block} (fits : m.Fits32) :
    (m.toBinBuffer codec readJson writeJson >>= Incoming.buildFromBinBuffer codec readJson) =
      .ok (some (.newView m)) := by
  have number : MsgType.newView.number < 2 ^ 32 := by decide
  have nu : (m.vcMessages.mapM fun vc => rewritten readJson writeJson vc.toJson) =
      .ok (m.vcMessages.map ViewChange.toJson) :=
    mapM_eq_ok_map fun vc member => rewritten_eq roundTrips (fits.vcMessages vc member).plain_toJson
  have chi : (m.pppMessages.mapM fun ppp => rewritten readJson writeJson (ppp.toJson codec)) =
      .ok (m.pppMessages.map (PrePrepare.toJson codec)) :=
    mapM_eq_ok_map fun ppp member =>
      rewritten_eq roundTrips (fits.pppMessages ppp member).plain_toJson
  have plainNu : Plain (jsonList (m.vcMessages.map ViewChange.toJson)) :=
    plain_jsonList (List.forall_mem_map.mpr fun vc member => (fits.vcMessages vc member).plain_toJson)
  have plainChi : Plain (jsonList (m.pppMessages.map (PrePrepare.toJson codec))) :=
    plain_jsonList
      (List.forall_mem_map.mpr fun ppp member => (fits.pppMessages ppp member).plain_toJson)
  have plain : Plain (finalizeJsonRoot
      [("chi", jsonList (m.pppMessages.map (PrePrepare.toJson codec))),
        ("nu", jsonList (m.vcMessages.map ViewChange.toJson)), ("sender_id", .int m.senderId),
        ("type", .int MsgType.newView.number), ("v", .int m.view)] m.signature) := by
    have ordered : Ordered ["chi", "nu", "sender_id", "type", "v"] := by decide
    refine plain_finalizeJsonRoot ordered ?_
    simp only [List.forall_mem_cons, List.not_mem_nil, false_imp_iff, implies_true, and_true]
    exact ⟨plainChi, plainNu, .int fits.senderId, .int number, .int fits.view⟩
  refine bind_eq_ok_iff.mpr ⟨_, bind_eq_ok_iff.mpr ⟨_, nu, bind_eq_ok_iff.mpr ⟨_, chi, rfl⟩⟩, ?_⟩
  refine bind_eq_ok_iff.mpr ⟨_, roundTrips _ plain, bind_eq_ok_iff.mpr
    ⟨_, payloadUInt_finalize rfl number, built_iff.mpr ⟨m, ?_, rfl⟩⟩⟩
  simp only [NewView.ofJson, bind_eq_ok_iff]
  refine ⟨_, header_finalize rfl fits.senderId, _, payloadUInt_finalize rfl fits.view,
    _, payloadMember_finalize rfl, m.vcMessages, ?_, _, payloadMember_finalize rfl, m.pppMessages,
    ?_, rfl⟩
  · rw [elements_jsonList]
    exact mapM_map_eq_ok fun vc member => ViewChange.ofJson_toJson (fits.vcMessages vc member)
  · rw [elements_jsonList]
    exact mapM_map_eq_ok fun ppp member => PrePrepare.ofJson_toJson (fits.pppMessages ppp member)

end Messages

end Fbft
