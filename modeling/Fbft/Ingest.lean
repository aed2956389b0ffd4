import Fbft.Dicts
import Fbft.Fields
import Fbft.Step

/-! The path of untrusted bytes: the handler of the network, `BuildFromBinBuffer`, and
`Replica2::ReceiveIncomingMessage` up to the input buffer. Nothing on it catches an exception. -/
namespace Fbft

open CppString Throwing

/-- The JSON reader and writer, the hash and the node behind the wallet. A call of the node may
throw, as it does on a signature that is no base64. -/
structure Network (Block : Type) extends BlockCodec Block where
  readJson : List UInt8 → Except Fault (Option Json)
  sha : String → String
  atomJsonDict : Json → String
  genesisBlockTimestamp : ℕ
  p2pkh : ℕ → String
  verifymessage : String → String → String → Except Fault Bool

structure ReplicaState (Block : Type) where
  engine : Replica
  inMsgBuffer : List (Incoming Block)

def maxNumGeneratedRequests : ℕ := 5

def latestRequestTime (s : Replica) : ℕ :=
  (s.msgLogRequest.map Request.reqTimestamp).foldr max s.lastRep

def requestDigest (genesisBlockTimestamp targetBlockTime timestamp : ℕ) : String :=
  "(H=" ++ Nat.repr ((timestamp - genesisBlockTimestamp) / targetBlockTime) ++ ", T=" ++
    Nat.repr timestamp ++ ")"

def LacksRequests (cfg : Config) (now : ℚ) (s : Replica) : Prop :=
  latestRequestTime s < ⌊getSyntheticTime now s⌋₊ + maxNumGeneratedRequests * cfg.targetBlockTime ∧
    latestRequestTime s < s.lastRep + maxNumGeneratedRequests * cfg.targetBlockTime

instance : Decidable (LacksRequests cfg now s) := inferInstanceAs (Decidable (_ ∧ _))

def generateRequest (cfg : Config) (genesisBlockTimestamp : ℕ) (s : Replica) : Replica :=
  let timestamp := latestRequestTime s + cfg.targetBlockTime
  applyReceiveRequest (requestDigest genesisBlockTimestamp cfg.targetBlockTime timestamp) timestamp s

def generateRequestsLoop (cfg : Config) (genesisBlockTimestamp : ℕ) (now : ℚ) :
    ℕ → Replica → Replica
  | 0, s => s
  | fuel + 1, s =>
    if LacksRequests cfg now s then
      generateRequestsLoop cfg genesisBlockTimestamp now fuel
        (generateRequest cfg genesisBlockTimestamp s)
    else s

/-- Each request is one block time later, so the loop ends after five. -/
def generateRequests (cfg : Config) (genesisBlockTimestamp : ℕ) (now : ℚ) (s : Replica) : Replica :=
  generateRequestsLoop cfg genesisBlockTimestamp now maxNumGeneratedRequests s

/-- Nothing but the log of requests may differ. -/
def OnlyRequests (s s' : Replica) : Prop :=
  ∃ requests, s' = { s with msgLogRequest := requests }

theorem OnlyRequests.trans {s t u : Replica} (first : OnlyRequests s t)
    (second : OnlyRequests t u) : OnlyRequests s u := by
  obtain ⟨_, rfl⟩ := first
  obtain ⟨requests, rfl⟩ := second
  exact ⟨requests, rfl⟩

theorem applyReceiveRequest_only (reqDigest : String) (reqTimestamp : ℕ) (s : Replica) :
    OnlyRequests s (applyReceiveRequest reqDigest reqTimestamp s) := by
  unfold applyReceiveRequest
  split
  · exact ⟨s.msgLogRequest, rfl⟩
  · exact ⟨_, rfl⟩

theorem generateRequestsLoop_only (cfg : Config) (genesisBlockTimestamp : ℕ) (now : ℚ) (fuel : ℕ)
    (s : Replica) : OnlyRequests s (generateRequestsLoop cfg genesisBlockTimestamp now fuel s) := by
  induction fuel generalizing s with
  | zero => exact ⟨s.msgLogRequest, rfl⟩
  | succ fuel ih =>
    unfold generateRequestsLoop
    split
    · exact (applyReceiveRequest_only _ _ s).trans (ih _)
    · exact ⟨s.msgLogRequest, rfl⟩

theorem lastRep_le_latestRequestTime (s : Replica) : s.lastRep ≤ latestRequestTime s := by
  unfold latestRequestTime
  induction s.msgLogRequest.map Request.reqTimestamp with
  | nil => exact le_rfl
  | cons time times ih => exact ih.trans (le_max_right _ _)

theorem reqTimestamp_le_latestRequestTime {s : Replica} {r : Request}
    (logged : r ∈ s.msgLogRequest) : r.reqTimestamp ≤ latestRequestTime s := by
  have member := List.mem_map_of_mem (f := Request.reqTimestamp) logged
  unfold latestRequestTime
  generalize s.msgLogRequest.map Request.reqTimestamp = timestamps at member ⊢
  induction timestamps with
  | nil => cases member
  | cons time times ih =>
    rcases List.mem_cons.mp member with same | later
    · exact same.le.trans (le_max_left _ _)
    · exact (ih later).trans (le_max_right _ _)

theorem latestRequestTime_generateRequest {cfg : Config} {now : ℚ} {s : Replica}
    (genesisBlockTimestamp : ℕ) (lacks : LacksRequests cfg now s) :
    latestRequestTime s + cfg.targetBlockTime ≤
      latestRequestTime (generateRequest cfg genesisBlockTimestamp s) := by
  have replied := lastRep_le_latestRequestTime s
  have behind := lacks.2
  have positive : 0 < cfg.targetBlockTime := by
    rcases Nat.eq_zero_or_pos cfg.targetBlockTime with zero | positive
    · rw [zero] at behind
      omega
    · exact positive
  have later : ¬ latestRequestTime s + cfg.targetBlockTime ≤ s.lastRep := by omega
  rw [generateRequest, applyReceiveRequest, if_neg later]
  exact reqTimestamp_le_latestRequestTime (r := ⟨_, latestRequestTime s + cfg.targetBlockTime⟩)
    (Database.mem_assertzOnce.mpr (Or.inr rfl))

theorem generateRequests_ends (cfg : Config) (genesisBlockTimestamp : ℕ) (now : ℚ) (s : Replica) :
    ¬ LacksRequests cfg now (generateRequests cfg genesisBlockTimestamp now s) := by
  have ends : ∀ fuel s, s.lastRep + maxNumGeneratedRequests * cfg.targetBlockTime ≤
      latestRequestTime s + fuel * cfg.targetBlockTime →
      ¬ LacksRequests cfg now (generateRequestsLoop cfg genesisBlockTimestamp now fuel s) := by
    intro fuel
    induction fuel with
    | zero =>
      intro s near lacks
      have behind := lacks.2
      simp only [generateRequestsLoop] at behind
      omega
    | succ fuel ih =>
      intro s near
      unfold generateRequestsLoop
      split
      · rename_i lacks
        refine ih _ ?_
        have next := latestRequestTime_generateRequest genesisBlockTimestamp lacks
        obtain ⟨requests, only⟩ : OnlyRequests s (generateRequest cfg genesisBlockTimestamp s) :=
          applyReceiveRequest_only _ _ s
        have same : (generateRequest cfg genesisBlockTimestamp s).lastRep = s.lastRep := by
          rw [only]
        rw [Nat.succ_mul] at near
        omega
      · assumption
  refine ends maxNumGeneratedRequests s ?_
  have replied := lastRep_le_latestRequestTime s
  omega

namespace Incoming

variable {Block : Type} (network : Network Block) (cfg : Config)

/-- The text for the log. Of the list of signers the last character is cut. -/
def identify : Incoming Block → Except Fault Unit
  | roastPreSignature m => if m.signers = [] then .error .undefinedBehaviour else .ok ()
  | _ => .ok ()

/-- The terms that a message hands to the engine, texts by `c_str()`. -/
def terms : Incoming Block → Message
  | commit m => .commit m.view m.seqNumber (cStr m.preSignature)
  | newView m => .newView m.view (m.nu cfg) ((m.chi network.toBlockCodec).map ChiEntry.cStr)
  | prepare m => .prepare m.view m.seqNumber (cStr m.reqDigest)
  | prePrepare m =>
    .prePrepare m.view m.seqNumber (cStr m.reqDigest) (network.getHex m.proposedBlock)
  | roastPreSignature m => .roastPreSignature m.signers (cStr m.preSignature)
  | roastSignatureShare m =>
    .roastSignatureShare (cStr m.signatureShare) (cStr m.nextPreSignatureShare)
  | viewChange m =>
    .viewChange m.view m.hi (cStr m.c) (m.pi.map PiEntry.cStr) (m.qiAsTerm.map QiEntry.cStr)

/-- The predicates `digest_*`: the hash of the JSON text of the dict. That of a VIEW_CHANGE is
the one that the log of the engine is kept by. -/
def digest : Incoming Block → String
  | viewChange m => m.digest cfg
  | msg => network.sha (network.atomJsonDict ((msg.terms network cfg).dict msg.senderId))

def answer (msg : Incoming Block) : Except Fault Bool :=
  network.verifymessage (network.p2pkh msg.senderId) msg.signature (msg.digest network cfg)

/-- `NewView::VerifySignatures` takes another wallet and overrides nothing, so the VIEW_CHANGEs
inside a NEW_VIEW are not looked at. -/
def verifySignatures (msg : Incoming Block) : Except Fault Bool :=
  if msg.senderId < cfg.clusterSize then msg.answer network cfg else .error (.thrown .outOfRange)

end Incoming

section

variable {Block : Type} (network : Network Block) (cfg : Config)

def receiveIncomingMessage (now : ℚ) (msg : Incoming Block) (s : ReplicaState Block) :
    Except Fault (ReplicaState Block) := do
  msg.identify
  let engine := generateRequests cfg network.genesisBlockTimestamp now s.engine
  if ← msg.verifySignatures network cfg then
    return ⟨engine, s.inMsgBuffer ++ [msg]⟩
  else return { s with engine }

/-- The callback takes the message out of the optional without a look. -/
def replicaMessageReceived (now : ℚ) (binBuffer : List UInt8) (s : ReplicaState Block) :
    Except Fault (ReplicaState Block) := do
  match ← Incoming.buildFromBinBuffer network.toBlockCodec network.readJson binBuffer with
  | none => throw .badOptionalAccess
  | some msg => receiveIncomingMessage network cfg now msg s

end

section

variable {Block : Type} (network : Network Block) (cfg : Config)

def HasSigners (root : Json) (t : MsgType) : Prop :=
  t = .roastPreSignature → ((payload root).get "signers").elements ≠ []

/-- JSON of a known type, each field there and of its type, the block decodable, a signer
named, and every sender a replica. -/
def WellFormed (binBuffer : List UInt8) : Prop :=
  ∃ root t, network.readJson binBuffer = .ok (some root) ∧
    (strict cfg).Fits network.toBlockCodec root t ∧ HasSigners root t

def Discards (s s' : ReplicaState Block) : Prop :=
  s'.inMsgBuffer = s.inMsgBuffer ∧ OnlyRequests s.engine s'.engine

/-- The handler comes to its end, and discards what is not well formed. -/
def Survives (now : ℚ) (binBuffer : List UInt8) (s : ReplicaState Block) : Prop :=
  ∃ s', replicaMessageReceived network cfg now binBuffer s = .ok s' ∧
    (¬ WellFormed network cfg binBuffer → Discards s s')

/-- The conversions of the constructor go through, and so do the text for the log and the
look-up of the sender. -/
structure Passes (binBuffer : List UInt8) (root : Json) (t : MsgType) : Prop where
  json : network.readJson binBuffer = .ok (some root)
  type : ((payload root).get "type").asUInt = .ok t.number
  fits : lenient.Fits network.toBlockCodec root t
  signers : HasSigners root t
  sender : ∀ id, ((payload root).get "sender_id").asUInt = .ok id → id < cfg.clusterSize

end

section

variable {Block : Type} {network : Network Block} {cfg : Config} {now : ℚ}
  {binBuffer : List UInt8} {s : ReplicaState Block} {root : Json} {t : MsgType}
  {msg : Incoming Block}

theorem identify_returns_iff {codec : BlockCodec Block}
    (built : Incoming.ofJson codec root t = .ok (some msg)) :
    Returns msg.identify ↔ HasSigners root t := by
  cases t with
  | roastPreSignature =>
    obtain ⟨m, read, rfl⟩ := built_iff.mp built
    simp only [Incoming.identify, returns_ite_error, returns_ok, and_true, HasSigners,
      signers_of_ofJson read, true_imp_iff, ne_eq]
  | block => cases built
  | request => cases built
  | _ =>
    obtain ⟨m, -, rfl⟩ := built_iff.mp built
    refine iff_of_true (returns_ok _) ?_
    intro same
    cases same

theorem buildFromBinBuffer_eq_some_iff : Incoming.buildFromBinBuffer network.toBlockCodec
      network.readJson binBuffer = .ok (some msg) ↔
    ∃ root t, network.readJson binBuffer = .ok (some root) ∧ HasPayload root ∧
      ((payload root).get "type").asUInt = .ok t.number ∧
      Incoming.ofJson network.toBlockCodec root t = .ok (some msg) := by
  unfold Incoming.buildFromBinBuffer
  rw [bind_eq_ok_iff]
  constructor
  · rintro ⟨_ | root, json, built⟩
    · cases built
    obtain ⟨k, read, built⟩ := bind_eq_ok_iff.mp built
    obtain ⟨has, type⟩ := payloadUInt_eq_ok_iff.mp read
    cases known : MsgType.ofNumber k with
    | none =>
      rw [known] at built
      cases built
    | some t =>
      rw [known] at built
      rw [MsgType.ofNumber_eq_some_iff.mp known] at type
      exact ⟨root, t, json, has, type, built⟩
  · rintro ⟨root, t, json, has, type, built⟩
    refine ⟨some root, json, bind_eq_ok_iff.mpr ⟨t.number, ?_, ?_⟩⟩
    · exact payloadUInt_eq_ok_iff.mpr ⟨has, type⟩
    · rw [MsgType.ofNumber_eq_some_iff.mpr rfl]
      exact built

theorem receiveIncomingMessage_eq_ok_iff {s' : ReplicaState Block} :
    receiveIncomingMessage network cfg now msg s = .ok s' ↔ Returns msg.identify ∧
      msg.senderId < cfg.clusterSize ∧ ∃ valid, msg.answer network cfg = .ok valid ∧
        s' = ⟨generateRequests cfg network.genesisBlockTimestamp now s.engine,
          if valid = true then s.inMsgBuffer ++ [msg] else s.inMsgBuffer⟩ := by
  simp only [receiveIncomingMessage, bind_eq_ok_iff, exists_and_right, exists_eq_ok,
    Incoming.verifySignatures]
  refine and_congr_right fun _ => ?_
  split
  · rename_i known
    rw [and_iff_right known]
    refine exists_congr fun valid => and_congr_right fun _ => ?_
    cases valid
    · exact ⟨fun same => (Except.ok.inj same).symm, fun same => congrArg Except.ok same.symm⟩
    · exact ⟨fun same => (Except.ok.inj same).symm, fun same => congrArg Except.ok same.symm⟩
  · rename_i unknown
    exact iff_of_false (fun ⟨_, same, _⟩ => nomatch same) (fun both => unknown both.1)

/-- For every byte string and every state: the handler comes to its end, and discards what is not
well formed, exactly when every conversion on the path goes through, the node answers, and it
does not take the signature of what is not well formed. -/
theorem survives_iff (network : Network Block) (cfg : Config) (now : ℚ) (binBuffer : List UInt8)
    (s : ReplicaState Block) : Survives network cfg now binBuffer s ↔
    ∃ root t, Passes network cfg binBuffer root t ∧
      ∀ msg, Incoming.ofJson network.toBlockCodec root t = .ok (some msg) →
        Returns (msg.answer network cfg) ∧
          (msg.answer network cfg = .ok true → WellFormed network cfg binBuffer) := by
  unfold Survives replicaMessageReceived
  simp only [bind_eq_ok_iff]
  constructor
  · rintro ⟨s', ⟨_ | msg, built, received⟩, discards⟩
    · cases received
    obtain ⟨root, t, json, has, type, built⟩ := buildFromBinBuffer_eq_some_iff.mp built
    obtain ⟨printed, known, valid, answer, rfl⟩ := receiveIncomingMessage_eq_ok_iff.mp received
    refine ⟨root, t, ⟨json, type, returns_ofJson.mp ⟨msg, built⟩,
      (identify_returns_iff built).mp printed, fun id read => ?_⟩, fun msg' built' => ?_⟩
    · cases read.symm.trans (sender_of_ofJson built)
      exact known
    · cases built.symm.trans built'
      refine ⟨⟨valid, answer⟩, fun accepted => ?_⟩
      cases answer.symm.trans accepted
      by_contra malformed
      have same := (discards malformed).1
      simp at same
  · rintro ⟨root, t, passes, answers⟩
    obtain ⟨msg, built⟩ := returns_ofJson.mpr passes.fits
    obtain ⟨⟨valid, answer⟩, wellFormed⟩ := answers msg built
    have has : HasPayload root := ⟨passes.fits.1.rootFields, passes.fits.1.payloadFields⟩
    refine ⟨_, ⟨some msg, buildFromBinBuffer_eq_some_iff.mpr
      ⟨root, t, passes.json, has, passes.type, built⟩, receiveIncomingMessage_eq_ok_iff.mpr
      ⟨(identify_returns_iff built).mpr passes.signers, passes.sender _ (sender_of_ofJson built),
        valid, answer, rfl⟩⟩, fun malformed => ?_⟩
    cases valid with
    | true => exact absurd (wellFormed answer) malformed
    | false => exact ⟨rfl, generateRequestsLoop_only _ _ _ _ _⟩

/-- A reader that takes no byte string for JSON, as on a lone brace, and a node that takes every
signature. -/
def bareNetwork : Network String where
  parse text := .ok text
  getHex block := block
  parse_getHex _ := rfl
  readJson _ := .ok none
  sha _ := "D"
  atomJsonDict _ := ""
  genesisBlockTimestamp := 0
  p2pkh _ := "A"
  verifymessage _ _ _ := .ok true

/-- The bytes of a lone brace end the process. -/
theorem not_survives_loneBrace :
    replicaMessageReceived bareNetwork fourReplicas 60 [123] ⟨genesis, []⟩ matches
        .error .badOptionalAccess ∧
      ¬ Survives bareNetwork fourReplicas 60 [123] ⟨genesis, []⟩ := by
  refine ⟨rfl, ?_⟩
  rintro ⟨s', received, -⟩
  cases received

end

end Fbft
