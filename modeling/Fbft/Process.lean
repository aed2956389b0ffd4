import Fbft.Journal
import Fbft.Wallet

/-! The process around the engine: `effect()` of the actions that do more than call the
engine. They test and generate blocks, use the wallet, and may throw; an action that throws
takes the process down, so a run has no step for it. -/
namespace Fbft

open CppString Throwing LabelledPath Database

/-- The engine and the wallet of one replica. The last three fields are histories: no action
reads them. -/
structure Process (Nonce Block : Type) where
  engine : Replica
  wallet : Wallet Nonce
  /-- the blocks for which `TestBlockValidity` has returned true, with their height -/
  tested : List (ℕ × Block)
  /-- the blocks that `GenerateBlock` has returned -/
  generated : List Block
  /-- the pre-signature shares put into the output tables, the latest first -/
  advertised : List String

/-- The actions, with what the chain and the random generator answer. -/
inductive Effect (Nonce Block : Type) where
  | engine (a : Action)
  | sendPrePrepare (reqDigest : String) (v n : ℕ) (generated : Option Block)
  | receivePrePrepare (v n : ℕ) (reqDigest : String) (proposedBlock : Block) (senderId : ℕ)
      (senderSig : String) (valid : Bool)
  | sendCommit (reqDigest : String) (v n : ℕ) (fresh : Nonce)
  | roastReceivePreSignature (senderId : ℕ) (signers : List ℕ) (preSignature : String)
      (fresh : Nonce)
  | execute (reqDigest : String) (v n : ℕ)

/-- `effect()` is the call of the engine and nothing else. -/
def Action.Direct : Action → Prop
  | .sendPrePrepare .. | .receivePrePrepare .. | .sendCommit .. | .receivePreSignature ..
  | .execute .. => False
  | _ => True

instance : Decidable (Action.Direct a) := by
  apply a.casesOn (motive := fun a => Decidable (Action.Direct a)) <;> intros <;>
    dsimp only [Action.Direct] <;> infer_instance

section

variable {Nonce Block : Type} (host : Host Nonce Block) (cfg : Config) (i : ℕ)

/-- `PlCall` of an effect: 0 when the goal fails. -/
def callEngine (a : Action) (p : Process Nonce Block) : Bool × Process Nonce Block :=
  match a.apply cfg i p.engine with
  | some t => (true, { p with engine := t })
  | none => (false, p)

/-- `PrePrepare::FindByV_N_Req` with the block of the message that it builds. -/
def findProposedBlock (v n : ℕ) (reqDigest : String) (s : Replica) :
    Except Thrown (PrePrepare × Block) :=
  match findByVNReq v n reqDigest s with
  | none => .error .runtimeError
  | some m =>
    match m.data with
    | none => .error .runtimeError
    | some text => (host.parse text).map fun block => (m, block)

namespace Effect

def sendPrePrepareEffect (reqDigest : String) (v n : ℕ) (generated : Option Block)
    (p : Process Nonce Block) : Bool × Process Nonce Block :=
  match generated with
  | none => (false, p)
  | some block =>
    callEngine cfg i (.sendPrePrepare reqDigest (host.getHex block) v n)
      { p with generated := block :: p.generated }

/-- `!nTime`, a truth value that is compared with a timestamp. -/
def notTime (block : Block) : ℕ := if host.nTime block = 0 then 1 else 0

def receivePrePrepareEffect (now : ℚ) (v n : ℕ) (reqDigest : String) (proposedBlock : Block)
    (senderId : ℕ) (senderSig : String) (valid : Bool) (p : Process Nonce Block) :
    Bool × Process Nonce Block :=
  if valid = false then (false, p)
  else
    let p := { p with tested := (n, proposedBlock) :: p.tested }
    match p.engine.msgLogRequest.find? fun r => r.reqDigest = reqDigest with
    | none => (false, p)
    | some req =>
      if notTime host proposedBlock = req.reqTimestamp then (false, p)
      else if getSyntheticTime now p.engine + (cfg.targetBlockTime : ℚ) / 10 < req.reqTimestamp then
        (false, p)
      else callEngine cfg i
        (.receivePrePrepare v n reqDigest (host.getHex proposedBlock) senderId senderSig) p

def renewed (next : String × Wallet Nonce) (p : Process Nonce Block) : Process Nonce Block :=
  { p with wallet := next.2, advertised := next.1 :: p.advertised }

def sendCommitEffect (reqDigest : String) (v n : ℕ) (fresh : Nonce) (p : Process Nonce Block) :
    Bool × Process Nonce Block :=
  let next := host.getPreSignatureShare fresh p.wallet
  callEngine cfg i (.sendCommit reqDigest v n next.1) (renewed next p)

/-- Neither the sender nor the commitments in the pre-signature are looked at. -/
def roastReceivePreSignatureEffect (signers : List ℕ) (preSignature : String) (fresh : Nonce)
    (p : Process Nonce Block) : Except Thrown (Bool × Process Nonce Block) :=
  match p.engine.roast.active with
  | none => .ok (false, p)
  | some active => do
    let (_, blockToSign) ← findProposedBlock host active.v active.n active.reqDigest p.engine
    if i ∈ signers then
      let (signatureShare, wallet) ← host.getSignatureShare preSignature blockToSign p.wallet
      let next := host.getPreSignatureShare fresh wallet
      return callEngine cfg i (.receivePreSignature signers preSignature signatureShare next.1)
        (renewed next p)
    else return (false, p)

def finalSessions (r : Roast) : List SignatureSession :=
  if r.active.isSome then
    r.signatureSession.filter fun e => e.signatureShares.length = sigQuorum cfg
  else []

/-- A share that a COMMIT has left is the atom `false`. -/
def shareText : Option String → String
  | some share => share
  | none => "false"

/-- The shares of all sessions found, and the pre-signature of the last. -/
def finalSignatures (r : Roast) : List String :=
  ((finalSessions cfg r).flatMap SignatureSession.signatureShares).map shareText

def finalPreSignature (r : Roast) : String :=
  ((finalSessions cfg r).getLast?.map SignatureSession.preSignature).getD ""

def executeEffect (reqDigest : String) (v n : ℕ) (p : Process Nonce Block) :
    Except Thrown (Bool × Process Nonce Block) := do
  let signers := (finalSessions cfg p.engine.roast).flatMap SignatureSession.signers
  let signatures := finalSignatures cfg p.engine.roast
  let preSignature := finalPreSignature cfg p.engine.roast
  if signatures.length < signers.length then throw .outOfRange
  let (_, proposedBlock) ← findProposedBlock host v n reqDigest p.engine
  let finalBlock ← host.finalizeBlock cfg.clusterSize proposedBlock preSignature signatures
  if host.getHash finalBlock ≠ host.getHash proposedBlock then return (false, p)
  else if host.submitBlock n finalBlock = true then
    return callEngine cfg i (.execute reqDigest v n (host.getHash proposedBlock)) p
  else throw .runtimeError

def effect (now : ℚ) (p : Process Nonce Block) :
    Effect Nonce Block → Except Thrown (Bool × Process Nonce Block)
  | .engine a => .ok (callEngine cfg i a p)
  | .sendPrePrepare reqDigest v n generated =>
    .ok (sendPrePrepareEffect host cfg i reqDigest v n generated p)
  | .receivePrePrepare v n reqDigest proposedBlock senderId senderSig valid =>
    .ok (receivePrePrepareEffect host cfg i now v n reqDigest proposedBlock senderId senderSig
      valid p)
  | .sendCommit reqDigest v n fresh => .ok (sendCommitEffect host cfg i reqDigest v n fresh p)
  | .roastReceivePreSignature _ signers preSignature fresh =>
    roastReceivePreSignatureEffect host cfg i signers preSignature fresh p
  | .execute reqDigest v n => executeEffect host cfg i reqDigest v n p

def pre (now : ℚ) (p : Process Nonce Block) : Effect Nonce Block → Prop
  | .engine a => a.Direct ∧ a.admissible p.engine ∧ a.pre cfg i now p.engine
  | .sendPrePrepare reqDigest v n _ => preSendPrePrepare cfg now reqDigest v n i p.engine
  | .sendCommit reqDigest v n _ => preSendCommit cfg reqDigest v n i p.engine
  | .execute reqDigest v n => preExecute cfg reqDigest v n i p.engine
  | .receivePrePrepare .. | .roastReceivePreSignature .. => True

instance (now : ℚ) (p : Process Nonce Block) (e : Effect Nonce Block) :
    Decidable (e.pre cfg i now p) := by
  cases e <;> dsimp only [pre] <;> infer_instance

/-- The call of the engine that the effect may end with. -/
def Calls (a : Action) : Effect Nonce Block → Prop
  | .engine a' => a = a'
  | .sendPrePrepare reqDigest v n generated => ∃ block, generated = some block ∧
      a = .sendPrePrepare reqDigest (host.getHex block) v n
  | .receivePrePrepare v n reqDigest proposedBlock senderId senderSig valid => valid = true ∧
      a = .receivePrePrepare v n reqDigest (host.getHex proposedBlock) senderId senderSig
  | .sendCommit reqDigest v n fresh =>
    a = .sendCommit reqDigest v n (serializeSigningCommitment (host.commitments fresh))
  | .roastReceivePreSignature _ signers preSignature fresh => ∃ signatureShare,
      a = .receivePreSignature signers preSignature signatureShare
        (serializeSigningCommitment (host.commitments fresh))
  | .execute reqDigest v n => ∃ stateVal, a = .execute reqDigest v n stateVal

end Effect

/-- An action that came to its end. -/
structure ProcessStep (p : Process Nonce Block) (l : ℚ × Effect Nonce Block)
    (p' : Process Nonce Block) : Prop where
  pre : l.2.pre cfg i l.1 p
  effect : ∃ result, l.2.effect host cfg i l.1 p = .ok (result, p')

/-- Apply a list of actions, stopping at the first that is not active, throws or fails `cond`. -/
def execEffects (cond : Process Nonce Block → ℚ × Effect Nonce Block → Prop)
    [∀ p l, Decidable (cond p l)] :
    List (ℚ × Effect Nonce Block) → Process Nonce Block → Option (Process Nonce Block) :=
  follow fun p l =>
    if l.2.pre cfg i l.1 p ∧ cond p l then (l.2.effect host cfg i l.1 p).toOption.map Prod.snd
    else none

theorem execEffects_path {cond : Process Nonce Block → ℚ × Effect Nonce Block → Prop}
    [∀ p l, Decidable (cond p l)] {labels : List (ℚ × Effect Nonce Block)}
    {p p' : Process Nonce Block} (ran : execEffects host cfg i cond labels p = some p') :
    Path (Guarded (ProcessStep host cfg i) cond) p labels p' := by
  refine follow_path (fun p l p' next => ?_) ran
  split at next
  · rename_i allowed
    obtain ⟨⟨result, q⟩, done, rfl⟩ := Option.map_eq_some_iff.mp next
    cases effect : l.2.effect host cfg i l.1 p with
    | error e =>
      rw [effect] at done
      cases done
    | ok outcome =>
      rw [effect] at done
      cases done
      exact ⟨⟨allowed.1, result, effect⟩, allowed.2⟩
  · cases next

structure InitialProcess (p : Process Nonce Block) : Prop where
  engine : Initial cfg p.engine
  wallet : p.wallet = ⟨none, false⟩
  tested : p.tested = []
  generated : p.generated = []
  advertised : p.advertised = []

end

def AlwaysApplies {Nonce Block : Type} (_p : Process Nonce Block) (_l : ℚ × Effect Nonce Block) :
    Prop := True

instance {Nonce Block : Type} {p : Process Nonce Block} {l : ℚ × Effect Nonce Block} :
    Decidable (AlwaysApplies p l) :=
  inferInstanceAs (Decidable True)

theorem parse_text (block : String) : (.ok block : Except Thrown String) = .ok block := rfl

/-- A host whose blocks are their own texts: replica `i` signs when its index is listed, and
what it signs is the block. -/
def textHost (i : ℕ) : Host ℕ String where
  parse text := .ok text
  getHex block := block
  parse_getHex := parse_text
  commitments nonce := ⟨i + 1, (Nat.repr nonce).toList, (Nat.repr nonce).toList⟩
  sign block _ commitments :=
    if ∃ c ∈ commitments, c.index = i + 1 then some ⟨i + 1, block.toList⟩ else none
  pubkeyLoad _ := true
  aggregate block signers _ shares :=
    if signers.length = shares.length ∧ ∀ share ∈ shares, share.response = block.toList then
      some block
    else none
  verify block signature := signature = block
  appendSignetSolution block _ := .ok block
  getHash block := block
  nTime _ := 60
  submitBlock _ _ := true

/-- The process of each replica of the cluster of four, at its start. -/
def genesisProcess : Process ℕ String := ⟨genesis, ⟨none, false⟩, [], [], []⟩

theorem genesisProcess_initial : InitialProcess fourReplicas genesisProcess :=
  ⟨genesis_initial, rfl, rfl, rfl, rfl⟩

variable {Nonce Block : Type} {host : Host Nonce Block} {cfg : Config} {i : ℕ} {now : ℚ}
  {p p' : Process Nonce Block} {e : Effect Nonce Block} {a : Action}

theorem callEngine_cases (cfg : Config) (i : ℕ) (a : Action) (p : Process Nonce Block) :
    (∃ t, a.apply cfg i p.engine = some t ∧ callEngine cfg i a p = (true, { p with engine := t })) ∨
    callEngine cfg i a p = (false, p) := by
  unfold callEngine
  cases applied : a.apply cfg i p.engine with
  | some t => exact Or.inl ⟨t, rfl, rfl⟩
  | none => exact Or.inr rfl

theorem sendPrePrepareEffect_some {reqDigest : String} {v n : ℕ} {block : Block} :
    Effect.sendPrePrepareEffect host cfg i reqDigest v n (some block) p =
      callEngine cfg i (.sendPrePrepare reqDigest (host.getHex block) v n)
        { p with generated := block :: p.generated } := rfl

theorem sendCommitEffect_eq {reqDigest : String} {v n : ℕ} {fresh : Nonce} :
    Effect.sendCommitEffect host cfg i reqDigest v n fresh p =
      callEngine cfg i
        (.sendCommit reqDigest v n (serializeSigningCommitment (host.commitments fresh)))
        (Effect.renewed (host.getPreSignatureShare fresh p.wallet) p) := rfl

/-- A share goes out: the block was found, the wallet has signed, and its nonce is new. -/
structure Answers (host : Host Nonce Block) (cfg : Config) (i : ℕ) (signers : List ℕ)
    (preSignature : String) (fresh : Nonce) (p : Process Nonce Block) (m : PrePrepare)
    (block : Block) (signatureShare : String) (p' : Process Nonce Block) : Prop where
  active : ∃ active, p.engine.roast.active = some active ∧
    findProposedBlock host active.v active.n active.reqDigest p.engine = .ok (m, block)
  selected : i ∈ signers
  signed : ∃ wallet, host.getSignatureShare preSignature block p.wallet = .ok (signatureShare, wallet)
  engine : (Action.receivePreSignature signers preSignature signatureShare
    (serializeSigningCommitment (host.commitments fresh))).apply cfg i p.engine = some p'.engine
  wallet : p'.wallet = ⟨some fresh, true⟩
  advertised : p'.advertised = serializeSigningCommitment (host.commitments fresh) :: p.advertised
  histories : p'.tested = p.tested ∧ p'.generated = p.generated
  putsOut : .roastSignatureShare signatureShare
    (serializeSigningCommitment (host.commitments fresh)) ∈ p'.engine.roast.msgOut

open Effect

theorem roastReceivePreSignatureEffect_spec {signers : List ℕ} {preSignature : String}
    {fresh : Nonce} {result : Bool}
    (done : roastReceivePreSignatureEffect host cfg i signers preSignature fresh p =
      .ok (result, p')) :
    (result = false ∧ p' = p) ∨ (result = true ∧ ∃ m block signatureShare,
      Answers host cfg i signers preSignature fresh p m block signatureShare p') := by
  unfold roastReceivePreSignatureEffect at done
  split at done
  · cases done
    exact Or.inl ⟨rfl, rfl⟩
  rename_i active found
  obtain ⟨⟨m, block⟩, located, rest⟩ := bind_eq_ok_iff.mp done
  simp only at rest
  split at rest
  · rename_i selected
    obtain ⟨⟨signatureShare, wallet⟩, signed, rest⟩ := bind_eq_ok_iff.mp rest
    have put : ∃ t, (Action.receivePreSignature signers preSignature signatureShare
        (serializeSigningCommitment (host.commitments fresh))).apply cfg i p.engine = some t ∧
        .roastSignatureShare signatureShare
          (serializeSigningCommitment (host.commitments fresh)) ∈ t.roast.msgOut := by
      simp [Action.apply, updateRoast, applyReceivePreSignature, roastMsgOutAdd, found]
    obtain ⟨t, applied, putsOut⟩ := put
    simp only [Host.getPreSignatureShare, renewed, callEngine, applied] at rest
    cases rest
    exact Or.inr ⟨rfl, m, block, signatureShare, ⟨active, found, located⟩, selected,
      ⟨wallet, signed⟩, applied, rfl, rfl, ⟨rfl, rfl⟩, putsOut⟩
  · cases rest
    exact Or.inl ⟨rfl, rfl⟩

theorem executeEffect_spec {reqDigest : String} {v n : ℕ} {result : Bool}
    (done : executeEffect host cfg i reqDigest v n p = .ok (result, p')) :
    (result = false ∧ p' = p) ∨
    ∃ stateVal, (result, p') = callEngine cfg i (.execute reqDigest v n stateVal) p := by
  unfold executeEffect at done
  simp only at done
  split at done
  · cases done
  obtain ⟨⟨m, proposedBlock⟩, -, rest⟩ := bind_eq_ok_iff.mp done
  obtain ⟨finalBlock, -, rest⟩ := bind_eq_ok_iff.mp rest
  simp only at rest
  split at rest
  · cases rest
    exact Or.inl ⟨rfl, rfl⟩
  split at rest
  · exact Or.inr ⟨_, (Except.ok.inj rest).symm⟩
  · cases rest

/-- The block is recorded as tested as soon as the test has returned true. -/
theorem receivePrePrepareEffect_spec {v n senderId : ℕ} {reqDigest senderSig : String}
    {proposedBlock : Block} {valid result : Bool}
    (done : receivePrePrepareEffect host cfg i now v n reqDigest proposedBlock senderId senderSig
      valid p = (result, p')) :
    (valid = false ∧ p' = p) ∨ (valid = true ∧
      (p' = { p with tested := (n, proposedBlock) :: p.tested } ∨
        (result, p') = callEngine cfg i
          (.receivePrePrepare v n reqDigest (host.getHex proposedBlock) senderId senderSig)
          { p with tested := (n, proposedBlock) :: p.tested })) := by
  unfold receivePrePrepareEffect at done
  split at done
  · rename_i invalid
    cases done
    exact Or.inl ⟨invalid, rfl⟩
  rename_i valid
  refine Or.inr ⟨by simpa using valid, ?_⟩
  simp only at done
  split at done
  · cases done
    exact Or.inl rfl
  split at done
  · cases done
    exact Or.inl rfl
  split at done
  · cases done
    exact Or.inl rfl
  · exact Or.inr done.symm

theorem Effect.engine_cases {result : Bool} (done : e.effect host cfg i now p = .ok (result, p')) :
    p'.engine = p.engine ∨ ∃ a, e.Calls host a ∧ a.apply cfg i p.engine = some p'.engine := by
  have called : ∀ (q : Process Nonce Block) (a : Action), q.engine = p.engine → e.Calls host a →
      (result, p') = callEngine cfg i a q →
      p'.engine = p.engine ∨ ∃ a, e.Calls host a ∧ a.apply cfg i p.engine = some p'.engine := by
    intro q a same calls result
    rcases callEngine_cases cfg i a q with ⟨t, applied, ran⟩ | failed
    · rw [ran] at result
      cases result
      exact Or.inr ⟨a, calls, same ▸ applied⟩
    · rw [failed] at result
      cases result
      exact Or.inl same
  cases e with
  | engine a => exact called p a rfl rfl (Except.ok.inj done).symm
  | sendPrePrepare reqDigest v n generated =>
    cases generated with
    | none =>
      cases done
      exact Or.inl rfl
    | some block =>
      have ran := (Except.ok.inj done).symm.trans sendPrePrepareEffect_some
      exact called { p with generated := block :: p.generated } _ rfl ⟨block, rfl, rfl⟩ ran
  | receivePrePrepare v n reqDigest proposedBlock senderId senderSig valid =>
    rcases receivePrePrepareEffect_spec (Except.ok.inj done) with ⟨-, rfl⟩ | ⟨accepted, rfl | ran⟩
    · exact Or.inl rfl
    · exact Or.inl rfl
    · exact called { p with tested := (n, proposedBlock) :: p.tested } _ rfl ⟨accepted, rfl⟩ ran
  | sendCommit reqDigest v n fresh =>
    have ran := (Except.ok.inj done).symm.trans sendCommitEffect_eq
    exact called (renewed _ p) _ rfl rfl ran
  | roastReceivePreSignature senderId signers preSignature fresh =>
    rcases roastReceivePreSignatureEffect_spec done with ⟨-, rfl⟩ | ⟨-, m, block, share, answers⟩
    · exact Or.inl rfl
    · exact Or.inr ⟨_, ⟨share, rfl⟩, answers.engine⟩
  | execute reqDigest v n =>
    rcases executeEffect_spec done with ⟨-, rfl⟩ | ⟨stateVal, ran⟩
    · exact Or.inl rfl
    · exact called p (.execute reqDigest v n stateVal) rfl ⟨stateVal, rfl⟩ ran

theorem Effect.Calls.pre (calls : e.Calls host a) (pre : e.pre cfg i now p) :
    a.admissible p.engine ∧ a.pre cfg i now p.engine := by
  cases e with
  | engine a' =>
    cases calls
    exact pre.2
  | sendPrePrepare reqDigest v n generated =>
    obtain ⟨block, -, rfl⟩ := calls
    exact ⟨trivial, pre⟩
  | receivePrePrepare v n reqDigest proposedBlock senderId senderSig valid =>
    obtain ⟨-, rfl⟩ := calls
    exact ⟨trivial, trivial⟩
  | sendCommit reqDigest v n fresh =>
    cases calls
    exact ⟨trivial, pre⟩
  | roastReceivePreSignature senderId signers preSignature fresh =>
    obtain ⟨share, rfl⟩ := calls
    exact ⟨trivial, trivial⟩
  | execute reqDigest v n =>
    obtain ⟨stateVal, rfl⟩ := calls
    exact ⟨trivial, pre⟩

/-- The engine is left alone or does one step of its own. -/
theorem ProcessStep.engine_cases (step : ProcessStep host cfg i p (now, e) p') :
    p'.engine = p.engine ∨ ∃ a, e.Calls host a ∧ Step cfg i p.engine (now, a) p'.engine := by
  obtain ⟨pre, result, done⟩ := step
  rcases Effect.engine_cases done with same | ⟨a, calls, applied⟩
  · exact Or.inl same
  · obtain ⟨admissible, enabled⟩ := calls.pre pre
    exact Or.inr ⟨a, calls, admissible, enabled, applied⟩

namespace Effect

/-- What the effect adds to the histories. -/
def newTested : Effect Nonce Block → List (ℕ × Block)
  | .receivePrePrepare _ n _ proposedBlock _ _ true => [(n, proposedBlock)]
  | _ => []

def newGenerated : Effect Nonce Block → List Block
  | .sendPrePrepare _ _ _ generated => generated.toList
  | _ => []

end Effect

theorem callEngine_histories (cfg : Config) (i : ℕ) (a : Action) (q : Process Nonce Block)
    {result : Bool} (ran : (result, p') = callEngine cfg i a q) :
    p'.wallet = q.wallet ∧ p'.advertised = q.advertised ∧ p'.tested = q.tested ∧
      p'.generated = q.generated := by
  rcases callEngine_cases cfg i a q with ⟨t, -, same⟩ | same
  · rw [same] at ran
    cases ran
    exact ⟨rfl, rfl, rfl, rfl⟩
  · rw [same] at ran
    cases ran
    exact ⟨rfl, rfl, rfl, rfl⟩

theorem ProcessStep.histories (step : ProcessStep host cfg i p (now, e) p') :
    p'.tested = e.newTested ++ p.tested ∧ p'.generated = e.newGenerated ++ p.generated := by
  obtain ⟨-, result, done⟩ := step
  cases e with
  | engine a => exact (callEngine_histories _ _ _ _ (Except.ok.inj done).symm).2.2
  | sendPrePrepare reqDigest v n generated =>
    cases generated with
    | none =>
      cases done
      exact ⟨rfl, rfl⟩
    | some block =>
      have ran := (Except.ok.inj done).symm.trans sendPrePrepareEffect_some
      exact (callEngine_histories _ _ _ _ ran).2.2
  | receivePrePrepare v n reqDigest proposedBlock senderId senderSig valid =>
    rcases receivePrePrepareEffect_spec (Except.ok.inj done) with
      ⟨rfl, rfl⟩ | ⟨rfl, rfl | ran⟩
    · exact ⟨rfl, rfl⟩
    · exact ⟨rfl, rfl⟩
    · exact (callEngine_histories _ _ _ _ ran).2.2
  | sendCommit reqDigest v n fresh =>
    have ran := (Except.ok.inj done).symm.trans sendCommitEffect_eq
    exact (callEngine_histories _ _ _ _ ran).2.2
  | roastReceivePreSignature senderId signers preSignature fresh =>
    rcases roastReceivePreSignatureEffect_spec done with ⟨-, rfl⟩ | ⟨-, m, block, share, answers⟩
    · exact ⟨rfl, rfl⟩
    · exact answers.histories
  | execute reqDigest v n =>
    rcases executeEffect_spec done with ⟨-, rfl⟩ | ⟨stateVal, ran⟩
    · exact ⟨rfl, rfl⟩
    · exact (callEngine_histories _ _ _ _ ran).2.2

/-- A COMMIT or a signature share in the output tables carries the pre-signature share. -/
def PutsOutShare (next : String) (s : Replica) : Prop :=
  (∃ v n, .commit v n next ∈ s.msgOut) ∨
    ∃ signatureShare, .roastSignatureShare signatureShare next ∈ s.roast.msgOut

/-- The nonce is left alone, or it is replaced and its share put out. -/
theorem ProcessStep.wallet_cases (step : ProcessStep host cfg i p (now, e) p') :
    (p'.wallet = p.wallet ∧ p'.advertised = p.advertised) ∨
    ∃ fresh, p'.wallet = ⟨some fresh, true⟩ ∧
      p'.advertised = serializeSigningCommitment (host.commitments fresh) :: p.advertised ∧
      PutsOutShare (serializeSigningCommitment (host.commitments fresh)) p'.engine := by
  obtain ⟨-, result, done⟩ := step
  have same : ∀ a q, (result, p') = callEngine cfg i a q → q.wallet = p.wallet →
      q.advertised = p.advertised → p'.wallet = p.wallet ∧ p'.advertised = p.advertised := by
    intro a q ran wallet advertised
    obtain ⟨wallet', advertised', -⟩ := callEngine_histories _ _ _ _ ran
    exact ⟨wallet'.trans wallet, advertised'.trans advertised⟩
  cases e with
  | engine a => exact Or.inl (same a p (Except.ok.inj done).symm rfl rfl)
  | sendPrePrepare reqDigest v n generated =>
    cases generated with
    | none =>
      cases done
      exact Or.inl ⟨rfl, rfl⟩
    | some block =>
      exact Or.inl (same _ _ ((Except.ok.inj done).symm.trans sendPrePrepareEffect_some) rfl rfl)
  | receivePrePrepare v n reqDigest proposedBlock senderId senderSig valid =>
    rcases receivePrePrepareEffect_spec (Except.ok.inj done) with ⟨-, rfl⟩ | ⟨-, rfl | ran⟩
    · exact Or.inl ⟨rfl, rfl⟩
    · exact Or.inl ⟨rfl, rfl⟩
    · exact Or.inl (same _ _ ran rfl rfl)
  | sendCommit reqDigest v n fresh =>
    cases done
    refine Or.inr ⟨fresh, rfl, rfl, Or.inl ⟨v, n, ?_⟩⟩
    exact mem_assertzOnce.mpr (Or.inr rfl)
  | roastReceivePreSignature senderId signers preSignature fresh =>
    rcases roastReceivePreSignatureEffect_spec done with ⟨-, rfl⟩ | ⟨-, m, block, share, answers⟩
    · exact Or.inl ⟨rfl, rfl⟩
    · exact Or.inr ⟨fresh, answers.wallet, answers.advertised, Or.inr ⟨share, answers.putsOut⟩⟩
  | execute reqDigest v n =>
    rcases executeEffect_spec done with ⟨-, rfl⟩ | ⟨stateVal, ran⟩
    · exact Or.inl ⟨rfl, rfl⟩
    · exact Or.inl (same _ _ ran rfl rfl)

theorem ProcessStep.engine_reachable {labels : List (ℚ × Effect Nonce Block)}
    (start : InitialProcess cfg p) (run : Path (ProcessStep host cfg i) p labels p') :
    Reachable (Initial cfg) (Step cfg i) p'.engine := by
  have preserved : ∀ q l q', Reachable (Initial cfg) (Step cfg i) q.engine →
      ProcessStep host cfg i q l q' → Reachable (Initial cfg) (Step cfg i) q'.engine := by
    rintro q ⟨now, e⟩ q' reached step
    rcases step.engine_cases with same | ⟨a, -, next⟩
    · rwa [same]
    · exact reached.extend (.single next)
  have reached := run.invariant preserved (.of_init start.engine)
  exact reached

end Fbft
