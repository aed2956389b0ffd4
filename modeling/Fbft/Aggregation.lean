import Fbft.PreSignatures

/-! The arrays that the FROST library aggregates. It is told the number of the shares and
reads that many public keys and commitments; the indexes come from texts that the signers
have sent, and nothing compares them with their senders. -/
namespace Fbft

open CppString Throwing LabelledPath Database Effect

variable {Nonce Block : Type} {host : Host Nonce Block} {cfg : Config} {i : ℕ} {now : ℚ}
  {s t : Replica} {r r' : Roast} {labels : List (ℚ × Action)} {p : Process Nonce Block}
  {preSignature : String} {signatureShares : List String}

structure AggregateArguments where
  participantPubkeys : List ℕ
  signingCommitments : List NonceCommitment
  allResponses : List SignatureShare
  deriving DecidableEq

/-- `AggregateSignatureShares` up to the call of `secp256k1_frost_aggregate`. -/
def Host.aggregateArguments (host : Host Nonce Block) (clusterSize : ℕ) (preSignatures : String)
    (signatureShares : List String) : Except Thrown AggregateArguments := do
  let allResponses ← (signatureShares.map String.toList).mapM deserializeSignatureShare
  let signingCommitments ← (splitPreSignatures preSignatures).mapM deserializeSigningCommitment
  let signers := Host.participants clusterSize allResponses
  if ¬ ∀ id ∈ signers, host.pubkeyLoad id = true then throw .runtimeError
  return ⟨signers, signingCommitments, allResponses⟩

def Host.callAggregate (host : Host Nonce Block) (block : Block) (args : AggregateArguments) :
    Except Thrown String :=
  match host.aggregate block args.participantPubkeys args.signingCommitments args.allResponses with
  | none => throw .runtimeError
  | some signature =>
    if host.verify block signature = true then return signature else throw .runtimeError

/-- `Execute::effect` up to the same call. -/
def executeArguments (host : Host Nonce Block) (cfg : Config) (reqDigest : String) (v n : ℕ)
    (s : Replica) : Except Thrown (Block × AggregateArguments) := do
  let signers := (finalSessions cfg s.roast).flatMap SignatureSession.signers
  let signatures := finalSignatures cfg s.roast
  if signatures.length < signers.length then throw .outOfRange
  let (_, proposedBlock) ← findProposedBlock host v n reqDigest s
  let args ← host.aggregateArguments cfg.clusterSize (finalPreSignature cfg s.roast) signatures
  return (proposedBlock, args)

theorem aggregateSignatureShares_eq (host : Host Nonce Block) (clusterSize : ℕ) (block : Block)
    (preSignatures : String) (signatureShares : List String) :
    host.aggregateSignatureShares clusterSize block preSignatures signatureShares =
      host.aggregateArguments clusterSize preSignatures signatureShares >>=
        host.callAggregate block := by
  unfold Host.aggregateSignatureShares Host.aggregateArguments
  simp only [bind_assoc]
  congr 1
  funext allResponses
  congr 1
  funext signingCommitments
  split <;> rfl

/-- EXECUTE reaches the call with these arrays, or throws before it. -/
theorem executeEffect_eq (host : Host Nonce Block) (cfg : Config) (i : ℕ) (reqDigest : String)
    (v n : ℕ) (p : Process Nonce Block) :
    executeEffect host cfg i reqDigest v n p = (do
      let (proposedBlock, args) ← executeArguments host cfg reqDigest v n p.engine
      let signature ← host.callAggregate proposedBlock args
      let finalBlock ← host.appendSignetSolution proposedBlock signature
      if host.getHash finalBlock ≠ host.getHash proposedBlock then return (false, p)
      else if host.submitBlock n finalBlock = true then
        return callEngine cfg i (.execute reqDigest v n (host.getHash proposedBlock)) p
      else throw .runtimeError) := by
  unfold executeEffect executeArguments Host.finalizeBlock
  simp only [aggregateSignatureShares_eq]
  split
  · rfl
  · cases findProposedBlock host v n reqDigest p.engine with
    | error e => rfl
    | ok found =>
      cases host.aggregateArguments cfg.clusterSize (finalPreSignature cfg p.engine.roast)
        (finalSignatures cfg p.engine.roast) with
      | error e => rfl
      | ok args =>
        change ((host.callAggregate found.2 args >>= host.appendSignetSolution found.2) >>= _) = _
        rw [bind_assoc]
        rfl

structure EqualArrays (args : AggregateArguments) : Prop where
  pubkeys : args.participantPubkeys.length = args.allResponses.length
  commitments : args.signingCommitments.length = args.allResponses.length
  pubkeyIndexes : ∀ index, index ∈ args.participantPubkeys.map (· + 1) ↔
    index ∈ args.allResponses.map SignatureShare.index
  commitmentIndexes : ∀ index, index ∈ args.signingCommitments.map NonceCommitment.index ↔
    index ∈ args.allResponses.map SignatureShare.index

def textIndex (text : List Char) : Option ℕ :=
  (stoul (indexText text)).toOption.map fun index => index % 2 ^ 32

/-- The shares name different replicas of the cluster, and the pre-signature has one
commitment for each of them. -/
structure MatchingTexts (clusterSize : ℕ) (preSignature : String) (signatureShares : List String) :
    Prop where
  distinct : (signatureShares.map fun share => textIndex share.toList).Nodup
  replicas : ∀ share ∈ signatureShares, ∃ id < clusterSize, textIndex share.toList = some (id + 1)
  asMany : (splitPreSignatures preSignature).length = signatureShares.length
  named : ∀ index, index ∈ (splitPreSignatures preSignature).map textIndex ↔
    index ∈ signatureShares.map fun share => textIndex share.toList

theorem textIndex_of_share {text : List Char} {share : SignatureShare}
    (read : deserializeSignatureShare text = .ok share) : textIndex text = some share.index := by
  unfold deserializeSignatureShare at read
  simp only [substr_index, bind_eq_ok_iff, Except.ok.injEq, exists_eq_left'] at read
  obtain ⟨index, parsed, _, -, result⟩ := read
  cases result
  simp [textIndex, parsed, Except.toOption]

theorem textIndex_of_commitment {text : List Char} {commitment : NonceCommitment}
    (read : deserializeSigningCommitment text = .ok commitment) :
    textIndex text = some commitment.index := by
  unfold deserializeSigningCommitment at read
  simp only [substr_index, bind_eq_ok_iff, Except.ok.injEq, exists_eq_left'] at read
  obtain ⟨_, -, _, -, index, parsed, result⟩ := read
  cases result
  simp [textIndex, parsed, Except.toOption]

theorem mem_participants {clusterSize id : ℕ} {shares : List SignatureShare} :
    id ∈ Host.participants clusterSize shares ↔
      id < clusterSize ∧ ∃ share ∈ shares, share.index = id + 1 := by
  simp [Host.participants]

/-- The public keys are as many as the shares, and no other participant has one, exactly
when the indexes are different places of the configuration. -/
theorem participants_iff {clusterSize : ℕ} {shares : List SignatureShare} :
    ((Host.participants clusterSize shares).length = shares.length ∧
      ∀ index, index ∈ (Host.participants clusterSize shares).map (· + 1) ↔
        index ∈ shares.map SignatureShare.index) ↔
    (shares.map SignatureShare.index).Nodup ∧
      ∀ share ∈ shares, ∃ id < clusterSize, share.index = id + 1 := by
  have nodup : ((Host.participants clusterSize shares).map (· + 1)).Nodup :=
    (List.nodup_range.filter _).map (fun a b same => by omega)
  constructor
  · rintro ⟨length, same⟩
    have inside : (Host.participants clusterSize shares).map (· + 1) ⊆
        shares.map SignatureShare.index := fun index member => (same index).mp member
    have perm : ((Host.participants clusterSize shares).map (· + 1)).Perm
        (shares.map SignatureShare.index) := by
      apply (nodup.subperm inside).perm_of_length_le
      simp [length]
    refine ⟨perm.nodup_iff.mp nodup, fun share member => ?_⟩
    obtain ⟨id, chosen, index⟩ := List.mem_map.mp
      ((same share.index).mpr (List.mem_map_of_mem member))
    exact ⟨id, (mem_participants.mp chosen).1, index.symm⟩
  · rintro ⟨distinct, replicas⟩
    have same : ∀ index, index ∈ (Host.participants clusterSize shares).map (· + 1) ↔
        index ∈ shares.map SignatureShare.index := by
      intro index
      constructor
      · intro member
        obtain ⟨id, chosen, rfl⟩ := List.mem_map.mp member
        obtain ⟨-, share, listed, index⟩ := mem_participants.mp chosen
        exact List.mem_map.mpr ⟨share, listed, index⟩
      · intro member
        obtain ⟨share, listed, rfl⟩ := List.mem_map.mp member
        obtain ⟨id, below, index⟩ := replicas share listed
        exact List.mem_map.mpr ⟨id, mem_participants.mpr ⟨below, share, listed, index⟩, index.symm⟩
    refine ⟨?_, same⟩
    have perm := (List.perm_ext_iff_of_nodup nodup distinct).mpr same
    simpa using perm.length_eq

theorem Host.aggregateArguments_spec {clusterSize : ℕ} {args : AggregateArguments}
    (reached : host.aggregateArguments clusterSize preSignature signatureShares = .ok args) :
    args.participantPubkeys = Host.participants clusterSize args.allResponses ∧
    (signatureShares.map fun share => textIndex share.toList) =
      (args.allResponses.map SignatureShare.index).map some ∧
    (splitPreSignatures preSignature).map textIndex =
      (args.signingCommitments.map NonceCommitment.index).map some := by
  obtain ⟨responses, read, rest⟩ := bind_eq_ok_iff.mp reached
  obtain ⟨commitments, read', rest⟩ := bind_eq_ok_iff.mp rest
  simp only at rest
  split at rest
  · cases rest
  cases rest
  have shares : (signatureShares.map String.toList).map textIndex =
      responses.map fun share => some share.index :=
    map_eq_map_of_mapM read fun text _ share called => textIndex_of_share called
  have items : (splitPreSignatures preSignature).map textIndex =
      commitments.map fun commitment => some commitment.index :=
    map_eq_map_of_mapM read' fun text _ commitment called => textIndex_of_commitment called
  refine ⟨rfl, ?_, ?_⟩
  · simpa [Function.comp_def] using shares
  · simpa [Function.comp_def] using items

theorem forall_mem_map_some_iff {items shares : List ℕ} :
    (∀ index, index ∈ items.map some ↔ index ∈ shares.map some) ↔
      ∀ index, index ∈ items ↔ index ∈ shares := by
  constructor
  · intro same index
    simpa using same (some index)
  · intro same index
    cases index with
    | none => simp
    | some index => simpa using same index

/-- Exactly when the library reads inside the arrays, and the same participants in each. -/
theorem equalArrays_iff {clusterSize : ℕ} {args : AggregateArguments}
    (reached : host.aggregateArguments clusterSize preSignature signatureShares = .ok args) :
    EqualArrays args ↔ MatchingTexts clusterSize preSignature signatureShares := by
  obtain ⟨keys, shares, items⟩ := Host.aggregateArguments_spec reached
  have sharesLength : args.allResponses.length = signatureShares.length := by
    simpa using congrArg List.length shares.symm
  have itemsLength : args.signingCommitments.length = (splitPreSignatures preSignature).length := by
    simpa using congrArg List.length items.symm
  have distinct : (signatureShares.map fun share => textIndex share.toList).Nodup ↔
      (args.allResponses.map SignatureShare.index).Nodup := by
    rw [shares, List.nodup_map_iff (Option.some_injective ℕ)]
  have replicas : (∀ share ∈ signatureShares, ∃ id < clusterSize,
      textIndex share.toList = some (id + 1)) ↔
        ∀ share ∈ args.allResponses, ∃ id < clusterSize, share.index = id + 1 := by
    have each := congrArg (fun indexes => ∀ index ∈ indexes, ∃ id < clusterSize,
      index = some (id + 1)) shares
    simpa using each
  have named : (∀ index, index ∈ (splitPreSignatures preSignature).map textIndex ↔
      index ∈ signatureShares.map fun share => textIndex share.toList) ↔
        ∀ index, index ∈ args.signingCommitments.map NonceCommitment.index ↔
          index ∈ args.allResponses.map SignatureShare.index := by
    rw [items, shares, forall_mem_map_some_iff]
  have pubkeys := @participants_iff clusterSize args.allResponses
  rw [← keys] at pubkeys
  constructor
  · intro equal
    obtain ⟨nodup, places⟩ := pubkeys.mp ⟨equal.pubkeys, equal.pubkeyIndexes⟩
    exact ⟨distinct.mpr nodup, replicas.mpr places,
      itemsLength.symm.trans (equal.commitments.trans sharesLength), named.mpr equal.commitmentIndexes⟩
  · intro matching
    obtain ⟨length, same⟩ := pubkeys.mpr ⟨distinct.mp matching.distinct,
      replicas.mp matching.replicas⟩
    exact ⟨length, itemsLength.trans (matching.asMany.trans sharesLength.symm), same,
      named.mp matching.named⟩

structure OwnCommitment (j : ℕ) (text : String) : Prop where
  single : '+' ∉ text.toList
  index : textIndex text.toList = some (j + 1)

instance : Decidable (OwnCommitment j text) :=
  decidable_of_iff ('+' ∉ text.toList ∧ textIndex text.toList = some (j + 1))
    ⟨fun ⟨a, b⟩ => ⟨a, b⟩, fun ⟨a, b⟩ => ⟨a, b⟩⟩

/-- What the senders put into COMMITs and answers: their own index, and one commitment. -/
def OwnTexts (cfg : Config) (i : ℕ) (l : ℚ × Action) : Prop :=
  match l.2 with
  | .sendCommit _ _ _ data => OwnCommitment i data
  | .receiveCommit _ _ data senderId _ => OwnCommitment senderId data
  | .receiveSigShare signerId signatureShare nextPreSignatureShare =>
    signerId < cfg.clusterSize ∧ textIndex signatureShare.toList = some (signerId + 1) ∧
      OwnCommitment signerId nextPreSignatureShare
  | _ => True

instance : Decidable (OwnTexts cfg i l) := by
  obtain ⟨now, a⟩ := l
  apply a.casesOn (motive := fun a => Decidable (OwnTexts cfg i (now, a))) <;> intros <;>
    dsimp only [OwnTexts] <;> infer_instance

def RoastOp.Own : RoastOp → Prop
  | .receive _ signerId _ nextPreSignatureShare => OwnCommitment signerId nextPreSignatureShare
  | _ => True

structure OwnLedger (cfg : Config) (i : ℕ) (x : Ledger) : Prop where
  hears : HearsOnce cfg i x
  commits : ∀ m ∈ x.replica.msgLogCommit, OwnCommitment m.senderId m.data
  history : ∀ op ∈ x.history, op.Own

namespace OwnLedger

variable {x y : Ledger} {a : Action}

theorem new_commit (own : OwnTexts cfg i (now, a)) {m : Commit} (new : m ∈ a.newCommits i s) :
    OwnCommitment m.senderId m.data := by
  cases a with
  | sendCommit d v n data =>
    simp only [Action.newCommits, List.mem_singleton] at new
    subst new
    exact own
  | receiveCommit v n data j sig =>
    simp only [Action.newCommits] at new
    split at new
    · rw [List.mem_singleton] at new
      subst new
      exact own
    · cases new
  | _ => cases new

theorem new_ops (ledger : OwnLedger cfg i x) (own : OwnTexts cfg i (now, a)) :
    ∀ op ∈ x.ops cfg i a, op.Own := by
  intro op inside
  cases a with
  | receiveCommit v n data j sig =>
    simp only [Ledger.ops] at inside
    split at inside
    · rw [List.mem_singleton] at inside
      subst inside
      exact own
    · cases inside
  | receiveSigShare j share next =>
    simp only [Ledger.ops, List.mem_singleton] at inside
    subst inside
    exact own.2.2
  | roastInit d v n =>
    simp only [Ledger.ops] at inside
    split at inside
    · rcases List.mem_cons.mp inside with rfl | inside
      · trivial
      rcases List.mem_cons.mp inside with rfl | inside
      · trivial
      obtain ⟨e, listed, rfl⟩ := List.mem_map.mp inside
      apply ledger.commits
      rw [← ledger.hears.log]
      exact List.mem_map_of_mem (List.mem_filter.mp listed).1
    · rw [List.mem_singleton] at inside
      subst inside
      trivial
  | msgOutClearAll | receiveBlock _ _ _ | sendViewChange _ | receivePreSignature _ _ _ _ =>
    simp only [Ledger.ops, List.mem_singleton] at inside
    subst inside
    trivial
  | _ => cases inside

theorem step (ledger : OwnLedger cfg i x) (step : LedgerStep cfg i x (now, a) y)
    (own : OwnTexts cfg i (now, a)) : OwnLedger cfg i y where
  hears := ledger.hears.step step
  commits := by
    intro m logged
    obtain ⟨old | new, -⟩ := step.step.mem_commit.mp logged
    · exact ledger.commits m old
    · exact new_commit own new
  history := by
    intro op inside
    rw [step.recorded] at inside
    rcases List.mem_append.mp inside with old | new
    · exact ledger.history op old
    · exact ledger.new_ops own op new

theorem of_run (run : Path (LedgerStep cfg i) x labels y) (ledger : OwnLedger cfg i x)
    (own : ∀ l ∈ labels, OwnTexts cfg i l) : OwnLedger cfg i y := by
  induction run with
  | nil => exact ledger
  | @cons x l m labels y head rest ih =>
    obtain ⟨now, a⟩ := l
    exact ih (ledger.step head (own _ List.mem_cons_self))
      fun l inside => own l (List.mem_cons_of_mem _ inside)

end OwnLedger

/-- The pre-signature of a session has the commitments of its signers, in their order. -/
def OwnSession (e : SignatureSession) : Prop :=
  ∃ shares, e.preSignature = roastCryptoPreSigAggregate shares ∧
    List.Forall₂ OwnCommitment e.signers shares

structure OwnTables (r : Roast) : Prop where
  latest : ∀ x ∈ r.latestPreSignatureShare, OwnCommitment x.1 x.2
  session : ∀ e ∈ r.signatureSession, OwnSession e

namespace OwnTables

theorem congr (own : OwnTables r) (latest : r'.latestPreSignatureShare = r.latestPreSignatureShare)
    (session : r'.signatureSession = r.signatureSession) : OwnTables r' := by
  constructor
  · rw [latest]
    exact own.latest
  · rw [session]
    exact own.session

/-- More shares leave a session with its pre-signature. -/
theorem store {e : SignatureSession} (own : OwnTables r) (inside : e ∈ r.signatureSession)
    (shares : List (Option String)) :
    OwnTables (setRoastSignatureSession { e with signatureShares := shares } r) := by
  refine ⟨own.latest, fun e' member => ?_⟩
  rcases mem_setRoastSignatureSession.mp member with ⟨old, -⟩ | rfl
  · exact own.session e' old
  · exact own.session e inside

theorem hear {j : ℕ} {next : String} (own : OwnTables r) (mine : OwnCommitment j next) :
    OwnTables (hear j next r) := by
  refine ⟨fun x inside => ?_, own.session⟩
  rcases mem_setLatestPreSignatureShare.mp inside with ⟨old, -⟩ | rfl
  · exact own.latest x old
  · exact mine

theorem initiate (own : OwnTables r) (keys : (r.latestPreSignatureShare.map Prod.fst).Nodup)
    (present : ∀ k ∈ r.responsiveSigner, k ∈ r.latestPreSignatureShare.map Prod.fst)
    (opened : initiateSession cfg r = some r') : OwnTables r' := by
  rcases initiateSession_spec opened with ⟨-, rfl⟩ | ⟨-, c, -, -, -, -, latest, -, -, sessions, -⟩
  · exact own
  refine ⟨?_, fun e inside => ?_⟩
  · rw [latest]
    exact own.latest
  · rcases (sessions e).mp inside with ⟨old, -⟩ | rfl
    · exact own.session e old
    · refine ⟨_, rfl, ?_⟩
      exact (lookupPreSignatureShares_forall₂ keys present).imp fun k share listed =>
        own.latest (k, share) listed

theorem receive {history : List RoastOp} {q j : ℕ} {share : Option String} {next : String}
    (own : OwnTables r) (hearing : Hearing cfg i roastCollectGarbage history r)
    (step : RoastStep cfg i r (.receive q j share next) r') (mine : OwnCommitment j next) :
    OwnTables r' := by
  obtain ⟨malicious, marked, -⟩ := markUnsolicited_frame j r
  cases applyReceiveSigShare_called step with
  | alone absent opened =>
    rw [marked] at opened
    have heard : OwnTables (Fbft.hear j next { r with maliciousSigner := malicious }) :=
      (own.congr rfl rfl : OwnTables { r with maliciousSigner := malicious }).hear mine
    exact heard.initiate (hearing.keys_hear j next) (hearing.present_hear j next) opened
  | completes e recorded found full same =>
    rw [same, marked]
    exact (own.store (roastSignatureSession_spec found).1 _).congr rfl rfl
  | stores e recorded found short opened =>
    rw [marked] at opened
    have stored := own.store (roastSignatureSession_spec found).1 (e.signatureShares ++ [share])
    have heard : OwnTables (Fbft.hear j next (setRoastSignatureSession
        { e with signatureShares := e.signatureShares ++ [share] }
          { r with maliciousSigner := malicious })) :=
      (stored.hear mine).congr rfl rfl
    exact heard.initiate (hearing.keys_hear j next) (hearing.present_hear j next) opened

theorem of_path {history : List RoastOp}
    (run : Path (RoastStep cfg i) roastCollectGarbage history r) (mine : ∀ op ∈ history, op.Own) :
    OwnTables r := by
  revert mine
  refine run.snoc_induction (motive := fun history r => (∀ op ∈ history, op.Own) → OwnTables r)
    ?_ ?_
  · intro _
    constructor <;> simp [roastCollectGarbage]
  · intro history r op r' run ih step mine
    have own := ih fun op' inside => mine op' (List.mem_append_left _ inside)
    have last := mine op (List.mem_append_right _ (List.mem_singleton_self op))
    cases op with
    | receive q j share next => exact own.receive (Hearing.of_path run) step last
    | answer share next =>
      simp only [RoastStep, RoastOp.apply] at step
      split at step
      · cases step
        exact own.congr rfl rfl
      · cases step
    | collectGarbage =>
      cases step
      constructor <;> simp [roastCollectGarbage]
    | start _ | resetCounter | stop | clearOut =>
      cases step
      exact own.congr rfl rfl

end OwnTables

def AggregatesEqually (host : Host Nonce Block) (cfg : Config) (i : ℕ) (s : Replica) : Prop :=
  ∀ reqDigest v n block args, preExecute cfg reqDigest v n i s →
    executeArguments host cfg reqDigest v n s = .ok (block, args) → EqualArrays args

def FinalTextsMatch (cfg : Config) (r : Roast) : Prop :=
  MatchingTexts cfg.clusterSize (finalPreSignature cfg r) (finalSignatures cfg r)

theorem executeArguments_reached {reqDigest : String} {v n : ℕ} {block : Block}
    {args : AggregateArguments}
    (reached : executeArguments host cfg reqDigest v n s = .ok (block, args)) :
    host.aggregateArguments cfg.clusterSize (finalPreSignature cfg s.roast)
      (finalSignatures cfg s.roast) = .ok args := by
  unfold executeArguments at reached
  simp only at reached
  split at reached
  · cases reached
  obtain ⟨found, -, rest⟩ := bind_eq_ok_iff.mp reached
  obtain ⟨args', aggregated, rest⟩ := bind_eq_ok_iff.mp rest
  cases rest
  exact aggregated

theorem AnsweredSince.own {session : SignatureSession} {answers : List Answer}
    (answered : AnsweredSince cfg i s labels t session answers)
    (own : ∀ l ∈ labels, OwnTexts cfg i l) : ∀ x ∈ answers, x.1 < cfg.clusterSize ∧
      textIndex x.2.toList = some (x.1 + 1) := by
  intro x inside
  obtain ⟨before, after, m, rfl, -, -, -, listed⟩ := answered
  obtain ⟨⟨now, a⟩, member, answer⟩ := List.mem_filterMap.mp (listed.subset inside)
  have texts := own _ (List.mem_append_right _ member)
  cases a with
  | receiveSigShare j share next =>
    cases answer
    exact ⟨texts.1, texts.2.1⟩
  | _ => cases answer

theorem OwnCommitment.nonempty {j : ℕ} {text : String} (own : OwnCommitment j text) : text ≠ "" := by
  rintro rfl
  have index := own.index
  simp [textIndex, indexText, find, delim, stoul, unsignedText, Except.toOption] at index

theorem ownCommitments_texts {signers : List ℕ} {shares : List String}
    (related : List.Forall₂ OwnCommitment signers shares) :
    (shares.map fun share => textIndex share.toList) = signers.map (fun k => some (k + 1)) ∧
    ∀ share ∈ shares, share ≠ "" ∧ '+' ∉ share.toList := by
  induction related with
  | nil => simp
  | cons own _ ih =>
    refine ⟨by simp [own.index, ih.1], fun share inside => ?_⟩
    rcases List.mem_cons.mp inside with rfl | later
    · exact ⟨own.nonempty, own.single⟩
    · exact ih.2 share later

theorem OwnSession.items {e : SignatureSession} (own : OwnSession e) (someone : e.signers ≠ []) :
    (splitPreSignatures e.preSignature).map textIndex = e.signers.map fun k => some (k + 1) := by
  obtain ⟨shares, joined, related⟩ := own
  obtain ⟨indexes, texts⟩ := ownCommitments_texts related
  have nonempty : shares ≠ [] := by
    rintro rfl
    exact someone (List.forall₂_nil_right_iff.mp related)
  rw [joined, roastCryptoPreSigAggregate, splitPreSignatures_intercalate nonempty
    (fun share inside => (texts share inside).1) fun share inside => (texts share inside).2,
    List.map_map]
  exact indexes

theorem matchingTexts_of_answers {e : SignatureSession} {answers : List Answer}
    (stores : StoresAnswers e answers) (full : e.signatureShares.length = e.signers.length)
    (someone : e.signers ≠ []) (own : OwnSession e)
    (shares : ∀ x ∈ answers, x.1 < cfg.clusterSize ∧ textIndex x.2.toList = some (x.1 + 1)) :
    MatchingTexts cfg.clusterSize e.preSignature (e.signatureShares.map shareText) := by
  have texts : e.signatureShares.map shareText = answers.map Prod.snd := by
    rw [stores.shares, List.map_map]
    rfl
  have indexes : ((answers.map Prod.snd).map fun share => textIndex share.toList) =
      (answers.map Prod.fst).map fun k => some (k + 1) := by
    rw [List.map_map, List.map_map]
    exact List.map_congr_left fun x inside => (shares x inside).2
  have length : answers.length = e.signers.length := by
    rw [← full, stores.shares, List.length_map]
  have subset : answers.map Prod.fst ⊆ e.signers := by
    intro k inside
    obtain ⟨x, answered, rfl⟩ := List.mem_map.mp inside
    exact stores.signers x answered
  have perm : (answers.map Prod.fst).Perm e.signers := by
    apply (stores.distinct.subperm subset).perm_of_length_le
    simp [length]
  have items := own.items someone
  rw [texts]
  refine ⟨?_, ?_, ?_, ?_⟩
  · rw [indexes]
    exact stores.distinct.map fun a b same => by simpa using same
  · intro share inside
    obtain ⟨x, answered, rfl⟩ := List.mem_map.mp inside
    exact ⟨x.1, shares x answered⟩
  · have itemsLength := congrArg List.length items
    simp only [List.length_map] at itemsLength ⊢
    rw [itemsLength, length]
  · intro index
    rw [items, indexes]
    exact (perm.map fun k => some (k + 1)).mem_iff.symm

def AnswersFairly (cfg : Config) (i : ℕ) (s : Replica) (l : ℚ × Action) : Prop :=
  AnswersSolicited cfg i s l ∧ OwnTexts cfg i l

instance : Decidable (AnswersFairly cfg i s l) := inferInstanceAs (Decidable (_ ∧ _))

theorem finalTextsMatch_of_answersFairly (start : Initial cfg s)
    (run : Path (Guarded (Step cfg i) (AnswersFairly cfg i)) s labels t)
    (final : roastFinalSignatureSession cfg t.roast) : FinalTextsMatch cfg t.roast := by
  have own : ∀ l ∈ labels, OwnTexts cfg i l := run.labels_meet fun _ _ _ step => step.2.2
  have solicited : Path (Guarded (Step cfg i) (AnswersSolicited cfg i)) s labels t :=
    run.mono fun _ _ _ step => ⟨step.1, step.2.1⟩
  obtain ⟨y, recorded, rfl⟩ := Ledger.of_run run.unguard (Ledger.start s) rfl
  have ledger : OwnLedger cfg i y := by
    refine OwnLedger.of_run recorded ⟨HearsOnce.initial start, ?_, by simp [Ledger.start]⟩ own
    obtain ⟨height, blockHash, timestamp, view, rfl⟩ := start
    simp [Ledger.start, initNotx, setView]
  have tables := OwnTables.of_path (Ledger.roast_path start recorded).2 ledger.history
  have full := FullSessions.reachable ⟨s, labels, start, run.unguard⟩
  obtain ⟨e, executes⟩ := (OneFinalSession.run start run.unguard).executes full final
  obtain ⟨answers, answered, stores, -⟩ :=
    (sessionTables_run start solicited).session e executes.recorded
  have someone : e.signers ≠ [] := by
    have positive := sigQuorum_pos cfg
    have size := full e executes.recorded
    rintro empty
    rw [empty, List.length_nil] at size
    omega
  unfold FinalTextsMatch
  rw [executes.preSignature, executes.signatures]
  exact matchingTexts_of_answers stores executes.lengths someone
    (tables.session e executes.recorded) (answered.own own)

/-- At every EXECUTE the arrays are equal exactly when the texts of the final session match,
and they do match in runs where the signers answer as they are asked and put only their own
index into their texts. -/
theorem aggregatesEqually (host : Host Nonce Block) (cfg : Config) (i : ℕ) :
    (∀ t, Reachable (Initial cfg) (Step cfg i) t → ∀ reqDigest v n block args,
      preExecute cfg reqDigest v n i t →
      executeArguments host cfg reqDigest v n t = .ok (block, args) →
        (EqualArrays args ↔ FinalTextsMatch cfg t.roast)) ∧
    ∀ s labels t, Initial cfg s → Path (Guarded (Step cfg i) (AnswersFairly cfg i)) s labels t →
      AggregatesEqually host cfg i t := by
  refine ⟨?_, ?_⟩
  · intro t _ reqDigest v n block args _ reached
    exact equalArrays_iff (executeArguments_reached reached)
  · intro s labels t start run reqDigest v n block args enabled reached
    have final : roastFinalSignatureSession cfg t.roast := enabled.2.2.2
    exact (equalArrays_iff (executeArguments_reached reached)).mpr
      (finalTextsMatch_of_answersFairly start run final)

/-- Replica 0 proposes in view 0, commits with replica 1 and coordinates. -/
def commitsWithIndexes : List (ℚ × Action) :=
  [(60, .receiveRequest "(H=1, T=60)" 60), (60, .sendPrePrepare "(H=1, T=60)" "B60" 0 1),
    (60, .receivePrepare 0 1 "(H=1, T=60)" 1 "S1"), (60, .receivePrepare 0 1 "(H=1, T=60)" 2 "S2"),
    (60, .sendCommit "(H=1, T=60)" 0 1 "1::a0::b0"),
    (60, .receiveCommit 0 1 "2::a1::b1" 1 "S1"), (60, .receiveCommit 0 1 "3::a2::b2" 2 "S2"),
    (60, .roastInit "(H=1, T=60)" 0 1)]

/-- Both signers of the first session answer. -/
def answersWithIndexes : List (ℚ × Action) :=
  commitsWithIndexes ++ [(60, .receiveSigShare 1 "2::c1" "2::a3::b3"),
    (60, .receiveSigShare 0 "1::c0" "1::a4::b4")]

theorem aggregatesEqually_answersWithIndexes : ∃ t args,
    exec fourReplicas 0 (AnswersFairly fourReplicas 0) answersWithIndexes genesis = some t ∧
    preExecute fourReplicas "(H=1, T=60)" 0 1 0 t ∧
    executeArguments (textHost 0) fourReplicas "(H=1, T=60)" 0 1 t = .ok ("B60", args) ∧
    args.participantPubkeys = [0, 1] ∧ EqualArrays args := by
  have runs : ∃ t, exec fourReplicas 0 (AnswersFairly fourReplicas 0) answersWithIndexes genesis =
      some t ∧ preExecute fourReplicas "(H=1, T=60)" 0 1 0 t ∧
      (executeArguments (textHost 0) fourReplicas "(H=1, T=60)" 0 1 t).toOption =
        some ("B60", ⟨[0, 1], [⟨1, "a0::b".toList, "b0".toList⟩, ⟨2, "a1::b".toList, "b1".toList⟩],
          [⟨2, "c1".toList⟩, ⟨1, "c0".toList⟩]⟩) := by
    decide +kernel
  obtain ⟨t, ran, enabled, reached⟩ := runs
  have arguments := eq_ok_of_toOption reached
  exact ⟨t, _, ran, enabled, arguments, rfl, (aggregatesEqually (textHost 0) fourReplicas 0).2
    genesis _ t genesis_initial (exec_path ran) _ _ _ _ _ enabled arguments⟩

def answersWithForeignIndex : List (ℚ × Action) :=
  commitsWithIndexes ++ [(60, .receiveSigShare 1 "1::c1" "2::a3::b3"),
    (60, .receiveSigShare 0 "1::c0" "1::a4::b4")]

/-- One public key for two shares, and only one replica is faulty. -/
theorem answersWithForeignIndex_not_aggregatesEqually : ∃ s labels t,
    Initial fourReplicas s ∧ Path (Step fourReplicas 0) s labels t ∧
    (∀ l ∈ labels, OwnTexts fourReplicas 0 l ∨ (answerOf l).map Prod.fst = some 1) ∧
    ¬ AggregatesEqually (textHost 0) fourReplicas 0 t := by
  have runs : ∃ t, exec fourReplicas 0 Always answersWithForeignIndex genesis = some t ∧
      preExecute fourReplicas "(H=1, T=60)" 0 1 0 t ∧
      (executeArguments (textHost 0) fourReplicas "(H=1, T=60)" 0 1 t).toOption =
        some ("B60", ⟨[0], [⟨1, "a0::b".toList, "b0".toList⟩, ⟨2, "a1::b".toList, "b1".toList⟩],
          [⟨1, "c1".toList⟩, ⟨1, "c0".toList⟩]⟩) := by
    decide +kernel
  obtain ⟨t, ran, enabled, reached⟩ := runs
  refine ⟨genesis, answersWithForeignIndex, t, genesis_initial, (exec_path ran).unguard,
    by decide +kernel, fun equal => ?_⟩
  have pubkeys := (equal _ _ _ _ _ enabled (eq_ok_of_toOption reached)).pubkeys
  simp at pubkeys

end Fbft
