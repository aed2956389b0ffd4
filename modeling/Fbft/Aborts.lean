import Fbft.Shares
import Fbft.RoastStart

/-! When the texts of other signers take a replica down. A pre-signature or a share passes
through the engine unread; the wallet parses it in the middle of an effect, and what it throws
nothing catches but a PlException. -/
namespace Fbft

open CppString Throwing LabelledPath

variable {Nonce Block : Type} {host : Host Nonce Block} {cfg : Config} {i : ℕ} {now : ℚ}
  {p p' : Process Nonce Block} {e : Effect Nonce Block} {r r' : Roast} {block : Block}

/-- `Apply` prints the action first, and of a pre-signature it cuts the comma behind the last
signer: of an empty list that is undefined. -/
def Effect.Printed : Effect Nonce Block → Prop
  | .roastReceivePreSignature _ signers _ _ => signers ≠ []
  | _ => True

instance : Decidable e.Printed := by
  apply e.casesOn (motive := fun e => Decidable e.Printed) <;> intros <;>
    dsimp only [Effect.Printed] <;> infer_instance

/-- The action is printed, its effect comes to its end, and when it returns 0 the engine is as
it was. -/
def ReturnsNormally (host : Host Nonce Block) (cfg : Config) (i : ℕ) (now : ℚ)
    (p : Process Nonce Block) (e : Effect Nonce Block) : Prop :=
  e.Printed ∧ ∃ result q, e.effect host cfg i now p = .ok (result, q) ∧
    (result = false → q.engine = p.engine)

/-- Every commitment of the pre-signature has an index, and the library signs with them. -/
structure UsablePreSignature (host : Host Nonce Block) (p : Process Nonce Block)
    (preSignature : String) (block : Block) : Prop where
  nonempty : preSignature ≠ ""
  numeric : ∀ item ∈ splitPreSignatures preSignature, Numeric (indexText item)
  advertised : p.advertised ≠ []
  accepted : ∀ nonce commitments, p.wallet.nonce = some nonce →
    (splitPreSignatures preSignature).mapM deserializeSigningCommitment = .ok commitments →
    host.sign block nonce commitments ≠ none

/-- Every share and every commitment has an index, and the library makes a signature of them
that the chain accepts. -/
structure UsableShares (host : Host Nonce Block) (cfg : Config) (n : ℕ) (preSignature : String)
    (signatures : List String) (block : Block) : Prop where
  shares : ∀ share ∈ signatures, Numeric (indexText share.toList)
  commitments : ∀ item ∈ splitPreSignatures preSignature, Numeric (indexText item)
  accepted : ∀ responses commitments,
    (signatures.map String.toList).mapM deserializeSignatureShare = .ok responses →
    (splitPreSignatures preSignature).mapM deserializeSigningCommitment = .ok commitments →
    (∀ id ∈ Host.participants cfg.clusterSize responses, host.pubkeyLoad id = true) ∧
    ∃ signature finalBlock,
      host.aggregate block (Host.participants cfg.clusterSize responses) commitments responses =
        some signature ∧ host.verify block signature = true ∧
      host.appendSignetSolution block signature = .ok finalBlock ∧
      (host.getHash finalBlock = host.getHash block → host.submitBlock n finalBlock = true)

/-- The block is in the log and can be read, and so can the texts that go with it. -/
def Usable (host : Host Nonce Block) (cfg : Config) (i : ℕ) (p : Process Nonce Block) :
    Effect Nonce Block → Prop
  | .roastReceivePreSignature _ signers preSignature _ =>
    signers ≠ [] ∧ ∀ active, p.engine.roast.active = some active → ∃ m block,
      findProposedBlock host active.v active.n active.reqDigest p.engine = .ok (m, block) ∧
        (i ∈ signers → UsablePreSignature host p preSignature block)
  | .execute reqDigest v n => ∃ m block,
      findProposedBlock host v n reqDigest p.engine = .ok (m, block) ∧
        UsableShares host cfg n (Effect.finalPreSignature cfg p.engine.roast)
          (Effect.finalSignatures cfg p.engine.roast) block
  | _ => True

def FullSessions (cfg : Config) (r : Roast) : Prop :=
  ∀ e ∈ r.signatureSession, e.signers.length = sigQuorum cfg

theorem FullSessions.receive (full : FullSessions cfg r) {share : Option String} {next : String}
    (h : applyReceiveSigShare cfg j share next i r = some r') : FullSessions cfg r' := by
  obtain ⟨active, -, -, -, stored, store, rest⟩ := applyReceiveSigShare_spec h
  obtain ⟨malicious, marked, -⟩ := markUnsolicited_frame j r
  have kept : FullSessions cfg stored := by
    rw [marked] at store
    rcases storeSignatureShare_spec store with ⟨-, rfl⟩ | ⟨session, inside, -, rfl⟩
    · exact full
    · intro e member
      rcases mem_setRoastSignatureSession.mp member with ⟨old, -⟩ | rfl
      · exact full e old
      · exact full session inside
  rcases rest with ⟨-, rfl⟩ | ⟨-, opened⟩
  · exact kept
  · rcases initiateSession_spec opened with
      ⟨-, rfl⟩ | ⟨enough, counter, -, -, -, -, -, -, -, sessions, -⟩
    · exact kept
    · intro e member
      rcases (sessions e).mp member with ⟨old, -⟩ | rfl
      · exact kept e old
      · exact enough

theorem FullSessions.receiveCommits {commits : List Commit} (full : FullSessions cfg r)
    (h : receiveCommitShares cfg i commits r = some r') : FullSessions cfg r' := by
  induction commits generalizing r with
  | nil =>
    cases h
    exact full
  | cons m commits ih =>
    obtain ⟨r₁, first, rest⟩ := Option.bind_eq_some_iff.mp h
    exact ih (full.receive first) rest

theorem FullSessions.step (full : FullSessions cfg s.roast) (step : Step cfg i s (now, a) t) :
    FullSessions cfg t.roast := by
  have next := step.tables.roast
  cases a with
  | receiveCommit v n data j sig =>
    simp only [Action.nextRoast] at next
    split at next
    · exact full.receive next
    · rw [← Option.some.inj next]
      exact full
  | receiveBlock height time blockHash =>
    rw [← Option.some.inj next]
    intro e member
    cases member
  | roastInit d v n =>
    simp only [Action.nextRoast, applyRoastInit] at next
    split at next
    · have started : FullSessions cfg
          (setRoastSessionCounter 0 (setRoastActive (some ⟨v, n, d⟩) s.roast)) := full
      exact started.receiveCommits next
    · rw [← Option.some.inj next]
      exact full
  | receivePreSignature signers preSignature share nextShare =>
    simp only [Action.nextRoast, applyReceivePreSignature] at next
    split at next
    · rw [← Option.some.inj next]
      exact full
    · cases next
  | receiveSigShare j share nextShare => exact full.receive next
  | _ =>
    rw [← Option.some.inj next]
    exact full

theorem FullSessions.reachable (reached : Reachable (Initial cfg) (Step cfg i) s) :
    FullSessions cfg s.roast := by
  apply reached.invariant
  · rintro s ⟨height, hash, timestamp, view, rfl⟩ e member
    cases member
  · rintro s ⟨now, a⟩ t full step
    exact FullSessions.step full step

open Effect

theorem FullSessions.enoughSignatures (full : FullSessions cfg r) :
    (finalSignatures cfg r).length =
      ((finalSessions cfg r).flatMap SignatureSession.signers).length := by
  simp only [finalSignatures, List.length_map, List.length_flatMap]
  congr 1
  apply List.map_congr_left
  intro e member
  unfold finalSessions at member
  split at member
  · obtain ⟨inside, final⟩ := List.mem_filter.mp member
    rw [full e inside]
    exact of_decide_eq_true final
  · cases member

/-- The nonce can be used from the moment its share has been put out. -/
structure NonceUsable (p : Process Nonce Block) : Prop where
  valid : p.wallet.validNonce = p.wallet.nonce.isSome
  putOut : p.wallet.nonce.isSome ↔ p.advertised ≠ []

namespace NonceUsable

theorem initial (start : InitialProcess cfg p) : NonceUsable p :=
  ⟨by simp [start.wallet], by simp [start.wallet, start.advertised]⟩

theorem step (usable : NonceUsable p) (step : ProcessStep host cfg i p (now, e) p') :
    NonceUsable p' := by
  rcases step.wallet_cases with ⟨wallet, same⟩ | ⟨fresh, wallet, renewed, -⟩
  · exact ⟨wallet ▸ usable.valid, by rw [wallet, same]; exact usable.putOut⟩
  · exact ⟨by simp [wallet], by simp [wallet, renewed]⟩

theorem of_run (start : InitialProcess cfg p) {labels : List (ℚ × Effect Nonce Block)}
    (run : Path (ProcessStep host cfg i) p labels p') : NonceUsable p' := by
  have preserved : ∀ q l q', NonceUsable q → ProcessStep host cfg i q l q' → NonceUsable q' :=
    fun q l q' usable step => usable.step step
  have usable := run.invariant preserved (initial start)
  exact usable

end NonceUsable

theorem returns_getSignatureShare {w : Wallet Nonce} (valid : w.validNonce = w.nonce.isSome)
    {preSignature : String} :
    Returns (host.getSignatureShare preSignature block w) ↔ preSignature ≠ "" ∧
      w.nonce.isSome ∧ (∀ item ∈ splitPreSignatures preSignature, Numeric (indexText item)) ∧
      ∀ nonce commitments, w.nonce = some nonce →
        (splitPreSignatures preSignature).mapM deserializeSigningCommitment = .ok commitments →
        host.sign block nonce commitments ≠ none := by
  have numeric : (∀ item ∈ splitPreSignatures preSignature, Numeric (indexText item)) ↔
      Returns ((splitPreSignatures preSignature).mapM deserializeSigningCommitment) := by
    simp only [returns_mapM, returns_deserializeSigningCommitment]
  rw [numeric, Host.getSignatureShare, returns_ite_error, returns_ite_error, returns_bind, valid,
    Bool.not_eq_false]
  refine and_congr_right fun _ => and_congr_right fun present => ?_
  obtain ⟨nonce, found⟩ := Option.isSome_iff_exists.mp present
  simp only [found, Option.bind_some]
  constructor
  · rintro ⟨commitments, read, rest⟩
    refine ⟨⟨commitments, read⟩, ?_⟩
    rintro _ _ ⟨⟩ read' refused
    rw [read] at read'
    cases read'
    rw [refused] at rest
    exact not_returns_error _ rest
  · rintro ⟨⟨commitments, read⟩, accepted⟩
    refine ⟨commitments, read, ?_⟩
    cases made : host.sign block nonce commitments with
    | none => exact absurd made (accepted nonce commitments rfl read)
    | some share => exact returns_pure _

theorem finalizeBlock_eq_ok_iff {clusterSize : ℕ} {preSignature : String}
    {signatures : List String} {finalBlock : Block} :
    host.finalizeBlock clusterSize block preSignature signatures = .ok finalBlock ↔
      ∃ responses commitments signature,
        (signatures.map String.toList).mapM deserializeSignatureShare = .ok responses ∧
        (splitPreSignatures preSignature).mapM deserializeSigningCommitment = .ok commitments ∧
        (∀ id ∈ Host.participants clusterSize responses, host.pubkeyLoad id = true) ∧
        host.aggregate block (Host.participants clusterSize responses) commitments responses =
          some signature ∧
        host.verify block signature = true ∧
        host.appendSignetSolution block signature = .ok finalBlock := by
  simp only [Host.finalizeBlock, Host.aggregateSignatureShares, bind_eq_ok_iff]
  constructor
  · rintro ⟨signature, ⟨responses, read, commitments, read', rest⟩, appended⟩
    split at rest
    · cases rest
    rename_i keys
    split at rest
    · cases rest
    rename_i signature' aggregated
    split at rest
    · rename_i verified
      cases rest
      exact ⟨responses, commitments, signature, read, read', not_not.mp keys, aggregated, verified,
        appended⟩
    · cases rest
  · rintro ⟨responses, commitments, signature, read, read', keys, aggregated, verified, appended⟩
    refine ⟨signature, ⟨responses, read, commitments, read', ?_⟩, appended⟩
    rw [if_neg (not_not.mpr keys)]
    simp only [aggregated, verified, if_true]
    rfl

theorem finalizes_iff_usable {n : ℕ} {preSignature : String} {signatures : List String} :
    (∃ finalBlock,
      host.finalizeBlock cfg.clusterSize block preSignature signatures = .ok finalBlock ∧
      (host.getHash finalBlock = host.getHash block → host.submitBlock n finalBlock = true)) ↔
    UsableShares host cfg n preSignature signatures block := by
  have shares : Returns ((signatures.map String.toList).mapM deserializeSignatureShare) ↔
      ∀ share ∈ signatures, Numeric (indexText share.toList) := by
    simp only [returns_mapM, List.forall_mem_map, returns_deserializeSignatureShare]
  have commitments : Returns ((splitPreSignatures preSignature).mapM deserializeSigningCommitment) ↔
      ∀ item ∈ splitPreSignatures preSignature, Numeric (indexText item) := by
    simp only [returns_mapM, returns_deserializeSigningCommitment]
  constructor
  · rintro ⟨finalBlock, finalized, submitted⟩
    obtain ⟨responses, listed, signature, read, read', keys, aggregated, verified, appended⟩ :=
      finalizeBlock_eq_ok_iff.mp finalized
    refine ⟨shares.mp ⟨_, read⟩, commitments.mp ⟨_, read'⟩, ?_⟩
    intro responses' listed' again again'
    cases read.symm.trans again
    cases read'.symm.trans again'
    exact ⟨keys, signature, finalBlock, aggregated, verified, appended, submitted⟩
  · intro usable
    obtain ⟨responses, read⟩ := shares.mpr usable.shares
    obtain ⟨listed, read'⟩ := commitments.mpr usable.commitments
    obtain ⟨keys, signature, finalBlock, aggregated, verified, appended, submitted⟩ :=
      usable.accepted responses listed read read'
    exact ⟨finalBlock, finalizeBlock_eq_ok_iff.mpr
      ⟨responses, listed, signature, read, read', keys, aggregated, verified, appended⟩, submitted⟩

theorem engine_of_failed (done : e.effect host cfg i now p = .ok (false, p')) :
    p'.engine = p.engine := by
  have called : ∀ (a : Action) (q : Process Nonce Block), callEngine cfg i a q = (false, p') →
      q.engine = p.engine → p'.engine = p.engine := by
    intro a q ran same
    rcases callEngine_cases cfg i a q with ⟨t, -, succeeds⟩ | failed
    · rw [succeeds] at ran
      cases ran
    · rw [failed] at ran
      cases ran
      exact same
  cases e with
  | engine a => exact called a p (Except.ok.inj done) rfl
  | sendPrePrepare reqDigest v n generated =>
    cases generated with
    | none =>
      cases done
      rfl
    | some block => exact called _ _ (sendPrePrepareEffect_some.symm.trans (Except.ok.inj done)) rfl
  | receivePrePrepare v n reqDigest proposedBlock senderId senderSig valid =>
    rcases receivePrePrepareEffect_spec (Except.ok.inj done) with ⟨-, rfl⟩ | ⟨-, rfl | ran⟩
    · rfl
    · rfl
    · exact called _ _ ran.symm rfl
  | sendCommit reqDigest v n fresh =>
    exact called _ _ (sendCommitEffect_eq.symm.trans (Except.ok.inj done)) rfl
  | roastReceivePreSignature senderId signers preSignature fresh =>
    rcases roastReceivePreSignatureEffect_spec done with ⟨-, rfl⟩ | ⟨succeeds, -⟩
    · rfl
    · cases succeeds
  | execute reqDigest v n =>
    rcases executeEffect_spec done with ⟨-, rfl⟩ | ⟨stateVal, ran⟩
    · rfl
    · exact called _ _ ran.symm rfl

theorem returnsNormally_iff_returns :
    ReturnsNormally host cfg i now p e ↔ e.Printed ∧ Returns (e.effect host cfg i now p) := by
  refine and_congr_right fun _ => ?_
  constructor
  · rintro ⟨result, q, done, -⟩
    exact ⟨_, done⟩
  · rintro ⟨⟨result, q⟩, done⟩
    refine ⟨result, q, done, ?_⟩
    rintro rfl
    exact engine_of_failed done

theorem returns_roastReceivePreSignature (nonce : NonceUsable p) {senderId : ℕ}
    {signers : List ℕ} {preSignature : String} {fresh : Nonce} :
    Effect.Printed (.roastReceivePreSignature senderId signers preSignature fresh :
        Effect Nonce Block) ∧ Returns (Effect.effect host cfg i now p
          (.roastReceivePreSignature senderId signers preSignature fresh)) ↔
      Usable host cfg i p (.roastReceivePreSignature senderId signers preSignature fresh) := by
  simp only [Effect.Printed, Effect.effect, roastReceivePreSignatureEffect, Usable]
  refine and_congr_right fun _ => ?_
  cases found : p.engine.roast.active with
  | none => simp
  | some active =>
    simp only [returns_bind, Option.some.injEq, forall_eq']
    constructor
    · rintro ⟨⟨m, block⟩, located, rest⟩
      refine ⟨m, block, located, fun selected => ?_⟩
      rw [if_pos selected, returns_bind] at rest
      obtain ⟨signed, ran, -⟩ := rest
      obtain ⟨nonempty, present, numeric, accepted⟩ :=
        (returns_getSignatureShare nonce.valid).mp ⟨signed, ran⟩
      exact ⟨nonempty, numeric, nonce.putOut.mp present, accepted⟩
    · rintro ⟨m, block, located, usable⟩
      refine ⟨(m, block), located, ?_⟩
      simp only
      split
      · rename_i selected
        have usable := usable selected
        obtain ⟨signed, ran⟩ := (returns_getSignatureShare nonce.valid).mpr
          ⟨usable.nonempty, nonce.putOut.mpr usable.advertised, usable.numeric, usable.accepted⟩
        rw [returns_bind]
        exact ⟨signed, ran, returns_pure _⟩
      · exact returns_pure _

theorem returns_execute (full : FullSessions cfg p.engine.roast) {reqDigest : String} {v n : ℕ} :
    Returns (Effect.effect host cfg i now p (.execute reqDigest v n)) ↔
      Usable host cfg i p (.execute reqDigest v n) := by
  have enough : ¬ (finalSignatures cfg p.engine.roast).length <
      ((finalSessions cfg p.engine.roast).flatMap SignatureSession.signers).length :=
    not_lt.mpr full.enoughSignatures.ge
  simp only [Effect.effect, executeEffect, if_neg enough, returns_bind, Usable]
  constructor
  · rintro ⟨⟨m, block⟩, located, finalBlock, finalized, rest⟩
    refine ⟨m, block, located, finalizes_iff_usable.mp ⟨finalBlock, finalized, fun same => ?_⟩⟩
    rw [if_neg (not_not.mpr same)] at rest
    by_contra refused
    rw [if_neg refused] at rest
    exact not_returns_throw _ rest
  · rintro ⟨m, block, located, usable⟩
    obtain ⟨finalBlock, finalized, submitted⟩ := finalizes_iff_usable.mpr usable
    refine ⟨(m, block), located, finalBlock, finalized, ?_⟩
    split
    · exact returns_pure _
    · rename_i same
      rw [if_pos (submitted (not_not.mp same))]
      exact returns_pure _

/-- Along every run: an action comes to its end, and changes nothing in the engine when it
returns 0, exactly when what it reads can be used. -/
theorem returnsNormally_iff_usable (start : InitialProcess cfg p)
    {labels : List (ℚ × Effect Nonce Block)} (run : Path (ProcessStep host cfg i) p labels p')
    (now : ℚ) (e : Effect Nonce Block) :
    ReturnsNormally host cfg i now p' e ↔ Usable host cfg i p' e := by
  rw [returnsNormally_iff_returns]
  cases e with
  | roastReceivePreSignature senderId signers preSignature fresh =>
    exact returns_roastReceivePreSignature (NonceUsable.of_run start run)
  | execute reqDigest v n =>
    have printed : Effect.Printed (.execute reqDigest v n : Effect Nonce Block) := trivial
    rw [and_iff_right printed]
    exact returns_execute (FullSessions.reachable (ProcessStep.engine_reachable start run))
  | engine a => exact iff_of_true ⟨trivial, returns_ok _⟩ trivial
  | sendPrePrepare reqDigest v n generated => exact iff_of_true ⟨trivial, returns_ok _⟩ trivial
  | receivePrePrepare v n reqDigest proposedBlock senderId senderSig valid =>
    exact iff_of_true ⟨trivial, returns_ok _⟩ trivial
  | sendCommit reqDigest v n fresh => exact iff_of_true ⟨trivial, returns_ok _⟩ trivial

/-- With the shares of the COMMITs replica 1 answers: the block of the active session is in the log,
and the pre-signature has two commitments with an index, of which the second is its own. -/
theorem returnsNormally_commitsWithNonce : ∃ p,
    execEffects (textHost 1) fourReplicas 1 AlwaysApplies commitsWithNonce genesisProcess = some p ∧
    p.engine.roast.active = some ⟨0, 1, "(H=1, T=60)"⟩ ∧
    UsablePreSignature (textHost 1) p "1::3::3+2::7::7" "B60" ∧
    ReturnsNormally (textHost 1) fourReplicas 1 60 p
      (.roastReceivePreSignature 0 [0, 1] "1::3::3+2::7::7" 8) := by
  have runs : ∃ p, execEffects (textHost 1) fourReplicas 1 AlwaysApplies commitsWithNonce
      genesisProcess = some p ∧ p.engine.roast.active = some ⟨0, 1, "(H=1, T=60)"⟩ ∧
      findByVNReq 0 1 "(H=1, T=60)" p.engine =
        some ⟨0, 1, "(H=1, T=60)", some "B60", 0, "S0"⟩ ∧ p.advertised ≠ [] := by
    decide +kernel
  obtain ⟨p, ran, running, found, advertised⟩ := runs
  have read : ((splitPreSignatures "1::3::3+2::7::7").mapM deserializeSigningCommitment).toOption =
      some [⟨1, "3::3".toList, ['3']⟩, ⟨2, "7::7".toList, ['7']⟩] := by
    decide +kernel
  have usable : UsablePreSignature (textHost 1) p "1::3::3+2::7::7" "B60" := by
    refine ⟨by decide, by decide +kernel, advertised, fun nonce commitments _ listed => ?_⟩
    rw [eq_ok_of_toOption read] at listed
    cases listed
    exact Option.some_ne_none _
  have path := (execEffects_path _ _ _ ran).unguard
  refine ⟨p, ran, running, usable,
    (returnsNormally_iff_usable genesisProcess_initial path 60 _).mpr ⟨by decide, ?_⟩⟩
  intro active present
  cases running.symm.trans present
  have logged : findProposedBlock (textHost 1) 0 1 "(H=1, T=60)" p.engine =
      .ok (⟨0, 1, "(H=1, T=60)", some "B60", 0, "S0"⟩, "B60") := by
    rw [findProposedBlock, found]
    rfl
  exact ⟨_, _, logged, fun _ => usable⟩

/-- Replica 3 asks replica 1 with a pre-signature that has no index. -/
theorem throws_withoutIndex : ∃ p,
    Reachable (InitialProcess fourReplicas) (ProcessStep (textHost 1) fourReplicas 1) p ∧
    ((Effect.effect (textHost 1) fourReplicas 1 60 p
      (.roastReceivePreSignature 3 [1, 3] "x" 8)) matches .error .invalidArgument) ∧
    ¬ ReturnsNormally (textHost 1) fourReplicas 1 60 p
      (.roastReceivePreSignature 3 [1, 3] "x" 8) := by
  have runs : ∃ p, execEffects (textHost 1) fourReplicas 1 AlwaysApplies commitsWithNonce
      genesisProcess = some p ∧ ((Effect.effect (textHost 1) fourReplicas 1 60 p
        (.roastReceivePreSignature 3 [1, 3] "x" 8)) matches .error .invalidArgument) := by
    decide +kernel
  obtain ⟨p, ran, thrown⟩ := runs
  refine ⟨p, ⟨_, _, genesisProcess_initial, (execEffects_path _ _ _ ran).unguard⟩, thrown, ?_⟩
  rintro ⟨-, result, q, done, -⟩
  rw [done] at thrown
  cases thrown

end Fbft
