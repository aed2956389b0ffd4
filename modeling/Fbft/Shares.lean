import Fbft.Process

/-! To whom a replica releases signature shares, and with which nonce. The wallet has one nonce,
and its share is the last that the replica has put out; a PRE_SIGNATURE carries no view and no
height, and neither its sender nor the commitments in it are checked. -/
namespace Fbft

open CppString Throwing LabelledPath

variable {Nonce Block : Type} {host : Host Nonce Block} {cfg : Config} {i : ℕ} {now : ℚ}
  {p p' : Process Nonce Block} {e : Effect Nonce Block}

def listedCommitments (i : ℕ) (preSignature : String) : List (List Char) :=
  (splitPreSignatures preSignature).filter fun item =>
    (deserializeSigningCommitment item).toOption.map NonceCommitment.index = some (i + 1)

/-- The sender is the coordinator of the active session, and what the pre-signature lists for
the replica is the commitment of the nonce. -/
def Authorised (host : Host Nonce Block) (cfg : Config) (i senderId : ℕ) (preSignature : String)
    (active : RoastActive) (nonce : Nonce) : Prop :=
  senderId = primary cfg active.v ∧ listedCommitments i preSignature =
    [(serializeSigningCommitment (host.commitments nonce)).toList]

/-- A share that is released while the session is active, with the nonce that made it. -/
structure Releases (host : Host Nonce Block) (i : ℕ) (signers : List ℕ) (preSignature : String)
    (p : Process Nonce Block) (active : RoastActive) (nonce : Nonce) (signatureShare : String) :
    Prop where
  active : p.engine.roast.active = some active
  selected : i ∈ signers
  present : p.wallet.nonce = some nonce
  made : ∃ block commitments share, host.sign block nonce commitments = some share ∧
    (splitPreSignatures preSignature).mapM deserializeSigningCommitment = .ok commitments ∧
    signatureShare = serializeSignatureShare share

/-- The sender is the primary of the view of the active session, and its pre-signature has
for the replica the share that the replica has put out last, and no other. -/
def AnswersLatest (cfg : Config) (i senderId : ℕ) (preSignature : String)
    (p : Process Nonce Block) : Prop :=
  (∃ active, p.engine.roast.active = some active ∧ senderId = primary cfg active.v) ∧
    ∃ latest earlier, p.advertised = latest :: earlier ∧
      listedCommitments i preSignature = [latest.toList]

/-- The share of the nonce in the wallet is the last one put out. -/
def NonceAdvertised (host : Host Nonce Block) (p : Process Nonce Block) : Prop :=
  p.advertised.head? =
    p.wallet.nonce.map fun nonce => serializeSigningCommitment (host.commitments nonce)

namespace NonceAdvertised

theorem initial (start : InitialProcess cfg p) : NonceAdvertised host p := by
  simp [NonceAdvertised, start.wallet, start.advertised]

theorem step (advertised : NonceAdvertised host p) (step : ProcessStep host cfg i p (now, e) p') :
    NonceAdvertised host p' := by
  unfold NonceAdvertised at *
  rcases step.wallet_cases with ⟨wallet, same⟩ | ⟨fresh, wallet, renewed, -⟩
  · rw [wallet, same]
    exact advertised
  · simp [wallet, renewed]

end NonceAdvertised

theorem releases_of_effect {senderId : ℕ} {signers : List ℕ} {preSignature : String}
    {fresh : Nonce} (done : Effect.effect host cfg i now p
      (.roastReceivePreSignature senderId signers preSignature fresh) = .ok (true, p')) :
    ∃ active nonce signatureShare, Releases host i signers preSignature p active nonce
      signatureShare ∧ .roastSignatureShare signatureShare
        (serializeSigningCommitment (host.commitments fresh)) ∈ p'.engine.roast.msgOut := by
  rcases roastReceivePreSignatureEffect_spec done with ⟨failed, -⟩ | ⟨-, m, block, share, answers⟩
  · cases failed
  obtain ⟨active, found, -⟩ := answers.active
  obtain ⟨wallet, signed⟩ := answers.signed
  obtain ⟨nonce, commitments, share', present, -, read, made, same⟩ := Host.getSignatureShare_spec signed
  exact ⟨active, nonce, share, ⟨found, answers.selected, present, block, commitments, share', made,
    read, same⟩, answers.putsOut⟩

/-- Along every run: a share that is released goes to the coordinator, for the advertised
nonce, exactly when the coordinator has asked with the latest share. -/
theorem releases_authorised_iff (start : InitialProcess cfg p)
    {labels : List (ℚ × Effect Nonce Block)}
    (run : Path (ProcessStep host cfg i) p labels p') {senderId : ℕ} {signers : List ℕ}
    {preSignature : String} {fresh : Nonce} {q : Process Nonce Block}
    (done : Effect.effect host cfg i now p'
      (.roastReceivePreSignature senderId signers preSignature fresh) = .ok (true, q)) :
    ∃ active nonce signatureShare, Releases host i signers preSignature p' active nonce
        signatureShare ∧
      .roastSignatureShare signatureShare (serializeSigningCommitment (host.commitments fresh)) ∈
        q.engine.roast.msgOut ∧
      (Authorised host cfg i senderId preSignature active nonce ↔
        AnswersLatest cfg i senderId preSignature p') := by
  have preserved : ∀ q l q', NonceAdvertised host q → ProcessStep host cfg i q l q' →
      NonceAdvertised host q' := fun q l q' holds step => holds.step step
  have advertised := run.invariant preserved (NonceAdvertised.initial start)
  obtain ⟨active, nonce, share, releases, putsOut⟩ := releases_of_effect done
  refine ⟨active, nonce, share, releases, putsOut, ?_⟩
  unfold NonceAdvertised at advertised
  rw [releases.present, Option.map_some] at advertised
  obtain ⟨earlier, latest⟩ := List.head?_eq_some_iff.mp advertised
  constructor
  · rintro ⟨sender, listed⟩
    exact ⟨⟨active, releases.active, sender⟩, _, earlier, latest, listed⟩
  · rintro ⟨⟨active', found, sender⟩, share', earlier', same, listed⟩
    cases found.symm.trans releases.active
    cases same.symm.trans latest
    exact ⟨sender, listed⟩

def commitsWithNonce : List (ℚ × Effect ℕ String) :=
  [(60, .engine (.receiveRequest "(H=1, T=60)" 60)),
    (60, .receivePrePrepare 0 1 "(H=1, T=60)" "B60" 0 "S0" true),
    (60, .engine (.sendPrepare "(H=1, T=60)" 0 1)),
    (60, .engine (.receivePrepare 0 1 "(H=1, T=60)" 2 "S2")),
    (60, .sendCommit "(H=1, T=60)" 0 1 7),
    (60, .engine (.receiveCommit 0 1 "1::3::3" 0 "S0")),
    (60, .engine (.receiveCommit 0 1 "3::2::2" 2 "S2")),
    (60, .engine (.roastInit "(H=1, T=60)" 0 1))]

/-- The coordinator asks with the shares of the COMMITs. -/
theorem releases_authorised_commitsWithNonce : ∃ p active nonce signatureShare,
    execEffects (textHost 1) fourReplicas 1 AlwaysApplies commitsWithNonce genesisProcess = some p ∧
    Releases (textHost 1) 1 [0, 1] "1::3::3+2::7::7" p active nonce signatureShare ∧
    Authorised (textHost 1) fourReplicas 1 0 "1::3::3+2::7::7" active nonce := by
  have runs : ∃ p, execEffects (textHost 1) fourReplicas 1 AlwaysApplies commitsWithNonce
      genesisProcess = some p ∧
      ((Effect.effect (textHost 1) fourReplicas 1 60 p
        (.roastReceivePreSignature 0 [0, 1] "1::3::3+2::7::7" 8)).toOption.map Prod.fst) =
          some true ∧
      p.engine.roast.active = some ⟨0, 1, "(H=1, T=60)"⟩ ∧ p.advertised = ["2::7::7"] ∧
      listedCommitments 1 "1::3::3+2::7::7" = ["2::7::7".toList] := by
    decide +kernel
  obtain ⟨p, ran, succeeds, found, advertised, listed⟩ := runs
  obtain ⟨⟨result, q⟩, done, true⟩ := Option.map_eq_some_iff.mp succeeds
  cases true
  obtain ⟨active, nonce, share, releases, -, authorised⟩ := releases_authorised_iff
    genesisProcess_initial (execEffects_path _ _ _ ran).unguard (eq_ok_of_toOption done)
  exact ⟨p, active, nonce, share, ran, releases,
    authorised.mpr ⟨⟨_, found, by decide⟩, _, [], advertised, listed⟩⟩

/-- Replica 3, which coordinates nothing, asks with a commitment that replica 1 never made, and
gets its share. -/
theorem releases_not_authorised : ∃ p q active nonce signatureShare,
    Reachable (InitialProcess fourReplicas) (ProcessStep (textHost 1) fourReplicas 1) p ∧
    ProcessStep (textHost 1) fourReplicas 1 p
      (60, .roastReceivePreSignature 3 [1, 3] "2::5::5+4::1::1" 8) q ∧
    Releases (textHost 1) 1 [1, 3] "2::5::5+4::1::1" p active nonce signatureShare ∧
    3 ≠ primary fourReplicas active.v ∧
    listedCommitments 1 "2::5::5+4::1::1" ≠
      [(serializeSigningCommitment ((textHost 1).commitments nonce)).toList] ∧
    ¬ Authorised (textHost 1) fourReplicas 1 3 "2::5::5+4::1::1" active nonce := by
  have runs : ∃ p, execEffects (textHost 1) fourReplicas 1 AlwaysApplies commitsWithNonce
      genesisProcess = some p ∧
      ((Effect.effect (textHost 1) fourReplicas 1 60 p
        (.roastReceivePreSignature 3 [1, 3] "2::5::5+4::1::1" 8)).toOption.map Prod.fst) =
          some true ∧
      p.engine.roast.active = some ⟨0, 1, "(H=1, T=60)"⟩ ∧ p.wallet.nonce = some 7 := by
    decide +kernel
  obtain ⟨p, ran, succeeds, found, seven⟩ := runs
  obtain ⟨⟨result, q⟩, done, true⟩ := Option.map_eq_some_iff.mp succeeds
  cases true
  have done := eq_ok_of_toOption done
  obtain ⟨active, nonce, share, releases, -⟩ := releases_of_effect done
  cases found.symm.trans releases.active
  cases seven.symm.trans releases.present
  have foreign : 3 ≠ primary fourReplicas 0 := by decide
  have forged : listedCommitments 1 "2::5::5+4::1::1" ≠
      [(serializeSigningCommitment ((textHost 1).commitments 7)).toList] := by decide +kernel
  exact ⟨p, q, _, 7, share, ⟨_, _, genesisProcess_initial, (execEffects_path _ _ _ ran).unguard⟩,
    ⟨trivial, _, done⟩, releases, foreign, forged, fun authorised => foreign authorised.1⟩

end Fbft
