import Fbft.Acceptance
import Fbft.PreSignatures
import Fbft.Process

/-! A message that is delivered twice. Most tables keep a fact once; a share for the
coordinator, however, is taken in again, and an answer of the wallet is made anew. -/
namespace Fbft

open Database LabelledPath Throwing

variable {cfg : Config} {i j : ℕ} {now : ℚ} {s t : Replica} {r r' r'' : Roast}
  {share : Option String} {next : String}

/-- The share ends the session of its signer; or the signer is in no session, has answered
before and stays below the threshold. -/
def AbsorbsShare (cfg : Config) (j : ℕ) (r : Roast) : Prop :=
  match roastSignersSid j r with
  | some sid => ∃ e ∈ roastSignatureSession sid r, e.signatureShares.length + 1 = sigQuorum cfg
  | none => (j ∈ r.maliciousSigner ∨ j ∈ r.responsiveSigner) ∧
      (roastMarkResponsive j r).responsiveSigner.length ≠ sigQuorum cfg

instance : Decidable (AbsorbsShare cfg j r) := by
  dsimp only [AbsorbsShare]
  cases roastSignersSid j r <;> dsimp only <;> infer_instance

theorem receive_stored {active : RoastActive} {stored : Roast} (running : r.active = some active)
    (notFinal : ¬ roastFinalSignatureSession cfg r) (coordinator : primary cfg active.v = i)
    (store : storeSignatureShare j share (markUnsolicited j r) = some stored) :
    applyReceiveSigShare cfg j share next i r =
      if roastFinalSignatureSession cfg stored then some stored
      else initiateSession cfg (hear j next stored) := by
  unfold applyReceiveSigShare
  simp only [running, if_neg notFinal, coordinator, ne_eq, not_true_eq_false, if_false]
  rw [store]
  rfl

theorem receive_changes {active : RoastActive} {sid : ℕ} {e : SignatureSession}
    (running : r.active = some active) (notFinal : ¬ roastFinalSignatureSession cfg r)
    (coordinator : primary cfg active.v = i) (recorded : roastSignersSid j r = some sid)
    (found : roastSignatureSession sid r = some e)
    (latest : ∃ x ∈ r.latestPreSignatureShare, x.1 = j)
    (counter : (hear j next r).responsiveSigner.length = sigQuorum cfg →
      r.sessionCounter ≠ none) :
    ∃ r', applyReceiveSigShare cfg j share next i r = some r' ∧ r' ≠ r := by
  obtain ⟨malicious, marked, -⟩ := markUnsolicited_frame j r
  let longer : SignatureSession := { e with signatureShares := e.signatureShares ++ [share] }
  let stored : Roast := setRoastSignatureSession longer { r with maliciousSigner := malicious }
  have number : longer.sessionId = sid := (roastSignatureSession_spec found).2
  have store : storeSignatureShare j share (markUnsolicited j r) = some stored := by
    have recorded' : roastSignersSid j { r with maliciousSigner := malicious } = some sid := recorded
    have found' : roastSignatureSession sid { r with maliciousSigner := malicious } = some e := found
    simp only [storeSignatureShare, marked, recorded', found']
    rw [if_pos]
    simpa using latest
  have lookup : roastSignatureSession sid stored = some longer := by
    rw [roastSignatureSession_setRoastSignatureSession, if_pos number.symm]
  have differs : ∀ r' : Roast, r'.signatureSession = stored.signatureSession → r' ≠ r := by
    rintro r' same rfl
    have again : roastSignatureSession sid r' = some longer := by
      rw [← lookup, roastSignatureSession, roastSignatureSession, same]
    rw [found] at again
    have lengths := congrArg (fun e => e.signatureShares.length) (Option.some.inj again)
    simp [longer] at lengths
  have received : applyReceiveSigShare cfg j share next i r = _ :=
    receive_stored running notFinal coordinator store
  by_cases final : roastFinalSignatureSession cfg stored
  · rw [received, if_pos final]
    exact ⟨stored, rfl, differs stored rfl⟩
  rw [received, if_neg final]
  have same : (hear j next stored).responsiveSigner = (hear j next r).responsiveSigner := rfl
  by_cases enough : (hear j next r).responsiveSigner.length = sigQuorum cfg
  · obtain ⟨c, current⟩ := Option.ne_none_iff_exists'.mp (counter enough)
    have current' : (hear j next stored).sessionCounter = some c := current
    obtain ⟨r', opened⟩ : ∃ r', initiateSession cfg (hear j next stored) = some r' := by
      unfold initiateSession
      rw [if_pos (same ▸ enough), current']
      exact ⟨_, rfl⟩
    refine ⟨r', opened, ?_⟩
    rintro rfl
    rcases initiateSession_spec opened with ⟨few, -⟩ | ⟨-, c', before, -, -, -, -, after, -⟩
    · exact few (same ▸ enough)
    · rw [current'] at before
      cases before
      rw [current] at after
      have number := Option.some.inj after
      omega
  · refine ⟨hear j next stored, ?_, differs _ rfl⟩
    unfold initiateSession
    exact if_neg (same ▸ enough)

theorem receive_changes_of_opened {active : RoastActive} {stored : Roast}
    (running : stored.active = some active) (notFinal : ¬ roastFinalSignatureSession cfg stored)
    (coordinator : primary cfg active.v = i)
    (enough : (hear j next stored).responsiveSigner.length = sigQuorum cfg)
    (opened : initiateSession cfg (hear j next stored) = some r) :
    ∃ r', applyReceiveSigShare cfg j share next i r = some r' ∧ r' ≠ r := by
  rcases initiateSession_spec opened with ⟨few, -⟩ | ⟨-, c, current, active', -, -, latest, counter,
    sid, sessions, -⟩
  · exact absurd enough few
  have responsive : j ∈ (hear j next stored).responsiveSigner := by simp
  have recorded : roastSignersSid j r = some (c + 1) := by rw [sid, if_pos responsive]
  have found : roastSignatureSession (c + 1) r = some (nextSession c (hear j next stored)) := by
    rw [roastSignatureSession_initiateSession opened current counter, if_pos rfl]
  refine receive_changes (active'.trans running) ?_ coordinator recorded found ?_
    (fun _ => by simp [counter])
  · rintro ⟨-, e, inside, full⟩
    rcases (sessions e).mp inside with ⟨old, -⟩ | rfl
    · exact notFinal ⟨by simp [running], e, old, full⟩
    · have someone := List.length_pos_of_mem responsive
      simp only [nextSession, List.length_nil] at full
      omega
  · rw [latest]
    exact ⟨(j, next), by simp, rfl⟩

theorem hear_hear (j : ℕ) (next : String) (r : Roast) :
    hear j next (hear j next r) = hear j next r := by
  simp [hear, roastMarkResponsive, setLatestPreSignatureShare, assertzOnce_of_not_mem,
    List.filter_append, List.filter_filter]

/-- A share that left no session open was for nobody: of the second one only the mark of the
signer is left. -/
theorem receive_again_of_none {active : RoastActive} (running : r.active = some active)
    (notFinal : ¬ roastFinalSignatureSession cfg r) (coordinator : primary cfg active.v = i)
    (absent : roastSignersSid j r = none)
    (few : (hear j next r).responsiveSigner.length ≠ sigQuorum cfg) :
    applyReceiveSigShare cfg j share next i (hear j next r) =
      some (roastMarkMalicious j (hear j next r)) := by
  have store : storeSignatureShare j share (markUnsolicited j (hear j next r)) =
      some (roastMarkMalicious j (hear j next r)) := by
    have absent' : roastSignersSid j (roastMarkMalicious j (hear j next r)) = none := absent
    rw [markUnsolicited_of_mem (by simp)]
    simp [storeSignatureShare, absent']
  have notFinal' : ¬ roastFinalSignatureSession cfg (hear j next r) := notFinal
  have notFinal'' : ¬ roastFinalSignatureSession cfg (roastMarkMalicious j (hear j next r)) := notFinal
  have running' : (hear j next r).active = some active := running
  have heard : hear j next (roastMarkMalicious j (hear j next r)) =
      roastMarkMalicious j (hear j next (hear j next r)) := rfl
  rw [receive_stored running' notFinal' coordinator store, if_neg notFinal'', heard, hear_hear]
  exact if_neg few

/-- A share that belongs to a session makes it final, or may be given again. -/
theorem share_again_of_some {sid : ℕ} (h : applyReceiveSigShare cfg j share next i r = some r')
    (recorded : roastSignersSid j r = some sid) :
    (∀ r'', applyReceiveSigShare cfg j share next i r' = some r'' → r'' = r') ↔
      ∃ e ∈ roastSignatureSession sid r, e.signatureShares.length + 1 = sigQuorum cfg := by
  obtain ⟨active, running, notFinal, coordinator, stored, store, rest⟩ := applyReceiveSigShare_spec h
  obtain ⟨malicious, marked, -⟩ := markUnsolicited_frame j r
  rw [marked] at store
  have recorded' : roastSignersSid j { r with maliciousSigner := malicious } = some sid := recorded
  obtain ⟨e, found, latest, same⟩ := storeSignatureShare_of_some recorded' store
  have found' : roastSignatureSession sid r = some e := found
  obtain ⟨-, rfl⟩ := roastSignatureSession_spec found'
  have running' : stored.active = some active := by rw [same]; exact running
  have recorded'' : roastSignersSid j stored = some e.sessionId := by rw [same]; exact recorded
  have lookup : roastSignatureSession e.sessionId stored =
      some { e with signatureShares := e.signatureShares ++ [share] } := by
    rw [same, roastSignatureSession_setRoastSignatureSession, if_pos rfl]
  have full_iff : roastFinalSignatureSession cfg stored ↔
      e.signatureShares.length + 1 = sigQuorum cfg := by
    have notFinal' : ¬ roastFinalSignatureSession cfg { r with maliciousSigner := malicious } :=
      notFinal
    rw [same, final_setRoastSignatureSession_iff (by simp [running]) notFinal']
    simp
  simp only [found', Option.mem_def, Option.some.injEq, exists_eq_left', ← full_iff]
  rcases rest with ⟨final, rfl⟩ | ⟨notFinal', opened⟩
  · refine iff_of_true (fun r'' again => ?_) final
    obtain ⟨-, -, notFinal', -⟩ := applyReceiveSigShare_spec again
    exact absurd final notFinal'
  refine iff_of_false (fun same => ?_) notFinal'
  have changes : ∃ r'', applyReceiveSigShare cfg j share next i r' = some r'' ∧ r'' ≠ r' := by
    by_cases enough : (hear j next stored).responsiveSigner.length = sigQuorum cfg
    · exact receive_changes_of_opened running' notFinal' coordinator enough opened
    rcases initiateSession_spec opened with ⟨few, kept⟩ | ⟨enough', -⟩
    · have heard : r' = hear j next stored := kept
      rw [heard]
      have running'' : (hear j next stored).active = some active := running'
      have lookup' : roastSignatureSession e.sessionId (hear j next stored) = _ := lookup
      refine receive_changes running'' notFinal' coordinator recorded'' lookup' ?_ ?_
      · exact ⟨(j, next), mem_setLatestPreSignatureShare.mpr (Or.inr rfl), rfl⟩
      · rw [hear_hear]
        exact fun enough' => absurd enough' enough
    · exact absurd enough' enough
  obtain ⟨r'', again, differs⟩ := changes
  exact differs (same r'' again)

theorem mem_markUnsolicited {malicious : List ℕ}
    (marked : markUnsolicited j r = { r with maliciousSigner := malicious }) :
    j ∈ malicious ↔ j ∈ r.maliciousSigner ∨ j ∈ r.responsiveSigner := by
  have marks : malicious = (markUnsolicited j r).maliciousSigner := by rw [marked]
  rw [marks, mem_maliciousSigner_markUnsolicited, and_iff_right rfl]

/-- Exactly when a share that is received twice leaves what it leaves once. -/
theorem share_again_iff (h : applyReceiveSigShare cfg j share next i r = some r') :
    (∀ r'', applyReceiveSigShare cfg j share next i r' = some r'' → r'' = r') ↔
      AbsorbsShare cfg j r := by
  cases recorded : roastSignersSid j r with
  | some sid =>
    rw [share_again_of_some h recorded, AbsorbsShare, recorded]
  | none =>
    obtain ⟨active, running, notFinal, coordinator, -⟩ := applyReceiveSigShare_spec h
    obtain ⟨malicious, marked, -⟩ := markUnsolicited_frame j r
    have opened : initiateSession cfg (hear j next { r with maliciousSigner := malicious }) =
        some r' := by
      cases applyReceiveSigShare_called h with
      | alone absent opened => rwa [marked] at opened
      | completes e recorded' | stores e recorded' => cases recorded.symm.trans recorded'
    simp only [AbsorbsShare, recorded]
    rcases initiateSession_spec opened with ⟨few, rfl⟩ | ⟨enough, -⟩
    · have again : applyReceiveSigShare cfg j share next i
          (hear j next { r with maliciousSigner := malicious }) = _ :=
        receive_again_of_none running notFinal coordinator recorded few
      have below : (roastMarkResponsive j r).responsiveSigner.length ≠ sigQuorum cfg := few
      rw [and_iff_left below, ← mem_markUnsolicited marked]
      constructor
      · intro same
        have marks' : assertzOnce j malicious = malicious :=
          congrArg Roast.maliciousSigner (same _ again)
        rw [← marks']
        exact mem_assertzOnce.mpr (Or.inr rfl)
      · intro member r'' again'
        have kept : roastMarkMalicious j (hear j next { r with maliciousSigner := malicious }) =
            hear j next { r with maliciousSigner := malicious } := by
          have stays : assertzOnce j
              (hear j next { r with maliciousSigner := malicious }).maliciousSigner = malicious :=
            assertzOnce_of_mem member
          rw [roastMarkMalicious, stays]
          rfl
        exact Option.some.inj (again'.symm.trans (again.trans (congrArg some kept)))
    · refine iff_of_false (fun same => ?_) (fun absorbs => absorbs.2 enough)
      have running' : { r with maliciousSigner := malicious }.active = some active := running
      obtain ⟨r'', again, differs⟩ := receive_changes_of_opened running' notFinal coordinator enough
        opened
      exact differs (same r'' again)

/-- What an action does to the state that it has left before. -/
def Action.Settled (cfg : Config) (i : ℕ) (a : Action) (t : Replica) : Prop :=
  ∀ t', a.apply cfg i t = some t' → t' = t

theorem receivePrePrepare_settled {v n : ℕ} {reqDigest data senderSig : String}
    (received : (Action.receivePrePrepare v n reqDigest data j senderSig).apply cfg i s = some t) :
    (Action.receivePrePrepare v n reqDigest data j senderSig).Settled cfg i t := by
  intro t' again
  simp only [Action.apply, applyReceivePrePrepare] at received again
  split at received
  · cases received
    split at again
    · cases again
      simp only [msgLogAddPrePrepare]
      rw [assertzOnceBy_idem (by simp [PrePrepare.unifies, Data.unifies])]
    · cases again
  · cases received

theorem receivePrepare_settled {v n : ℕ} {reqDigest senderSig : String}
    (received : (Action.receivePrepare v n reqDigest j senderSig).apply cfg i s = some t) :
    (Action.receivePrepare v n reqDigest j senderSig).Settled cfg i t := by
  intro t' again
  simp only [Action.apply, applyReceivePrepare] at received again
  split at received
  · cases received
    split at again
    · cases again
      simp only [msgLogAddPrepare, assertzOnce_idem]
    · cases again
  · cases received

/-- A VIEW_CHANGE is not taken from a sender who has one in the log. -/
theorem receiveViewChange_settled {v hi : ℕ} {c senderSig : String} {pi : List PiEntry}
    {qi : List QiEntry}
    (received : (Action.receiveViewChange v hi c pi qi j senderSig).apply cfg i s = some t) :
    (Action.receiveViewChange v hi c pi qi j senderSig).Settled cfg i t := by
  intro t' again
  simp only [Action.apply, applyReceiveViewChange] at received again
  split at received
  · cases received
    rw [if_neg] at again
    · cases again
    · rintro ⟨-, -, -, absent⟩
      exact absent ⟨_, mem_assertzOnce.mpr (Or.inr rfl), rfl, rfl⟩
  · cases received

theorem receiveNewView_settled {v : ℕ} {nu : List NuEntry} {chi : List ChiEntry}
    {senderSig : String}
    (received : (Action.receiveNewView v nu chi j senderSig).apply cfg i s = some t) :
    (Action.receiveNewView v nu chi j senderSig).Settled cfg i t := by
  intro t' again
  simp only [Action.apply, applyReceiveNewView] at received again
  split at received
  · split at received
    · cases received
      rename_i allowed present
      rw [if_pos allowed, if_pos present] at again
      exact (Option.some.inj again).symm
    · cases received
      split at again
      · split at again
        · exact (Option.some.inj again).symm
        · cases again
          simp only [msgLogAddNewView]
          rw [assertzOnceBy_idem (by simp [NewView.unifies, unifyChi_self])]
      · cases again
  · cases received

theorem receiveSigShare_settled_iff {signatureShare : String}
    (received : (Action.receiveSigShare j signatureShare next).apply cfg i s = some t) :
    (Action.receiveSigShare j signatureShare next).Settled cfg i t ↔
      AbsorbsShare cfg j s.roast := by
  simp only [Action.apply, updateRoast, Option.map_eq_some_iff] at received
  obtain ⟨r, taken, rfl⟩ := received
  rw [← share_again_iff taken]
  simp only [Action.Settled, Action.apply, updateRoast, Option.map_eq_some_iff]
  constructor
  · intro settled r'' again
    exact congrArg Replica.roast (settled _ ⟨r'', again, rfl⟩)
  · rintro settled t' ⟨r'', again, rfl⟩
    rw [settled r'' again]

theorem applyReceiveCommit_inside {v n : ℕ} {data senderSig : String} (other : j ≠ i)
    (inside : inWv v n s) :
    applyReceiveCommit cfg v n data j senderSig i s =
      if commitFeedsRoast cfg v n i s.roast then
        (applyReceiveSigShare cfg j none data i s.roast).map fun r =>
          { msgLogAddCommit ⟨v, n, data, j, senderSig⟩ s with roast := r }
      else some (msgLogAddCommit ⟨v, n, data, j, senderSig⟩ s) := by
  rw [applyReceiveCommit, if_neg other, if_pos inside]
  rfl

/-- A COMMIT that counts as an answer to the coordinator is a share without a share in it. -/
theorem receiveCommit_settled_iff {v n : ℕ} {data senderSig : String}
    (received : (Action.receiveCommit v n data j senderSig).apply cfg i s = some t) :
    (Action.receiveCommit v n data j senderSig).Settled cfg i t ↔
      (inWv v n s → commitFeedsRoast cfg v n i s.roast → AbsorbsShare cfg j s.roast) := by
  simp only [Action.Settled, Action.apply] at received ⊢
  have other : j ≠ i := by
    rintro rfl
    simp [applyReceiveCommit] at received
  by_cases inside : inWv v n s
  · rw [applyReceiveCommit_inside other inside] at received
    by_cases feeds : commitFeedsRoast cfg v n i s.roast
    · rw [if_pos feeds] at received
      obtain ⟨r, taken, rfl⟩ := Option.map_eq_some_iff.mp received
      rw [forall_prop_of_true inside, forall_prop_of_true feeds, ← share_again_iff taken]
      rw [applyReceiveCommit_inside other (by exact inside)]
      simp only [msgLogAddCommit, assertzOnce_idem]
      by_cases again : commitFeedsRoast cfg v n i r
      · rw [if_pos again]
        constructor
        · intro settled r'' taken'
          exact congrArg Replica.roast (settled _ (Option.map_eq_some_iff.mpr ⟨r'', taken', rfl⟩))
        · intro settled t' received
          obtain ⟨r'', taken', rfl⟩ := Option.map_eq_some_iff.mp received
          rw [settled r'' taken']
      · rw [if_neg again]
        refine iff_of_true (fun t' same => (Option.some.inj same).symm) (fun r'' taken' => ?_)
        obtain ⟨-, same⟩ := applyReceiveSigShare_active taken
        obtain ⟨-, -, notFinal, -⟩ := applyReceiveSigShare_spec taken'
        exact absurd ⟨same ▸ feeds.1, feeds.2.1, notFinal⟩ again
    · rw [if_neg feeds] at received
      cases received
      rw [applyReceiveCommit_inside other (by exact inside), if_neg (by exact feeds)]
      simp only [msgLogAddCommit, assertzOnce_idem]
      exact iff_of_true (fun t' same => (Option.some.inj same).symm)
        (fun _ feeds' => absurd feeds' feeds)
  · refine iff_of_true (fun t' again => ?_) (fun inside' => absurd inside' inside)
    rw [applyReceiveCommit, if_neg other, if_neg inside] at received
    split at received
    · rename_i ahead
      cases received
      rw [applyReceiveCommit, if_neg other, if_neg (by exact inside), if_pos (by exact ahead)] at again
      cases again
      simp only [msgLogAddCommitViewRecovery, assertzOnce_idem]
    · cases received

section

variable {Nonce Block : Type}

def Incoming.receiveAction (codec : BlockCodec Block) (cfg : Config) (valid : Bool) (fresh : Nonce) :
    Incoming Block → Effect Nonce Block
  | commit m => .engine
      (.receiveCommit m.view m.seqNumber m.preSignature m.senderId m.signature)
  | newView m => .engine
      (.receiveNewView m.view (m.nu cfg) (m.chi codec) m.senderId m.signature)
  | prepare m => .engine
      (.receivePrepare m.view m.seqNumber m.reqDigest m.senderId m.signature)
  | prePrepare m =>
    .receivePrePrepare m.view m.seqNumber m.reqDigest m.proposedBlock m.senderId m.signature valid
  | roastPreSignature m => .roastReceivePreSignature m.senderId m.signers m.preSignature fresh
  | roastSignatureShare m => .engine
      (.receiveSigShare m.senderId m.signatureShare m.nextPreSignatureShare)
  | viewChange m => .engine
      (.receiveViewChange m.view m.hi m.c m.pi m.qiAsTerm m.senderId m.signature)

def Host.answer (host : Host Nonce Block) (block : Block) (commitments : List NonceCommitment)
    (nonce fresh : Nonce) : Option Message :=
  (host.sign block nonce commitments).map fun share =>
    .roastSignatureShare (serializeSignatureShare share)
      (serializeSigningCommitment (host.commitments fresh))

/-- With the nonce put out by the first answer the wallet does not sign, or its answer is out
before the second delivery. -/
def AnswersOnce (host : Host Nonce Block) (preSignature : String) (fresh fresh' : Nonce)
    (p : Process Nonce Block) : Prop :=
  ∀ active ∈ p.engine.roast.active, ∀ m block commitments,
    findProposedBlock host active.v active.n active.reqDigest p.engine = .ok (m, block) →
    (splitPreSignatures preSignature).mapM deserializeSigningCommitment = .ok commitments →
    ∀ answer ∈ host.answer block commitments fresh fresh', answer ∈ p.engine.roast.msgOut ∨
      ∃ nonce ∈ p.wallet.nonce, answer ∈ host.answer block commitments nonce fresh

/-- The condition on the message and on the process before the first delivery. -/
def Absorbs (host : Host Nonce Block) (cfg : Config) (i : ℕ) (fresh fresh' : Nonce)
    (p : Process Nonce Block) : Incoming Block → Prop
  | .commit m => inWv m.view m.seqNumber p.engine →
      commitFeedsRoast cfg m.view m.seqNumber i p.engine.roast →
      AbsorbsShare cfg m.senderId p.engine.roast
  | .roastSignatureShare m => AbsorbsShare cfg m.senderId p.engine.roast
  | .roastPreSignature m => AnswersOnce host m.preSignature fresh fresh' p
  | _ => True

/-- The second delivery, whatever comes of it, leaves the engine as the first has left it. -/
def SameTwice (host : Host Nonce Block) (cfg : Config) (i : ℕ) (now : ℚ) (valid : Bool)
    (fresh : Nonce) (msg : Incoming Block) (p : Process Nonce Block) : Prop :=
  ∀ result p', (msg.receiveAction host.toBlockCodec cfg valid fresh).effect host cfg i now p =
    .ok (result, p') → p'.engine = p.engine

end

section

variable {Nonce Block : Type} {host : Host Nonce Block} {p p' : Process Nonce Block} {a : Action}

theorem callEngine_applied (done : callEngine cfg i a p = (true, p')) (engine : p.engine = s) :
    a.apply cfg i s = some p'.engine := by
  subst engine
  rcases callEngine_cases cfg i a p with ⟨t, applied, called⟩ | failed
  · rw [called] at done
    cases done
    exact applied
  · rw [failed] at done
    cases done

theorem callEngine_same {result : Bool} (settled : a.Settled cfg i s)
    (called : callEngine cfg i a p = (result, p')) (engine : p.engine = s) : p'.engine = s := by
  subst engine
  rcases callEngine_cases cfg i a p with ⟨t, applied, called'⟩ | failed
  · rw [called'] at called
    cases called
    exact settled t applied
  · rw [failed] at called
    cases called
    rfl

theorem callEngine_same_iff : (∀ result q, callEngine cfg i a p = (result, q) →
    q.engine = p.engine) ↔ a.Settled cfg i p.engine := by
  constructor
  · intro same t applied
    refine same true { p with engine := t } ?_
    rw [callEngine, applied]
  · exact fun settled result q called => callEngine_same settled called rfl

theorem sameTwice_iff_settled {valid : Bool} {fresh : Nonce} {msg : Incoming Block}
    (direct : msg.receiveAction host.toBlockCodec cfg valid fresh = .engine a) :
    SameTwice host cfg i now valid fresh msg p ↔ a.Settled cfg i p.engine := by
  simp only [SameTwice, direct, Effect.effect, Except.ok.injEq]
  exact callEngine_same_iff

theorem getSignatureShare_eq {preSignature : String} {block : Block} {nonce : Nonce}
    {commitments : List NonceCommitment} (nonempty : preSignature ≠ "")
    (read : (splitPreSignatures preSignature).mapM deserializeSigningCommitment = .ok commitments) :
    host.getSignatureShare preSignature block ⟨some nonce, true⟩ =
      match host.sign block nonce commitments with
      | none => .error .runtimeError
      | some share => .ok (serializeSignatureShare share, ⟨some nonce, false⟩) := by
  simp only [Host.getSignatureShare, if_neg nonempty, read]
  rfl

theorem prePrepare_sameTwice {m : Messages.PrePrepare Block} {now' : ℚ} {valid valid' : Bool}
    {fresh : Nonce}
    (first : Effect.receivePrePrepareEffect host cfg i now m.view m.seqNumber m.reqDigest
      m.proposedBlock m.senderId m.signature valid p = (true, p')) :
    SameTwice host cfg i now' valid' fresh (.prePrepare m) p' := by
  have applied : (Action.receivePrePrepare m.view m.seqNumber m.reqDigest
      (host.getHex m.proposedBlock) m.senderId m.signature).apply cfg i p.engine =
        some p'.engine := by
    unfold Effect.receivePrePrepareEffect at first
    split at first
    · cases first
    simp only at first
    split at first
    · cases first
    split at first
    · cases first
    split at first
    · cases first
    · exact callEngine_applied first rfl
  intro result q second
  have second := Except.ok.inj second
  rcases receivePrePrepareEffect_spec second with ⟨-, rfl⟩ | ⟨-, rfl | called⟩
  · rfl
  · rfl
  · exact callEngine_same (receivePrePrepare_settled applied) called.symm rfl

def Replica.putOut (s : Replica) (answer : Message) : Replica :=
  { s with roast := roastMsgOutAdd answer s.roast }

theorem Replica.putOut_eq_iff {answer : Message} :
    s.putOut answer = s ↔ answer ∈ s.roast.msgOut := by
  constructor
  · intro same
    have out : assertzOnce answer s.roast.msgOut = s.roast.msgOut :=
      congrArg (fun s => s.roast.msgOut) same
    rw [← out]
    exact mem_assertzOnce.mpr (Or.inr rfl)
  · intro present
    simp only [putOut, roastMsgOutAdd, assertzOnce_of_mem present]

theorem Answers.putOut {signers : List ℕ} {preSignature text : String} {fresh : Nonce}
    {m : PrePrepare} {block : Block}
    (answers : Answers host cfg i signers preSignature fresh p m block text p') :
    p'.engine = p.engine.putOut
      (.roastSignatureShare text (serializeSigningCommitment (host.commitments fresh))) := by
  obtain ⟨active, running, -⟩ := answers.active
  have applied := answers.engine
  simp only [Action.apply, updateRoast, applyReceivePreSignature, running, Option.isSome_some,
    if_true, Option.map_some, Option.some.injEq] at applied
  exact applied.symm

theorem roastReceivePreSignatureEffect_of_signed {signers : List ℕ} {preSignature text : String}
    {fresh : Nonce} {active : RoastActive} {m : PrePrepare} {block : Block} {wallet : Wallet Nonce}
    (running : p.engine.roast.active = some active)
    (located : findProposedBlock host active.v active.n active.reqDigest p.engine = .ok (m, block))
    (selected : i ∈ signers)
    (signed : host.getSignatureShare preSignature block p.wallet = .ok (text, wallet)) :
    Effect.roastReceivePreSignatureEffect host cfg i signers preSignature fresh p =
      .ok (true, { Effect.renewed (host.getPreSignatureShare fresh wallet) p with
        engine := p.engine.putOut
          (.roastSignatureShare text (serializeSigningCommitment (host.commitments fresh))) }) := by
  simp only [Effect.roastReceivePreSignatureEffect, running]
  refine bind_eq_ok_iff.mpr ⟨(m, block), located, ?_⟩
  simp only [if_pos selected]
  refine bind_eq_ok_iff.mpr ⟨(text, wallet), signed, ?_⟩
  simp [callEngine, Action.apply, updateRoast, applyReceivePreSignature, Host.getPreSignatureShare,
    Effect.renewed, Replica.putOut, running, pure, Except.pure]

/-- The wallet answers once more with the nonce that the first answer has put out. -/
theorem preSignature_sameTwice_iff {m : Messages.RoastPreSignature} {valid : Bool}
    {fresh fresh' : Nonce}
    (first : Effect.roastReceivePreSignatureEffect host cfg i m.signers m.preSignature fresh p =
      .ok (true, p')) :
    SameTwice host cfg i now valid fresh' (.roastPreSignature m) p' ↔
      AnswersOnce host m.preSignature fresh fresh' p := by
  rcases roastReceivePreSignatureEffect_spec first with ⟨failed, -⟩ | ⟨-, ppp, block, text, answers⟩
  · cases failed
  obtain ⟨active, running, located⟩ := answers.active
  obtain ⟨wallet, signed⟩ := answers.signed
  obtain ⟨nonce, commitments, share, present, -, read, made, rfl⟩ :=
    Host.getSignatureShare_spec signed
  have nonempty : m.preSignature ≠ "" := by
    intro empty
    simp [Host.getSignatureShare, empty] at signed
  have running' : p'.engine.roast.active = some active := by
    rw [answers.putOut]
    exact running
  have located' : findProposedBlock host active.v active.n active.reqDigest p'.engine =
      .ok (ppp, block) := by
    rw [answers.putOut]
    exact located
  have out : ∀ answer, answer ∈ p'.engine.roast.msgOut ↔ answer ∈ p.engine.roast.msgOut ∨
      answer ∈ host.answer block commitments nonce fresh := by
    intro answer
    rw [answers.putOut]
    simp only [Replica.putOut, roastMsgOutAdd, mem_assertzOnce, Host.answer, made, Option.map_some,
      Option.mem_def, Option.some.injEq, eq_comm]
  constructor
  · intro same active' running'' m' block' commitments' located'' read' answer answered
    cases running''.symm.trans running
    cases located''.symm.trans located
    cases read'.symm.trans read
    obtain ⟨share', made', rfl⟩ := Option.map_eq_some_iff.mp answered
    have again : host.getSignatureShare m.preSignature block p'.wallet =
        .ok (serializeSignatureShare share', ⟨some fresh, false⟩) := by
      rw [answers.wallet, getSignatureShare_eq nonempty read, made']
    have kept := same _ _
      (roastReceivePreSignatureEffect_of_signed running' located' answers.selected again)
    have listed := (out _).mp (Replica.putOut_eq_iff.mp kept)
    exact listed.imp_right fun first' => ⟨nonce, present, first'⟩
  · intro once result q second
    rcases roastReceivePreSignatureEffect_spec second with ⟨-, rfl⟩ | ⟨-, ppp', block', text', again⟩
    · rfl
    obtain ⟨active', running'', located''⟩ := again.active
    cases running''.symm.trans running'
    cases located''.symm.trans located'
    obtain ⟨wallet', signed'⟩ := again.signed
    rw [answers.wallet] at signed'
    obtain ⟨fresh₁, commitments', share', present', -, read', made', rfl⟩ :=
      Host.getSignatureShare_spec signed'
    cases present'
    cases read'.symm.trans read
    rw [again.putOut, Replica.putOut_eq_iff, out]
    have answered : .roastSignatureShare (serializeSignatureShare share')
        (serializeSigningCommitment (host.commitments fresh')) ∈
          host.answer block commitments fresh fresh' := Option.map_eq_some_iff.mpr ⟨share', made', rfl⟩
    rcases once active running ppp block commitments located read _ answered with
      old | ⟨nonce', present', first'⟩
    · exact Or.inl old
    · cases present'.symm.trans present
      exact Or.inr first'

/-- In every state: after a delivery that succeeds the same message leaves the engine as it is,
exactly when the process absorbs it. Between the two the clock, the verdict of the chain and the
nonces may change. -/
theorem sameTwice_iff_absorbs {msg : Incoming Block} {now' : ℚ} {valid valid' : Bool}
    {fresh fresh' : Nonce}
    (delivered : (msg.receiveAction host.toBlockCodec cfg valid fresh).effect host cfg i now p =
      .ok (true, p')) :
    SameTwice host cfg i now' valid' fresh' msg p' ↔ Absorbs host cfg i fresh fresh' p msg := by
  cases msg with
  | commit m =>
    rw [sameTwice_iff_settled rfl]
    exact receiveCommit_settled_iff (callEngine_applied (Except.ok.inj delivered) rfl)
  | newView m =>
    rw [sameTwice_iff_settled rfl]
    exact iff_of_true
      (receiveNewView_settled (callEngine_applied (Except.ok.inj delivered) rfl)) trivial
  | prepare m =>
    rw [sameTwice_iff_settled rfl]
    exact iff_of_true
      (receivePrepare_settled (callEngine_applied (Except.ok.inj delivered) rfl)) trivial
  | prePrepare m =>
    exact iff_of_true (prePrepare_sameTwice (Except.ok.inj delivered)) trivial
  | roastPreSignature m => exact preSignature_sameTwice_iff delivered
  | roastSignatureShare m =>
    rw [sameTwice_iff_settled rfl]
    exact receiveSigShare_settled_iff (callEngine_applied (Except.ok.inj delivered) rfl)
  | viewChange m =>
    rw [sameTwice_iff_settled rfl]
    exact iff_of_true
      (receiveViewChange_settled (callEngine_applied (Except.ok.inj delivered) rfl)) trivial

end

def opensSession : List (ℚ × Effect ℕ String) :=
  [(60, .engine (.receiveRequest "(H=1, T=60)" 60)),
    (60, .sendPrePrepare "(H=1, T=60)" 0 1 (some "B60")),
    (60, .engine (.receivePrepare 0 1 "(H=1, T=60)" 1 "S1")),
    (60, .engine (.receivePrepare 0 1 "(H=1, T=60)" 2 "S2")),
    (60, .sendCommit "(H=1, T=60)" 0 1 7),
    (60, .engine (.receiveCommit 0 1 "2::3::3" 1 "S1")),
    (60, .engine (.receiveCommit 0 1 "3::2::2" 2 "S2")),
    (60, .engine (.roastInit "(H=1, T=60)" 0 1))]

/-- The session of replicas 0 and 1 has the share of replica 0. That of replica 1 completes it, and
is absorbed when it comes again. -/
theorem sameTwice_lastShare : ∃ p p',
    execEffects (textHost 0) fourReplicas 0 AlwaysApplies
      (opensSession ++ [(60, .engine (.receiveSigShare 0 "1::x" "1::9::9"))]) genesisProcess =
        some p ∧
    ((Incoming.roastSignatureShare ⟨1, "S1", "2::x", "2::9::9"⟩).receiveAction
      (textHost 0).toBlockCodec fourReplicas true 0).effect (textHost 0) fourReplicas 0 60 p =
        .ok (true, p') ∧
    Absorbs (textHost 0) fourReplicas 0 0 1 p
      (.roastSignatureShare ⟨1, "S1", "2::x", "2::9::9"⟩) ∧
    SameTwice (textHost 0) fourReplicas 0 90 true 1
      (.roastSignatureShare ⟨1, "S1", "2::x", "2::9::9"⟩) p' := by
  have runs : ∃ p, execEffects (textHost 0) fourReplicas 0 AlwaysApplies
      (opensSession ++ [(60, .engine (.receiveSigShare 0 "1::x" "1::9::9"))]) genesisProcess =
        some p ∧
      (callEngine fourReplicas 0 (.receiveSigShare 1 "2::x" "2::9::9") p).1 = true ∧
      AbsorbsShare fourReplicas 1 p.engine.roast := by
    decide +kernel
  obtain ⟨p, ran, succeeds, absorbs⟩ := runs
  have delivered : ((Incoming.roastSignatureShare ⟨1, "S1", "2::x", "2::9::9"⟩).receiveAction
      (textHost 0).toBlockCodec fourReplicas true 0).effect (textHost 0) fourReplicas 0 60 p =
        .ok (true, (callEngine fourReplicas 0 (.receiveSigShare 1 "2::x" "2::9::9") p).2) :=
    congrArg Except.ok (Prod.ext succeeds rfl)
  exact ⟨p, _, ran, delivered, absorbs, (sameTwice_iff_absorbs delivered).mpr absorbs⟩

/-- A signature share that comes twice stands as an answer in two sessions: the first delivery
opens the second one. -/
theorem shareTwice_notSame : ∃ p p',
    Reachable (InitialProcess fourReplicas) (ProcessStep (textHost 0) fourReplicas 0) p ∧
    ((Incoming.roastSignatureShare ⟨1, "S1", "2::x", "2::9::9"⟩).receiveAction
      (textHost 0).toBlockCodec fourReplicas true 0).effect (textHost 0) fourReplicas 0 60 p =
        .ok (true, p') ∧
    ¬ SameTwice (textHost 0) fourReplicas 0 60 true 0
      (.roastSignatureShare ⟨1, "S1", "2::x", "2::9::9"⟩) p' := by
  have runs : ∃ p, execEffects (textHost 0) fourReplicas 0 AlwaysApplies opensSession
      genesisProcess = some p ∧
      (callEngine fourReplicas 0 (.receiveSigShare 1 "2::x" "2::9::9") p).1 = true ∧
      ((callEngine fourReplicas 0 (.receiveSigShare 1 "2::x" "2::9::9")
        (callEngine fourReplicas 0 (.receiveSigShare 1 "2::x" "2::9::9") p).2).2.engine ≠
          (callEngine fourReplicas 0 (.receiveSigShare 1 "2::x" "2::9::9") p).2.engine) := by
    decide +kernel
  obtain ⟨p, ran, succeeds, differs⟩ := runs
  refine ⟨p, (callEngine fourReplicas 0 (.receiveSigShare 1 "2::x" "2::9::9") p).2,
    ⟨_, _, genesisProcess_initial, (execEffects_path _ _ _ ran).unguard⟩, ?_, ?_⟩
  · exact congrArg Except.ok (Prod.ext succeeds rfl)
  · intro same
    exact differs (same _ _ rfl)

end Fbft
