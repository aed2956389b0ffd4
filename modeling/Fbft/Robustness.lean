import Fbft.Malicious
import Mathlib.Data.Finset.Interval
import Mathlib.Order.Interval.Finset.Nat

/-! What faulty signers can do to an instance of ROAST. A session that is not final has a
signer who still owes his share, and he is in no later session before he pays it: so few
sessions are opened, and where a threshold of signers answers all its requests one of them
is final. -/
namespace Fbft

open Database LabelledPath

variable {cfg : Config} {i j k : ℕ} {s : Replica} {r r' r₁ : Roast} {share : Option String}
  {next : String} {labels : List (ℚ × Action)} {calls : List RoastOp} {op : RoastOp}
  {e : SignatureSession}

/-- Signer `k` owes a share to the session recorded for him, until he is heard again. -/
def Owes (k sid : ℕ) (r : Roast) : Prop :=
  roastSignersSid k r = some sid ∧ k ∉ r.responsiveSigner

instance : Decidable (Owes k sid r) := inferInstanceAs (Decidable (_ ∧ _))

/-- The signers of a session that do not owe it a share. -/
def settled (e : SignatureSession) (r : Roast) : List ℕ :=
  e.signers.filter fun k => ¬ Owes k e.sessionId r

/-- Every signer is a member of the cluster, and each session of the instance has a share
for each signer who does not owe it one. -/
structure SessionLoad (cfg : Config) (r : Roast) : Prop where
  final : OneFinalSession cfg r
  nodup : r.responsiveSigner.Nodup
  responsive : ∀ k ∈ r.responsiveSigner, k < cfg.clusterSize
  recorded : ∀ k, roastSignersSid k r ≠ none → k < cfg.clusterSize
  bound : ∀ c ∈ r.sessionCounter, c + maxFaulty cfg ≤ cfg.clusterSize
  sessions : ∀ c ∈ r.sessionCounter, ∀ sid ∈ Finset.Icc 1 c, ∃ e,
    roastSignatureSession sid r = some e ∧ e.signers.Nodup ∧
    e.signers.length = sigQuorum cfg ∧ (settled e r).length ≤ e.signatureShares.length

theorem mem_settled : k ∈ settled e r ↔ k ∈ e.signers ∧ ¬ Owes k e.sessionId r := by
  simp [settled]

theorem settled_length_le (nodup : e.signers.Nodup)
    (owes : ∀ k, k ≠ j → Owes k e.sessionId r → Owes k e.sessionId r') :
    (settled e r').length ≤ (settled e r).length + 1 := by
  have subset : settled e r' ⊆ j :: settled e r := by
    intro k inside
    obtain ⟨signer, paid⟩ := mem_settled.mp inside
    by_cases self : k = j
    · exact self ▸ List.mem_cons_self
    · exact List.mem_cons_of_mem _ (mem_settled.mpr ⟨signer, fun owed => paid (owes k self owed)⟩)
  exact ((nodup.filter _).subperm subset).length_le

theorem settled_length_mono (nodup : e.signers.Nodup)
    (owes : ∀ k, Owes k e.sessionId r → Owes k e.sessionId r') :
    (settled e r').length ≤ (settled e r).length := by
  have subset : settled e r' ⊆ settled e r := by
    intro k inside
    obtain ⟨signer, paid⟩ := mem_settled.mp inside
    exact mem_settled.mpr ⟨signer, fun owed => paid (owes k owed)⟩
  exact ((nodup.filter _).subperm subset).length_le

namespace SessionLoad

theorem initial : SessionLoad cfg roastCollectGarbage := by
  refine ⟨?_, ?_, ?_, ?_, ?_, ?_⟩
  · constructor <;> simp [roastCollectGarbage]
  all_goals simp [roastCollectGarbage, roastSignersSid]

theorem congr (load : SessionLoad cfg r) (session : r'.signatureSession = r.signatureSession)
    (sid : r'.signersSid = r.signersSid) (responsive : r'.responsiveSigner = r.responsiveSigner)
    (counter : r'.sessionCounter = r.sessionCounter) : SessionLoad cfg r' := by
  have signer : ∀ k, roastSignersSid k r' = roastSignersSid k r := by
    intro k
    simp only [roastSignersSid, sid]
  have lookup : ∀ id, roastSignatureSession id r' = roastSignatureSession id r := by
    intro id
    simp only [roastSignatureSession, session]
  have owed : ∀ e, settled e r' = settled e r := by
    intro e
    refine List.filter_congr fun k _ => decide_eq_decide.mpr ?_
    simp only [Owes, signer, responsive]
  refine ⟨load.final.congr session, responsive ▸ load.nodup, responsive ▸ load.responsive, ?_,
    counter ▸ load.bound, ?_⟩
  · simpa only [signer] using load.recorded
  · simpa only [counter, lookup, owed] using load.sessions

/-- A session without the threshold of shares has a signer who owes it one. -/
theorem pending (load : SessionLoad cfg r) (current : c ∈ r.sessionCounter)
    (notFull : ∀ e ∈ r.signatureSession, ¬ e.Full cfg) (inside : sid ∈ Finset.Icc 1 c) :
    ∃ k, Owes k sid r := by
  obtain ⟨e, found, -, size, shares⟩ := load.sessions c current sid inside
  obtain ⟨recorded, rfl⟩ := roastSignatureSession_spec found
  have within := load.final.short e recorded
  have short : e.signatureShares.length ≠ sigQuorum cfg := notFull e recorded
  by_contra none
  have all : settled e r = e.signers := by
    apply List.filter_eq_self.mpr
    intro k _
    simpa using fun owes => none ⟨k, owes⟩
  rw [all] at shares
  omega

/-- Those signers and the responsive ones are different members of the cluster. -/
theorem room (load : SessionLoad cfg r) (current : c ∈ r.sessionCounter)
    (notFull : ∀ e ∈ r.signatureSession, ¬ e.Full cfg) :
    c + r.responsiveSigner.length ≤ cfg.clusterSize := by
  have owing : ∀ sid : Finset.Icc 1 c, ∃ k, Owes k sid.1 r :=
    fun sid => load.pending current notFull sid.2
  choose owner owes using owing
  have distinct : Function.Injective owner := by
    intro sid sid' same
    have one := (owes sid).1
    rw [same, (owes sid').1] at one
    exact Subtype.ext (Option.some.inj one).symm
  have separate : Disjoint (Finset.univ.image owner) r.responsiveSigner.toFinset := by
    rw [Finset.disjoint_left]
    intro k owing responsive
    obtain ⟨sid, -, rfl⟩ := Finset.mem_image.mp owing
    exact (owes sid).2 (List.mem_toFinset.mp responsive)
  have members : Finset.univ.image owner ∪ r.responsiveSigner.toFinset ⊆
      Finset.range cfg.clusterSize := by
    intro k inside
    rw [Finset.mem_range]
    rcases Finset.mem_union.mp inside with owing | responsive
    · obtain ⟨sid, -, rfl⟩ := Finset.mem_image.mp owing
      exact load.recorded _ (by simp [(owes sid).1])
    · exact load.responsive k (List.mem_toFinset.mp responsive)
  have count := Finset.card_le_card members
  rw [Finset.card_union_of_disjoint separate, Finset.card_image_of_injective _ distinct,
    List.toFinset_card_of_nodup load.nodup, Finset.card_range, Finset.card_univ] at count
  simpa using count

theorem markUnsolicited (load : SessionLoad cfg r) (j : ℕ) :
    SessionLoad cfg (markUnsolicited j r) := by
  obtain ⟨malicious, marked, -⟩ := markUnsolicited_frame j r
  rw [marked]
  exact load.congr rfl rfl rfl rfl

theorem owes_hear (other : k ≠ j) : Owes k sid (hear j next r) ↔ Owes k sid r := by
  have signer : roastSignersSid k (hear j next r) = roastSignersSid k r := rfl
  simp [Owes, signer, other]

theorem hear_alone (load : SessionLoad cfg r) (member : j < cfg.clusterSize)
    (absent : roastSignersSid j r = none) : SessionLoad cfg (hear j next r) := by
  refine ⟨load.final.congr rfl, nodup_assertzOnce load.nodup, ?_, load.recorded, load.bound, ?_⟩
  · intro k inside
    rcases mem_assertzOnce.mp inside with old | rfl
    · exact load.responsive k old
    · exact member
  · intro c current sid inside
    obtain ⟨e, found, nodup, size, shares⟩ := load.sessions c current sid inside
    refine ⟨e, found, nodup, size, le_trans (settled_length_mono nodup fun k owes => ?_) shares⟩
    have other : k ≠ j := by
      rintro rfl
      exact absurd owes.1 (by simp [absent])
    exact (owes_hear other).mpr owes

theorem store (load : SessionLoad cfg r) (share : Option String)
    (found : roastSignatureSession e.sessionId r = some e)
    (notFull : ∀ e ∈ r.signatureSession, ¬ e.Full cfg) :
    SessionLoad cfg (setRoastSignatureSession
      { e with signatureShares := e.signatureShares ++ [share] } r) := by
  have inside := (roastSignatureSession_spec found).1
  have within := load.final.short e inside
  have short : e.signatureShares.length ≠ sigQuorum cfg := notFull e inside
  refine ⟨load.final.replace notFull (by simp; omega), load.nodup, load.responsive,
    load.recorded, load.bound, ?_⟩
  intro c current sid inside
  obtain ⟨e', found', nodup, size, shares⟩ := load.sessions c current sid inside
  rw [roastSignatureSession_setRoastSignatureSession]
  split
  · rename_i same
    rw [same, found] at found'
    cases found'
    refine ⟨_, rfl, nodup, size, ?_⟩
    rw [List.length_append]
    exact le_trans shares (Nat.le_add_right _ _)
  · exact ⟨e', found', nodup, size, shares⟩

/-- The share of a signer who owes it is stored, and he is heard: he is settled with the
session that has one share more. -/
theorem hear_store (load : SessionLoad cfg r) (member : j < cfg.clusterSize)
    (recorded : roastSignersSid j r = some e.sessionId)
    (found : roastSignatureSession e.sessionId r = some e)
    (notFull : ∀ e ∈ r.signatureSession, ¬ e.Full cfg) :
    SessionLoad cfg (hear j next (setRoastSignatureSession
      { e with signatureShares := e.signatureShares ++ [share] } r)) := by
  have stored := load.store share found notFull
  refine ⟨stored.final.congr rfl, nodup_assertzOnce load.nodup, ?_, load.recorded, load.bound, ?_⟩
  · intro k inside
    rcases mem_assertzOnce.mp inside with old | rfl
    · exact load.responsive k old
    · exact member
  intro c current sid inside
  obtain ⟨e', found', nodup, size, shares⟩ := load.sessions c current sid inside
  have lookup : roastSignatureSession sid (hear j next (setRoastSignatureSession
      { e with signatureShares := e.signatureShares ++ [share] } r)) =
        if sid = e.sessionId then some { e with signatureShares := e.signatureShares ++ [share] }
        else roastSignatureSession sid r := roastSignatureSession_setRoastSignatureSession
  rw [lookup]
  split
  · rename_i same
    rw [same, found] at found'
    cases found'
    refine ⟨_, rfl, nodup, size, ?_⟩
    rw [List.length_append]
    have others : (settled e (hear j next r)).length ≤ (settled e r).length + 1 :=
      settled_length_le nodup fun k other owes => (owes_hear other).mpr owes
    exact le_trans others (Nat.add_le_add_right shares 1)
  · rename_i different
    refine ⟨e', found', nodup, size, le_trans (settled_length_mono nodup fun k owes => ?_) shares⟩
    have other : k ≠ j := by
      rintro rfl
      have same := Option.some.inj (recorded.symm.trans owes.1)
      exact different ((roastSignatureSession_spec found').2.symm.trans same.symm)
    have kept : Owes k e'.sessionId (hear j next r) := (owes_hear other).mpr owes
    exact kept

theorem initiate (load : SessionLoad cfg r) (notFull : ∀ e ∈ r.signatureSession, ¬ e.Full cfg)
    (h : initiateSession cfg r = some r') : SessionLoad cfg r' := by
  rcases initiateSession_spec h with ⟨-, rfl⟩ | ⟨enough, counter, current, -, responsive, -, -,
    counter', sid, -, -⟩
  · exact load
  have room := load.room current notFull
  have final : OneFinalSession cfg r' := by
    rcases initiateSession_sessions h with rfl | ⟨c, -, -, same⟩
    · exact load.final
    · exact (load.final.replace notFull (Nat.zero_le _)).congr same
  refine ⟨final, by simp [responsive], by simp [responsive], ?_, ?_, ?_⟩
  · intro k recorded
    rw [sid k] at recorded
    split at recorded
    · rename_i inside
      exact load.responsive k inside
    · exact load.recorded k recorded
  · rintro c current'
    rw [counter'] at current'
    cases current'
    rw [enough, sigQuorum] at room
    omega
  · rintro c current' id inside
    rw [counter'] at current'
    cases current'
    have range := Finset.mem_Icc.mp inside
    rw [roastSignatureSession_initiateSession h current counter']
    split
    · refine ⟨_, rfl, load.nodup, enough, ?_⟩
      have all : settled (nextSession counter r) r' = [] := by
        apply List.filter_eq_nil_iff.mpr
        intro k member
        simp [Owes, sid k, responsive, nextSession, show k ∈ r.responsiveSigner from member]
      simp [all]
    · rename_i old
      obtain ⟨e, found, nodup, size, shares⟩ :=
        load.sessions counter current id (Finset.mem_Icc.mpr ⟨range.1, by omega⟩)
      refine ⟨e, found, nodup, size, le_trans (settled_length_mono nodup fun k owes => ?_) shares⟩
      refine ⟨?_, by simp [responsive]⟩
      rw [sid k, if_neg owes.2]
      exact owes.1

theorem receive {p : ℕ} (load : SessionLoad cfg r) (member : j < cfg.clusterSize)
    (step : RoastStep cfg i r (.receive p j share next) r') : SessionLoad cfg r' := by
  have notFull := (applyReceiveSigShare_received step).1
  obtain ⟨malicious, marked, -⟩ := markUnsolicited_frame j r
  have load' := load.markUnsolicited j
  rw [marked] at load'
  cases applyReceiveSigShare_called step with
  | alone absent opened =>
    rw [marked] at opened
    exact (load'.hear_alone member absent).initiate notFull opened
  | completes e recorded found full same =>
    rw [marked] at same
    rw [same]
    exact load'.store share found notFull
  | stores e recorded found short opened =>
    rw [marked] at opened
    refine (load'.hear_store member recorded found notFull).initiate ?_ opened
    intro e' inside
    rcases mem_setRoastSignatureSession.mp inside with ⟨old, -⟩ | rfl
    · exact notFull e' old
    · simpa [SignatureSession.Full] using short

theorem step (load : SessionLoad cfg r) (member : ∀ k ∈ op.signer, k < cfg.clusterSize)
    (step : RoastStep cfg i r op r') : SessionLoad cfg r' := by
  cases op with
  | start _ | stop | clearOut =>
    cases step
    exact load.congr rfl rfl rfl rfl
  | resetCounter =>
    cases step
    refine ⟨load.final.congr rfl, load.nodup, load.responsive, load.recorded, ?_, ?_⟩
    · rintro c current
      cases current
      have positive := cfg.clusterSize_pos
      simp only [maxFaulty]
      omega
    · rintro c current sid inside
      cases current
      simp at inside
  | collectGarbage =>
    cases step
    exact initial
  | answer share next =>
    simp only [RoastStep, RoastOp.apply] at step
    split at step
    · cases step
      exact load.congr rfl rfl rfl rfl
    · cases step
  | receive p j share next => exact load.receive (member j rfl) step

theorem of_path {history : List RoastOp}
    (members : ∀ op ∈ history, ∀ k ∈ op.signer, k < cfg.clusterSize)
    (run : Path (RoastStep cfg i) roastCollectGarbage history r) : SessionLoad cfg r := by
  revert members
  refine run.snoc_induction (motive := fun history r =>
    (∀ op ∈ history, ∀ k ∈ op.signer, k < cfg.clusterSize) → SessionLoad cfg r)
    (fun _ => initial) ?_
  intro history r op r' _ ih step members
  exact (ih fun op' inside => members op' (List.mem_append_left _ inside)).step
    (members op (List.mem_append_right _ (List.mem_singleton_self op))) step

end SessionLoad

/-- The replica whose share a message of the network may bring to ROAST. -/
def Action.speaker : Action → Option ℕ
  | receiveCommit _ _ _ senderId _ => some senderId
  | receiveSigShare signerId _ _ => some signerId
  | _ => none

/-- Signers are members of the cluster: the others have no key to verify with. -/
structure SpokenByMembers (cfg : Config) (x : Ledger) : Prop where
  commits : ∀ e ∈ x.commits, e.1.senderId < cfg.clusterSize
  history : ∀ op ∈ x.history, ∀ k ∈ op.signer, k < cfg.clusterSize

theorem SpokenByMembers.step {x y : Ledger} (spoken : SpokenByMembers cfg x)
    (step : LedgerStep cfg i x l y) (self : i < cfg.clusterSize)
    (member : ∀ k ∈ l.2.speaker, k < cfg.clusterSize) : SpokenByMembers cfg y := by
  obtain ⟨now, a⟩ := l
  rw [step.recorded]
  constructor
  · intro e inside
    obtain ⟨inside, -⟩ := List.mem_filter.mp inside
    rcases mem_of_mem_assertzAllBy inside with old | new
    · exact spoken.commits e old
    obtain ⟨m, logged, rfl⟩ := List.mem_map.mp new
    cases a with
    | sendCommit d v n data =>
      rw [List.mem_singleton.mp logged]
      exact self
    | receiveCommit v n data j sig =>
      simp only [Action.newCommits] at logged
      split at logged
      · rw [List.mem_singleton.mp logged]
        exact member j rfl
      · cases logged
    | _ => cases logged
  · intro op inside k signer
    rcases List.mem_append.mp inside with old | new
    · exact spoken.history op old k signer
    cases a with
    | receiveCommit v n data j sig =>
      simp only [Ledger.ops] at new
      split at new
      · rw [List.mem_singleton.mp new] at signer
        cases signer
        exact member _ rfl
      · cases new
    | receiveSigShare j share next =>
      rw [List.mem_singleton.mp new] at signer
      cases signer
      exact member _ rfl
    | roastInit d v n =>
      simp only [Ledger.ops] at new
      split at new
      · rcases List.mem_cons.mp new with rfl | new
        · cases signer
        rcases List.mem_cons.mp new with rfl | new
        · cases signer
        obtain ⟨e, listed, rfl⟩ := List.mem_map.mp new
        cases signer
        exact spoken.commits e (List.mem_filter.mp listed).1
      · rw [List.mem_singleton.mp new] at signer
        cases signer
    | msgOutClearAll | receiveBlock _ _ _ | sendViewChange _ | receivePreSignature _ _ _ _ =>
      rw [List.mem_singleton.mp new] at signer
      cases signer
    | _ => cases new

theorem spokenByMembers (recorded : Path (LedgerStep cfg i) (Ledger.start s) labels y)
    (self : i < cfg.clusterSize)
    (members : ∀ l ∈ labels, ∀ k ∈ l.2.speaker, k < cfg.clusterSize) : SpokenByMembers cfg y := by
  revert members
  refine recorded.snoc_induction (motive := fun labels y =>
    (∀ l ∈ labels, ∀ k ∈ l.2.speaker, k < cfg.clusterSize) → SpokenByMembers cfg y) ?_ ?_
  · intro _
    constructor <;> simp [Ledger.start]
  · intro labels x l y _ ih step members
    have spoken := ih fun l' inside => members l' (List.mem_append_left _ inside)
    exact spoken.step step self (members l (List.mem_append_right _ (List.mem_singleton_self l)))

theorem sessionCounter_openedSessions (run : Path (RoastStep cfg i) r₁ calls r)
    (within : ∀ op ∈ calls, op.within) (zero : r₁.sessionCounter = some 0) :
    r.sessionCounter = some (openedSessions cfg i r₁ calls).length := by
  revert within
  refine run.snoc_induction (motive := fun calls r => (∀ op ∈ calls, op.within) →
    r.sessionCounter = some (openedSessions cfg i r₁ calls).length) (fun _ => zero) ?_
  intro calls r op r' run ih step within
  have counter := ih fun op' inside => within op' (List.mem_append_left _ inside)
  have last := within op (List.mem_append_right _ (List.mem_singleton_self op))
  rw [openedSessions_snoc run step, List.length_append]
  have quiet (same : r'.sessionCounter = r.sessionCounter) : r'.sessionCounter =
      some ((openedSessions cfg i r₁ calls).length + (openedSession r r').toList.length) := by
    simp [openedSession_eq_none same, same, counter]
  cases op with
  | receive p j share next =>
    cases (applyReceiveSigShare_received step).2 with
    | ended _ _ same | heard _ _ _ same => exact quiet same
    | opened c _ _ _ current counter' session =>
      have opened : openedSession r r' = some (nextSession c (hear j next r)) := by
        simp [openedSession, current, counter', session]
      rw [current] at counter
      rw [opened, counter', Option.some.inj counter]
      rfl
  | answer share next =>
    simp only [RoastStep, RoastOp.apply] at step
    split at step
    · cases step
      exact quiet rfl
    · cases step
  | clearOut =>
    cases step
    exact quiet rfl
  | _ => cases last

/-- Whatever the signers do, an instance opens no more sessions than there are replicas
that need not be faulty. -/
theorem openedSessions_le (start : Initial cfg s)
    (recorded : Path (LedgerStep cfg i) (Ledger.start s) labels y) (self : i < cfg.clusterSize)
    (members : ∀ l ∈ labels, ∀ k ∈ l.2.speaker, k < cfg.clusterSize)
    (one : RoastInstance cfg i y.history r₁ calls) :
    (openedSessions cfg i r₁ calls).length ≤ cfg.clusterSize - maxFaulty cfg := by
  have path := (Ledger.roast_path start recorded).2
  have load := SessionLoad.of_path (spokenByMembers recorded self members).history path
  have zero : r₁.sessionCounter = some 0 := by
    obtain ⟨earlier, active, r₀, -, -, rfl⟩ := one.begins
    rfl
  have counter := sessionCounter_openedSessions (one.path path) one.within zero
  have bound := load.bound _ counter
  omega

def oneSignerSilent : List (ℚ × Action) :=
  coordinates ++ [(60, .receiveSigShare 0 "x0" "q0"), (60, .receiveSigShare 2 "x2" "q2"),
    (60, .receiveSigShare 0 "y0" "r0")]

def oneSignerSilentCalls : List RoastOp :=
  [.receive 4 0 none "p0", .receive 5 1 none "p1", .receive 6 2 none "p2",
    .receive 8 0 (some "x0") "q0", .receive 9 2 (some "x2") "q2", .receive 10 0 (some "y0") "r0"]

theorem openedSessions_le_oneSignerSilent : ∃ y,
    Path (LedgerStep fourReplicas 0) (Ledger.start genesis) oneSignerSilent y ∧
    RoastInstance fourReplicas 0 y.history startedTables oneSignerSilentCalls ∧
    (openedSessions fourReplicas 0 startedTables oneSignerSilentCalls).length = 2 ∧
    (openedSessions fourReplicas 0 startedTables oneSignerSilentCalls).length ≤
      fourReplicas.clusterSize - maxFaulty fourReplicas := by
  have runs : ∃ y, Ledger.replay fourReplicas 0 oneSignerSilent (Ledger.start genesis) = some y ∧
      y.history = .start ⟨0, 1, "(H=1, T=60)"⟩ :: .resetCounter :: oneSignerSilentCalls := by
    decide +kernel
  obtain ⟨y, ran, history⟩ := runs
  have recorded := Ledger.replay_path ran
  have one : RoastInstance fourReplicas 0 y.history startedTables oneSignerSilentCalls :=
    RoastInstance.of_first history (by decide)
  exact ⟨y, recorded, one, by decide +kernel,
    openedSessions_le genesis_initial recorded (by decide) (by decide +kernel) one⟩

theorem FairSigner.of_forall (oneCommit : calls.countP (RoastOp.isCommitOf k) ≤ 1)
    (requested : ∀ m : Fin calls.length, RoastOp.isAnswerOf k calls[m] →
      (calls.take m).countP (RoastOp.isAnswerOf k) < requestsTo cfg i k r₁ (calls.take m)) :
    FairSigner cfg i r₁ k calls where
  oneCommit := oneCommit
  requested := by
    rintro before p share next after rfl
    have place : before.length < (before ++ .receive p k (some share) next :: after).length := by
      simp
    have asked := requested ⟨before.length, place⟩
    simpa [RoastOp.isAnswerOf] using asked

theorem FairSigner.answers_snoc_le (fair : FairSigner cfg i r₁ k (calls ++ [op])) :
    (calls ++ [op]).countP (RoastOp.isAnswerOf k) ≤ requestsTo cfg i k r₁ calls := by
  have before := fair.initial_segment.answers_le
  rw [List.countP_append, List.countP_singleton]
  split
  · rename_i answer
    cases op with
    | receive p j share next =>
      cases share with
      | none => cases answer
      | some share =>
        obtain rfl : j = k := by simpa [RoastOp.isAnswerOf] using answer
        exact fair.requested calls p share next [] rfl
    | _ => cases answer
  · exact before

/-- A fair signer who is not responsive was heard no more often than he was asked. -/
theorem FairSigner.heard_le (fair : FairSigner cfg i r₁ k calls)
    (run : Path (RoastStep cfg i) r₁ calls r) (within : ∀ op ∈ calls, op.within)
    (notFinal : ¬ roastFinalSignatureSession cfg r) (quiet : k ∉ r.responsiveSigner) :
    calls.countP (fun op => op.signer = some k) ≤ requestsTo cfg i k r₁ calls := by
  revert fair within notFinal quiet
  refine run.snoc_induction (motive := fun calls r => FairSigner cfg i r₁ k calls →
    (∀ op ∈ calls, op.within) → ¬ roastFinalSignatureSession cfg r → k ∉ r.responsiveSigner →
      calls.countP (fun op => op.signer = some k) ≤ requestsTo cfg i k r₁ calls) ?_ ?_
  · intro _ _ _ _
    simp
  intro calls r op r' run ih step fair within notFinal quiet
  have before := fair.initial_segment
  have within' : ∀ op ∈ calls, op.within := fun op' inside =>
    within op' (List.mem_append_left _ inside)
  have last := within op (List.mem_append_right _ (List.mem_singleton_self op))
  have grows := requestsTo_le_append cfg i k r₁ calls [op]
  have unheard (silent : op.signer ≠ some k) (notFinal' : ¬ roastFinalSignatureSession cfg r)
      (quiet' : k ∉ r.responsiveSigner) :
      (calls ++ [op]).countP (fun op => op.signer = some k) ≤ requestsTo cfg i k r₁ calls := by
    rw [countP_signer_snoc, if_neg silent]
    exact ih before within' notFinal' quiet'
  cases op with
  | receive p j share next =>
    obtain ⟨notFull, received⟩ := applyReceiveSigShare_received step
    obtain ⟨running, same⟩ := applyReceiveSigShare_active step
    have notFinal' : ¬ roastFinalSignatureSession cfg r :=
      fun final => final.2.elim fun e full => notFull e full.1 full.2
    have silent (other : k ≠ j) : (RoastOp.receive p j share next).signer ≠ some k := by
      simpa [RoastOp.signer] using fun self => other self.symm
    cases received with
    | ended _ _ _ _ full =>
      obtain ⟨e, inside, full⟩ := full
      have running' : r'.active.isSome := by
        rw [same]
        exact Option.isSome_iff_ne_none.mpr running
      exact absurd ⟨running', e, inside, full⟩ notFinal
    | heard _ responsive =>
      rw [responsive, hear_responsiveSigner, mem_assertzOnce, not_or] at quiet
      exact le_trans (unheard (silent quiet.2) notFinal' quiet.1) grows
    | opened c _ _ _ current counter' session =>
      have opened : openedSession r r' = some (nextSession c (hear j next r)) := by
        simp [openedSession, current, counter', session]
      rw [requestsTo_snoc_of_some k run step opened]
      split
      · -- One COMMIT and the answers to earlier requests are all that was heard of him.
        rw [countP_signer]
        exact Nat.add_comm 1 _ ▸ Nat.add_le_add fair.oneCommit fair.answers_snoc_le
      · rename_i outside
        rw [nextSession, hear_responsiveSigner, mem_assertzOnce, not_or] at outside
        exact unheard (silent outside.2) notFinal' outside.1
  | answer share next =>
    simp only [RoastStep, RoastOp.apply] at step
    split at step
    · cases step
      exact le_trans (unheard (by simp [RoastOp.signer]) notFinal quiet) grows
    · cases step
  | clearOut =>
    cases step
    exact le_trans (unheard (by simp [RoastOp.signer]) notFinal quiet) grows
  | _ => cases last

/-- Where a threshold of fair signers have committed and answered all their requests, the
instance has its signature. -/
theorem final_of_answered (start : Initial cfg s)
    (recorded : Path (LedgerStep cfg i) (Ledger.start s) labels y)
    (one : RoastInstance cfg i y.history r₁ calls) (signers : Finset ℕ)
    (enough : sigQuorum cfg ≤ signers.card)
    (fair : ∀ k ∈ signers, FairSigner cfg i r₁ k calls)
    (committed : ∀ k ∈ signers, calls.countP (RoastOp.isCommitOf k) = 1)
    (answered : ∀ k ∈ signers,
      calls.countP (RoastOp.isAnswerOf k) = requestsTo cfg i k r₁ calls) :
    roastFinalSignatureSession cfg y.replica.roast := by
  have run := one.path (Ledger.roast_path start recorded).2
  by_contra notFinal
  have responsive : signers ⊆ y.replica.roast.responsiveSigner.toFinset := by
    intro k inside
    by_contra quiet
    have heard := (fair k inside).heard_le run one.within notFinal (by simpa using quiet)
    rw [countP_signer, committed k inside, answered k inside] at heard
    omega
  have count := Finset.card_le_card responsive
  have distinct := List.toFinset_card_le y.replica.roast.responsiveSigner
  have few := one.few run
  omega

theorem final_of_answered_oneSignerSilent : ∃ y,
    Path (LedgerStep fourReplicas 0) (Ledger.start genesis) oneSignerSilent y ∧
    RoastInstance fourReplicas 0 y.history startedTables oneSignerSilentCalls ∧
    roastFinalSignatureSession fourReplicas y.replica.roast := by
  have runs : ∃ y, Ledger.replay fourReplicas 0 oneSignerSilent (Ledger.start genesis) = some y ∧
      y.history = .start ⟨0, 1, "(H=1, T=60)"⟩ :: .resetCounter :: oneSignerSilentCalls := by
    decide +kernel
  obtain ⟨y, ran, history⟩ := runs
  have recorded := Ledger.replay_path ran
  have one : RoastInstance fourReplicas 0 y.history startedTables oneSignerSilentCalls :=
    RoastInstance.of_first history (by decide)
  have fair : ∀ k ∈ ({0, 2} : Finset ℕ),
      FairSigner fourReplicas 0 startedTables k oneSignerSilentCalls := by
    intro k inside
    rcases Finset.mem_insert.mp inside with rfl | inside
    · exact FairSigner.of_forall (by decide) (by decide +kernel)
    · rw [Finset.mem_singleton.mp inside]
      exact FairSigner.of_forall (by decide) (by decide +kernel)
  exact ⟨y, recorded, one, final_of_answered genesis_initial recorded one {0, 2} (by decide) fair
    (by decide) (by decide +kernel)⟩

end Fbft
