import Fbft.Checkpoints
import Fbft.Incoming
import Fbft.Process

/-! When RECEIVE_PRE_PREPARE accepts a proposal. The comparison of the timestamps has a slip: a
truth value of the block time stands where the block time should. -/
namespace Fbft

open Database LabelledPath

variable {Nonce Block : Type} {host : Host Nonce Block} {cfg : Config} {i : ℕ} {now : ℚ}
  {p p' q : Process Nonce Block} {s t : Replica} {r : Request}

def tryFindByDigest (reqDigest : String) (s : Replica) : Option Request :=
  s.msgLogRequest.find? fun r => r.reqDigest = reqDigest

/-- `ReceivePrePrepare::effect`, with the current time and the tolerance of its constructor and
the answer of `TestBlockValidity`. -/
def Effect.receivePrePrepareWithin (host : Host Nonce Block) (cfg : Config) (i : ℕ)
    (currentTime prePrepareTimeToleranceDelta : ℚ) (m : Messages.PrePrepare Block) (valid : Bool)
    (p : Process Nonce Block) : Bool × Process Nonce Block :=
  if valid = false then (false, p)
  else
    let p := { p with tested := (m.seqNumber, m.proposedBlock) :: p.tested }
    match tryFindByDigest m.reqDigest p.engine with
    | none => (false, p)
    | some req =>
      if notTime host m.proposedBlock = req.reqTimestamp then (false, p)
      else if currentTime + prePrepareTimeToleranceDelta < req.reqTimestamp then (false, p)
      else callEngine cfg i
        (.receivePrePrepare m.view m.seqNumber m.reqDigest (host.getHex m.proposedBlock) m.senderId
          m.signature) p

theorem receivePrePrepareEffect_eq (m : Messages.PrePrepare Block) (valid : Bool) :
    Effect.receivePrePrepareEffect host cfg i now m.view m.seqNumber m.reqDigest m.proposedBlock
        m.senderId m.signature valid p =
      Effect.receivePrePrepareWithin host cfg i (getSyntheticTime now p.engine)
        ((cfg.targetBlockTime : ℚ) / 10) m valid p := rfl

/-- What is asked of a proposal besides the time of its block. -/
structure FitsRequest (cfg : Config) (i : ℕ) (latest : ℚ) (m : Messages.PrePrepare Block)
    (valid : Bool) (s : Replica) (req : Request) : Prop where
  valid : valid = true
  request : tryFindByDigest m.reqDigest s = some req
  notEarly : (req.reqTimestamp : ℚ) ≤ latest
  primary : primary cfg s.view = m.senderId
  other : m.senderId ≠ i
  window : inWv m.view m.seqNumber s
  active : s.activeView = true
  digest : ∀ m' ∈ s.msgLogPrePrepare, m'.v = m.view → m'.n = m.seqNumber →
    m'.senderId = m.senderId → m'.reqDigest = m.reqDigest

/-- And the block has the time of the request. -/
def RightProposal (host : Host Nonce Block) (cfg : Config) (i : ℕ) (latest : ℚ)
    (m : Messages.PrePrepare Block) (valid : Bool) (s : Replica) : Prop :=
  ∃ req, FitsRequest cfg i latest m valid s req ∧ host.nTime m.proposedBlock = req.reqTimestamp

/-- The block of the message is put into the log. -/
def LogsBlock (host : Host Nonce Block) (m : Messages.PrePrepare Block) (p : Process Nonce Block)
    (outcome : Bool × Process Nonce Block) : Prop :=
  outcome.1 = true ∧ outcome.2.engine = msgLogAddPrePrepare
    ⟨m.view, m.seqNumber, m.reqDigest, some (host.getHex m.proposedBlock), m.senderId, m.signature⟩
    p.engine

def Effect.ReceivesBlock : Effect Nonce Block → Prop
  | .engine (.receiveBlock _ _ _) => True
  | _ => False

/-- RECEIVE_BLOCK knows the time of the block, until a block comes or that time is replied. -/
def MatchedLater (host : Host Nonce Block) (cfg : Config) (i time : ℕ) (p : Process Nonce Block) :
    Prop :=
  ∀ labels q, Path (ProcessStep host cfg i) p labels q →
    (q.engine.lastRep < time ∨ ∀ l ∈ labels, ¬ l.2.ReceivesBlock) →
    ∀ height blockHash, applyReceiveBlock height time blockHash q.engine ≠ none

/-- Exactly the right proposals are logged, the others leave the engine as it is, and a block that
is logged can be matched when the chain has it. -/
structure AcceptsRight (host : Host Nonce Block) (cfg : Config) (i : ℕ) (latest : ℚ)
    (m : Messages.PrePrepare Block) (valid : Bool) (p : Process Nonce Block)
    (outcome : Bool × Process Nonce Block) : Prop where
  logs_iff : LogsBlock host m p outcome ↔ RightProposal host cfg i latest m valid p.engine
  otherwise : ¬ RightProposal host cfg i latest m valid p.engine → outcome.2.engine = p.engine
  matched : LogsBlock host m p outcome →
    MatchedLater host cfg i (host.nTime m.proposedBlock) outcome.2

/-- The proposal fails another test, its times are equal, or the truth value that is compared
happens to equal the timestamp of the request. -/
def TimesCompared (host : Host Nonce Block) (cfg : Config) (i : ℕ) (latest : ℚ)
    (m : Messages.PrePrepare Block) (valid : Bool) (s : Replica) : Prop :=
  ∀ req, FitsRequest cfg i latest m valid s req →
    host.nTime m.proposedBlock = req.reqTimestamp ∨
      Effect.notTime host m.proposedBlock = req.reqTimestamp

theorem Step.lastRep_le (step : Step cfg i s (now, a) t) : s.lastRep ≤ t.lastRep := by
  by_cases executes : a.executes = true
  · have replied : ∀ d n val, s.lastRep ≤ (applyExecute d n val s).lastRep := by
      intro d n val
      unfold applyExecute
      split
      · rename_i r found
        have newer := List.find?_some found
        simp only [decide_eq_true_eq] at newer
        exact newer.2.le
      · exact le_rfl
    have h := step.apply
    cases a with
    | execute d v n val =>
      cases h
      exact replied d n val
    | receiveBlock height time blockHash =>
      obtain ⟨r, -, -, rfl⟩ := applyReceiveBlock_spec h
      exact replied r.reqDigest height blockHash
    | _ => cases executes
  · rw [(step.execution_same (by simpa using executes)).2.1]

theorem Step.request_kept (step : Step cfg i s (now, a) t) (logged : r ∈ s.msgLogRequest) :
    r ∈ t.msgLogRequest ∨
      r.reqTimestamp ≤ t.lastRep ∧ ∃ height time blockHash, a = .receiveBlock height time blockHash := by
  rcases step.tables.keepsRequest r logged with kept | ⟨height, time, blockHash, rfl⟩
  · exact Or.inl kept
  obtain ⟨-, -, -, -, -, requests, -⟩ := applyReceiveBlock_frame step.apply
  rw [requests, List.mem_filter]
  by_cases newer : t.lastRep < r.reqTimestamp
  · exact Or.inl ⟨logged, by simpa using newer⟩
  · exact Or.inr ⟨by omega, height, time, blockHash, rfl⟩

theorem ProcessStep.request_kept {l : ℚ × Effect Nonce Block} (step : ProcessStep host cfg i p l p')
    (logged : r ∈ p.engine.msgLogRequest) : r ∈ p'.engine.msgLogRequest ∨
      r.reqTimestamp ≤ p'.engine.lastRep ∧ l.2.ReceivesBlock := by
  obtain ⟨now, e⟩ := l
  rcases step.engine_cases with same | ⟨a, calls, next⟩
  · rw [same]
    exact Or.inl logged
  rcases next.request_kept logged with kept | ⟨replied, height, time, blockHash, rfl⟩
  · exact Or.inl kept
  refine Or.inr ⟨replied, ?_⟩
  cases e with
  | engine a' =>
    cases calls
    trivial
  | sendPrePrepare _ _ _ _ | receivePrePrepare _ _ _ _ _ _ _ | sendCommit _ _ _ _
  | roastReceivePreSignature _ _ _ _ | execute _ _ _ => simp [Effect.Calls] at calls

theorem ProcessStep.lastRep_le {l : ℚ × Effect Nonce Block} (step : ProcessStep host cfg i p l p') :
    p.engine.lastRep ≤ p'.engine.lastRep := by
  rcases step.engine_cases with same | ⟨a, -, next⟩
  · rw [same]
  · exact next.lastRep_le

theorem matchedLater_of_logged (logged : r ∈ p.engine.msgLogRequest) :
    MatchedLater host cfg i r.reqTimestamp p := by
  intro labels q run waits height blockHash
  have kept : r ∈ q.engine.msgLogRequest ∨
      r.reqTimestamp ≤ q.engine.lastRep ∧ ∃ l ∈ labels, l.2.ReceivesBlock := by
    refine run.snoc_induction (motive := fun labels q => r ∈ q.engine.msgLogRequest ∨
      r.reqTimestamp ≤ q.engine.lastRep ∧ ∃ l ∈ labels, l.2.ReceivesBlock) (Or.inl logged) ?_
    intro labels q l q' _ waiting step
    rcases waiting with logged | ⟨replied, l', before, block⟩
    · rcases step.request_kept logged with kept | ⟨replied, block⟩
      · exact Or.inl kept
      · exact Or.inr ⟨replied, l, by simp, block⟩
    · exact Or.inr ⟨replied.trans step.lastRep_le, l', by simp [before], block⟩
  have logged' : r ∈ q.engine.msgLogRequest := by
    rcases kept with logged' | ⟨replied, l, inside, block⟩
    · exact logged'
    rcases waits with newer | none
    · omega
    · exact absurd block (none l inside)
  obtain ⟨r', found⟩ : ∃ r', q.engine.msgLogRequest.find?
      (fun r' => r'.reqTimestamp = r.reqTimestamp) = some r' := by
    apply Option.isSome_iff_exists.mp
    rw [List.find?_isSome]
    exact ⟨r, logged', by simp⟩
  simp [applyReceiveBlock, found]

theorem notTime_ne {block : Block} : Effect.notTime host block ≠ host.nTime block := by
  unfold Effect.notTime
  split <;> omega

/-- In a reachable state the sender has one digest at a number, so the two ways the engine accepts
a pre-prepare come to the same. -/
theorem applyReceivePrePrepare_eq {v n : ℕ} {reqDigest data senderSig : String} {senderId : ℕ}
    (inv : Invariant cfg i s) :
    applyReceivePrePrepare cfg v n reqDigest data senderId senderSig i s =
      if senderId ≠ i ∧ primary cfg s.view = senderId ∧ inWv v n s ∧ s.activeView = true ∧
          (∀ m ∈ s.msgLogPrePrepare, m.v = v → m.n = n → m.senderId = senderId →
            m.reqDigest = reqDigest) then
        some (msgLogAddPrePrepare ⟨v, n, reqDigest, some data, senderId, senderSig⟩ s)
      else none := by
  unfold applyReceivePrePrepare
  congr 1
  simp only [eq_iff_iff]
  refine and_congr_right fun _ => and_congr_right fun _ => and_congr_right fun _ =>
    and_congr_right fun _ => ⟨?_, ?_⟩
  · rintro (none | ⟨m, logged, -, number, rfl, -⟩) m' logged' view' number' sender'
    · exact absurd ⟨m', logged', view', number', sender'⟩ none
    · exact inv.oneDigest m' logged' m logged (number'.trans number.symm)
  · intro same
    by_cases known : ∃ m ∈ s.msgLogPrePrepare, m.v = v ∧ m.n = n ∧ m.senderId = senderId
    · obtain ⟨m, logged, view, number, sender⟩ := known
      exact Or.inr ⟨m, logged, view, number, same m logged view number sender, sender⟩
    · exact Or.inl known

section

variable {latest currentTime delta : ℚ} {m : Messages.PrePrepare Block} {valid : Bool}

/-- What the effect does is decided by the truth value `!nTime`. -/
theorem receivePrePrepareWithin_cases (host : Host Nonce Block) (currentTime : ℚ)
    (inv : Invariant cfg i p.engine) :
    (∃ req, FitsRequest cfg i (currentTime + delta) m valid p.engine req ∧
        Effect.notTime host m.proposedBlock ≠ req.reqTimestamp ∧
        LogsBlock host m p
          (Effect.receivePrePrepareWithin host cfg i currentTime delta m valid p)) ∨
      (∀ req, FitsRequest cfg i (currentTime + delta) m valid p.engine req →
        Effect.notTime host m.proposedBlock = req.reqTimestamp) ∧
      (Effect.receivePrePrepareWithin host cfg i currentTime delta m valid p).1 = false ∧
      (Effect.receivePrePrepareWithin host cfg i currentTime delta m valid p).2.engine = p.engine := by
  unfold Effect.receivePrePrepareWithin
  by_cases tested : valid = false
  · rw [if_pos tested]
    exact Or.inr ⟨fun req fits => absurd fits.valid (by simp [tested]), rfl, rfl⟩
  rw [if_neg tested]
  cases found : tryFindByDigest m.reqDigest p.engine with
  | none =>
    refine Or.inr ⟨fun req fits => ?_, ?_⟩
    · have request := fits.request
      rw [found] at request
      cases request
    · simp [found]
  | some req =>
    simp only [found]
    have only : ∀ req', FitsRequest cfg i (currentTime + delta) m valid p.engine req' → req' = req :=
      fun req' fits => Option.some.inj (fits.request.symm.trans found)
    by_cases compared : Effect.notTime host m.proposedBlock = req.reqTimestamp
    · rw [if_pos compared]
      exact Or.inr ⟨fun req' fits => by rw [only req' fits, compared], rfl, rfl⟩
    rw [if_neg compared]
    by_cases early : currentTime + delta < req.reqTimestamp
    · rw [if_pos early]
      refine Or.inr ⟨fun req' fits => ?_, rfl, rfl⟩
      have notEarly := fits.notEarly
      rw [only req' fits] at notEarly
      exact absurd early (not_lt.mpr notEarly)
    rw [if_neg early]
    simp only [callEngine, Action.apply, applyReceivePrePrepare_eq inv]
    split
    · rename_i t accepted
      split at accepted
      · rename_i meets
        obtain ⟨other, primary, window, active, digest⟩ := meets
        cases accepted
        exact Or.inl ⟨req, ⟨by simpa using tested, found, not_lt.mp early, primary, other, window,
          active, digest⟩, compared, rfl, rfl⟩
      · cases accepted
    · rename_i rejected
      refine Or.inr ⟨fun req' fits => ?_, rfl, rfl⟩
      rw [if_pos ⟨fits.other, fits.primary, fits.window, fits.active, fits.digest⟩] at rejected
      cases rejected

/-- For every reachable state, current time, tolerance and message: exactly the right proposals
are accepted when the slip in the comparison does not decide. -/
theorem acceptsRight_iff_timesCompared
    (reached : Reachable (InitialProcess cfg) (ProcessStep host cfg i) p) :
    AcceptsRight host cfg i (currentTime + delta) m valid p
        (Effect.receivePrePrepareWithin host cfg i currentTime delta m valid p) ↔
      TimesCompared host cfg i (currentTime + delta) m valid p.engine := by
  obtain ⟨p₀, labels, start, run⟩ := reached
  have inv := Invariant.reachable (ProcessStep.engine_reachable start run)
  have right : RightProposal host cfg i (currentTime + delta) m valid p.engine →
      ∃ req, FitsRequest cfg i (currentTime + delta) m valid p.engine req ∧
        Effect.notTime host m.proposedBlock ≠ req.reqTimestamp := by
    rintro ⟨req, fits, equal⟩
    exact ⟨req, fits, equal ▸ notTime_ne⟩
  rcases receivePrePrepareWithin_cases host currentTime inv with
    ⟨req, fits, differs, logs⟩ | ⟨compared, rejected, same⟩
  · constructor
    · intro accepts req' fits'
      obtain ⟨req'', fits'', equal⟩ := accepts.logs_iff.mp logs
      cases fits'.request.symm.trans fits''.request
      exact Or.inl equal
    · intro compared
      have equal := (compared req fits).resolve_right differs
      refine ⟨iff_of_true logs ⟨req, fits, equal⟩, fun wrong => absurd ⟨req, fits, equal⟩ wrong,
        fun _ => ?_⟩
      rw [equal]
      apply matchedLater_of_logged
      rw [logs.2]
      exact List.mem_of_find?_eq_some fits.request
  · have unlogged : ¬ LogsBlock host m p
        (Effect.receivePrePrepareWithin host cfg i currentTime delta m valid p) := by
      rintro ⟨accepted, -⟩
      rw [rejected] at accepted
      cases accepted
    refine iff_of_true ⟨iff_of_false unlogged fun proposal => ?_, fun _ => same,
      fun logs => absurd logs unlogged⟩ fun req fits => Or.inr (compared req fits)
    obtain ⟨req, fits, differs⟩ := right proposal
    exact differs (compared req fits)

end

/-- Replica 1 knows the first request and gets the block of replica 0. -/
theorem acceptsRight_timely : ∃ p,
    execEffects (textHost 1) fourReplicas 1 AlwaysApplies
      [(60, .engine (.receiveRequest "(H=1, T=60)" 60))] genesisProcess = some p ∧
    AcceptsRight (textHost 1) fourReplicas 1 (60 + 6) ⟨0, "S0", 0, 1, "(H=1, T=60)", "B60"⟩ true p
      (Effect.receivePrePrepareWithin (textHost 1) fourReplicas 1 60 6
        ⟨0, "S0", 0, 1, "(H=1, T=60)", "B60"⟩ true p) := by
  have runs : ∃ p, execEffects (textHost 1) fourReplicas 1 AlwaysApplies
      [(60, .engine (.receiveRequest "(H=1, T=60)" 60))] genesisProcess = some p ∧
      tryFindByDigest "(H=1, T=60)" p.engine = some ⟨"(H=1, T=60)", 60⟩ := by
    decide +kernel
  obtain ⟨p, ran, found⟩ := runs
  refine ⟨p, ran, (acceptsRight_iff_timesCompared
    ⟨_, _, genesisProcess_initial, (execEffects_path _ _ _ ran).unguard⟩).mpr ?_⟩
  intro req fits
  cases fits.request.symm.trans found
  exact Or.inl rfl

def lateHost : Host ℕ String :=
  { textHost 1 with nTime := fun block => if block = "B61" then 61 else 60 }

/-- A valid block with another time than its request is logged, and when the chain has it
RECEIVE_BLOCK does not find its request. -/
theorem lateBlock_accepted : ∃ p,
    Reachable (InitialProcess fourReplicas) (ProcessStep lateHost fourReplicas 1) p ∧
    applyReceiveBlock 1 61 "H1" (Effect.receivePrePrepareWithin lateHost fourReplicas 1 60 6
      ⟨0, "S0", 0, 1, "(H=1, T=60)", "B61"⟩ true p).2.engine = none ∧
    ¬ AcceptsRight lateHost fourReplicas 1 (60 + 6) ⟨0, "S0", 0, 1, "(H=1, T=60)", "B61"⟩ true p
      (Effect.receivePrePrepareWithin lateHost fourReplicas 1 60 6
        ⟨0, "S0", 0, 1, "(H=1, T=60)", "B61"⟩ true p) := by
  have runs : ∃ p, execEffects lateHost fourReplicas 1 AlwaysApplies
      [(60, .engine (.receiveRequest "(H=1, T=60)" 60))] genesisProcess = some p ∧
      tryFindByDigest "(H=1, T=60)" p.engine = some ⟨"(H=1, T=60)", 60⟩ ∧
      applyReceiveBlock 1 61 "H1" (Effect.receivePrePrepareWithin lateHost fourReplicas 1 60 6
        ⟨0, "S0", 0, 1, "(H=1, T=60)", "B61"⟩ true p).2.engine = none ∧
      (Effect.receivePrePrepareWithin lateHost fourReplicas 1 60 6
        ⟨0, "S0", 0, 1, "(H=1, T=60)", "B61"⟩ true p).1 = true ∧
      (Effect.receivePrePrepareWithin lateHost fourReplicas 1 60 6
        ⟨0, "S0", 0, 1, "(H=1, T=60)", "B61"⟩ true p).2.engine = msgLogAddPrePrepare
          ⟨0, 1, "(H=1, T=60)", some "B61", 0, "S0"⟩ p.engine := by
    decide +kernel
  obtain ⟨p, ran, found, unmatched, accepted, logged⟩ := runs
  refine ⟨p, ⟨_, _, genesisProcess_initial, (execEffects_path _ _ _ ran).unguard⟩, unmatched, ?_⟩
  intro accepts
  obtain ⟨req, fits, equal⟩ := accepts.logs_iff.mp ⟨accepted, logged⟩
  cases fits.request.symm.trans found
  exact absurd equal (by decide)

end Fbft
