import Fbft.RoastRuns
import Fbft.Aborts

/-! The session that ends with a signature. A share is taken in only while no session has
the threshold of shares, so one session at most gets there, and EXECUTE, which collects
over all of them, finds that one. -/
namespace Fbft

open Database LabelledPath Effect

variable {cfg : Config} {i : ℕ} {now : ℚ} {s t : Replica} {a : Action} {r r' : Roast}
  {labels : List (ℚ × Action)}

def SignatureSession.Full (cfg : Config) (e : SignatureSession) : Prop :=
  e.signatureShares.length = sigQuorum cfg

instance : DecidablePred (SignatureSession.Full cfg) := fun _ =>
  inferInstanceAs (Decidable (_ = _))

structure OneFinalSession (cfg : Config) (r : Roast) : Prop where
  short : ∀ e ∈ r.signatureSession, e.signatureShares.length ≤ sigQuorum cfg
  nodup : r.signatureSession.Nodup
  one : ∀ e ∈ r.signatureSession, ∀ e' ∈ r.signatureSession, e.Full cfg → e'.Full cfg → e = e'

namespace OneFinalSession

theorem congr (one : OneFinalSession cfg r) (same : r'.signatureSession = r.signatureSession) :
    OneFinalSession cfg r' := by
  constructor <;> rw [same]
  · exact one.short
  · exact one.nodup
  · exact one.one

theorem replace (one : OneFinalSession cfg r) {session : SignatureSession}
    (notFull : ∀ e ∈ r.signatureSession, ¬ e.Full cfg)
    (within : session.signatureShares.length ≤ sigQuorum cfg) :
    OneFinalSession cfg (setRoastSignatureSession session r) where
  short := by
    intro e member
    rcases mem_setRoastSignatureSession.mp member with ⟨old, -⟩ | rfl
    · exact one.short e old
    · exact within
  nodup := nodup_assertzOnce (one.nodup.filter _)
  one := by
    intro e member e' member' full full'
    rcases mem_setRoastSignatureSession.mp member with ⟨old, -⟩ | rfl
    · exact absurd full (notFull e old)
    · rcases mem_setRoastSignatureSession.mp member' with ⟨old, -⟩ | rfl
      · exact absurd full' (notFull e' old)
      · rfl

theorem not_full (active : r.active.isSome) (notFinal : ¬ roastFinalSignatureSession cfg r) :
    ∀ e ∈ r.signatureSession, ¬ e.Full cfg :=
  fun e inside full => notFinal ⟨active, e, inside, full⟩

theorem store {j : ℕ} {share : Option String} (one : OneFinalSession cfg r)
    (notFull : ∀ e ∈ r.signatureSession, ¬ e.Full cfg)
    (h : storeSignatureShare j share r = some r') :
    OneFinalSession cfg r' ∧ r'.active = r.active := by
  rcases storeSignatureShare_spec h with ⟨-, rfl⟩ | ⟨session, inside, -, rfl⟩
  · exact ⟨one, rfl⟩
  · refine ⟨one.replace notFull ?_, rfl⟩
    have within := one.short session inside
    have different : session.signatureShares.length ≠ sigQuorum cfg := notFull session inside
    simp only [List.length_append, List.length_singleton]
    omega

theorem receive {j : ℕ} {share : Option String} {next : String} (one : OneFinalSession cfg r)
    (h : applyReceiveSigShare cfg j share next i r = some r') : OneFinalSession cfg r' := by
  obtain ⟨active, running, notFinal, -, stored, store, rest⟩ := applyReceiveSigShare_spec h
  obtain ⟨malicious, marked, -⟩ := markUnsolicited_frame j r
  have notFull : ∀ e ∈ (markUnsolicited j r).signatureSession, ¬ e.Full cfg := by
    rw [marked]
    exact not_full (by simp [running]) notFinal
  have one' : OneFinalSession cfg (markUnsolicited j r) := one.congr (by rw [marked])
  obtain ⟨kept, active'⟩ := one'.store notFull store
  rw [marked] at active'
  rcases rest with ⟨-, rfl⟩ | ⟨notFinal', opened⟩
  · exact kept
  · have notFull' := not_full (by rw [active']; simp [running]) notFinal'
    have heard : OneFinalSession cfg
        (roastMarkResponsive j (setLatestPreSignatureShare j next stored)) := kept.congr rfl
    rcases initiateSession_sessions opened with rfl | ⟨counter, -, -, same⟩
    · exact heard
    · exact (heard.replace notFull' (Nat.zero_le _)).congr same

theorem op {op : RoastOp} (one : OneFinalSession cfg r) (step : RoastStep cfg i r op r') :
    OneFinalSession cfg r' := by
  cases op with
  | start _ | resetCounter | stop | clearOut =>
    cases step
    exact one.congr rfl
  | collectGarbage =>
    cases step
    constructor <;> simp [roastCollectGarbage]
  | answer share next =>
    simp only [RoastStep, RoastOp.apply] at step
    split at step
    · cases step
      exact one.congr rfl
    · cases step
  | receive delivery j share next => exact one.receive step

theorem run (start : Initial cfg s) (run : Path (Step cfg i) s labels t) :
    OneFinalSession cfg t.roast := by
  obtain ⟨y, recorded, rfl⟩ := Ledger.of_run run (Ledger.start s) rfl
  have both : y.commits.map Prod.fst = y.replica.msgLogCommit ∧
      OneFinalSession cfg y.replica.roast := by
    apply recorded.invariant
    · rintro x ⟨now, a⟩ y ⟨same, one⟩ step
      refine ⟨step.commits_log same, ?_⟩
      exact (step.roast_path same).invariant (fun _ _ _ one step => one.op step) one
    · obtain ⟨height, blockHash, timestamp, view, rfl⟩ := start
      refine ⟨by simp [Ledger.start, initNotx, setView], ?_⟩
      constructor <;> simp [Ledger.start, initNotx, setView, roastCollectGarbage]
  exact both.2

theorem filter_full (one : OneFinalSession cfg r) (inside : e ∈ r.signatureSession)
    (full : e.Full cfg) : r.signatureSession.filter (SignatureSession.Full cfg) = [e] := by
  apply filter_eq_singleton one.nodup inside (by simpa using full)
  intro e' inside' full'
  exact one.one e' inside' e inside (of_decide_eq_true full') full

theorem full_length_le (one : OneFinalSession cfg r) :
    (r.signatureSession.filter (SignatureSession.Full cfg)).length ≤ 1 := by
  by_cases some : ∃ e ∈ r.signatureSession, e.Full cfg
  · obtain ⟨e, inside, full⟩ := some
    rw [one.filter_full inside full, List.length_singleton]
  · have none : r.signatureSession.filter (SignatureSession.Full cfg) = [] := by
      apply List.filter_eq_nil_iff.mpr
      intro e inside full
      exact some ⟨e, inside, of_decide_eq_true full⟩
    simp [none]

end OneFinalSession

/-- What `Execute::effect` collects over all solutions of `roast_final_signature_session`
is what session `e` holds. -/
structure ExecutesSession (cfg : Config) (r : Roast) (e : SignatureSession) : Prop where
  recorded : e ∈ r.signatureSession
  sessions : finalSessions cfg r = [e]
  signers : (finalSessions cfg r).flatMap SignatureSession.signers = e.signers
  signatures : finalSignatures cfg r = e.signatureShares.map shareText
  preSignature : finalPreSignature cfg r = e.preSignature
  lengths : e.signatureShares.length = e.signers.length

theorem OneFinalSession.executes (one : OneFinalSession cfg r) (full : FullSessions cfg r)
    (final : roastFinalSignatureSession cfg r) : ∃ e, ExecutesSession cfg r e := by
  obtain ⟨active, e, inside, complete⟩ := final
  have found : finalSessions cfg r = [e] := by
    rw [finalSessions, if_pos active]
    exact one.filter_full inside complete
  refine ⟨e, inside, found, ?_, ?_, ?_, ?_⟩
  · simp [found]
  · simp [finalSignatures, found]
  · simp [finalPreSignature, found]
  · rw [complete, full e inside]

/-- The actions after which ROAST is not active. -/
def Action.endsRoast : Action → Bool
  | receiveBlock .. => true
  | sendViewChange _ => true
  | _ => false

theorem Step.final_frozen (step : Step cfg i s (now, a) t)
    (final : roastFinalSignatureSession cfg s.roast) (goesOn : a.endsRoast = false) :
    t.roast = { s.roast with msgOut := t.roast.msgOut } := by
  have next := step.tables.roast
  cases a with
  | receiveBlock _ _ _ | sendViewChange _ => cases goesOn
  | receiveCommit v n data j sig =>
    have quiet : ¬ commitFeedsRoast cfg v n i s.roast := fun feeds => feeds.2.2 final
    simp only [Action.nextRoast, quiet, and_false, if_false] at next
    rw [← Option.some.inj next]
  | roastInit d v n =>
    exact absurd final step.pre.2.2.2
  | receivePreSignature signers preSignature share nextShare =>
    simp only [Action.nextRoast, applyReceivePreSignature, final.1, if_true] at next
    rw [← Option.some.inj next]
    rfl
  | receiveSigShare j share nextShare =>
    obtain ⟨-, -, notFinal, -⟩ := applyReceiveSigShare_spec next
    exact absurd final notFinal
  | _ => rw [← Option.some.inj next]

theorem final_frozen_run (final : roastFinalSignatureSession cfg s.roast)
    (run : Path (Guarded (Step cfg i) fun _ l => l.2.endsRoast = false) s labels t) :
    t.roast = { s.roast with msgOut := t.roast.msgOut } := by
  refine run.snoc_induction
    (motive := fun _ t => t.roast = { s.roast with msgOut := t.roast.msgOut }) rfl ?_
  rintro labels t ⟨now, a⟩ u - same ⟨step, goesOn⟩
  have final' : roastFinalSignatureSession cfg t.roast := by
    rw [same]
    exact final
  rw [step.final_frozen final' goesOn, same]

/-- One session at most is ever final; it stays as it is until a block or a view change,
and it is the one that EXECUTE uses. -/
theorem oneFinalSession (start : Initial cfg s) (run : Path (Step cfg i) s labels t) :
    (∀ e ∈ t.roast.signatureSession, e.signatureShares.length ≤ sigQuorum cfg) ∧
    (t.roast.signatureSession.filter
      fun e => e.signatureShares.length = sigQuorum cfg).length ≤ 1 ∧
    (roastFinalSignatureSession cfg t.roast →
      (∃ e, ExecutesSession cfg t.roast e) ∧
      ∀ labels' u, Path (Guarded (Step cfg i) fun _ l => l.2.endsRoast = false) t labels' u →
        u.roast = { t.roast with msgOut := u.roast.msgOut }) := by
  have one := OneFinalSession.run start run
  have full := FullSessions.reachable ⟨s, labels, start, run⟩
  refine ⟨one.short, one.full_length_le, fun final => ⟨one.executes full final, ?_⟩⟩
  intro labels' u later
  exact final_frozen_run final later

def gathersShares : List (ℚ × Action) :=
  commitsInViewZero ++
    [(60, .roastInit "(H=1, T=60)" 0 1), (60, .receiveSigShare 1 "s1" "n1"),
      (60, .receiveSigShare 0 "s0" "n0")]

theorem oneFinalSession_gathersShares : ∃ t,
    exec fourReplicas 0 Always gathersShares genesis = some t ∧
    roastFinalSignatureSession fourReplicas t.roast ∧
    ∃ e, ExecutesSession fourReplicas t.roast e := by
  have runs : ∃ t, exec fourReplicas 0 Always gathersShares genesis = some t ∧
      roastFinalSignatureSession fourReplicas t.roast := by
    decide +kernel
  obtain ⟨t, ran, final⟩ := runs
  obtain ⟨-, -, executes⟩ := oneFinalSession genesis_initial (exec_path ran).unguard
  exact ⟨t, ran, final, (executes final).1⟩

end Fbft
