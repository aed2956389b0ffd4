import Fbft.Checkpoints
import Fbft.Restart
import Mathlib.Tactic.Positivity
import Mathlib.Tactic.NormNum
import Mathlib.Tactic.Linarith
import Mathlib.Tactic.GCongr
import Mathlib.Algebra.Order.Archimedean.Basic
import Mathlib.Algebra.Order.BigOperators.Group.List

/-! The work that a replica does by itself. At a fixed time, and with no message or block
delivered, every enabled action goes through once, and all of them come to an end. -/
namespace Fbft

open Database LabelledPath

variable {cfg : Config} {i : ℕ} {now : ℚ} {s t : Replica} {a : Action} {r : Request}
  {labels : List (ℚ × Action)}

/-- The actions that become active by the state alone. -/
def Action.Internal : Action → Prop
  | .sendPrePrepare .. | .sendPrepare .. | .sendCommit .. | .recoverView .. | .execute ..
  | .sendViewChange .. | .sendNewView .. | .processNewView .. | .roastInit .. => True
  | _ => False

/-- `effect_ACTION` succeeds, and `pre_ACTION` fails afterwards. -/
def Completes (cfg : Config) (i : ℕ) (now : ℚ) (a : Action) (s : Replica) : Prop :=
  ∃ t, a.apply cfg i s = some t ∧ ¬ a.pre cfg i now t

def InternalStep (cfg : Config) (i : ℕ) (now : ℚ) (s : Replica) (a : Action) (t : Replica) : Prop :=
  a.Internal ∧ Step cfg i s (now, a) t

/-- Every enabled action completes, and every sequence of them is finite. -/
structure Drains (cfg : Config) (i : ℕ) (now : ℚ) (s : Replica) : Prop where
  completes : ∀ a, a.Internal → a.pre cfg i now s → Completes cfg i now a s
  finite : ∃ bound, ∀ actions t, Path (InternalStep cfg i now) s actions t →
    actions.length ≤ bound

/-- What only messages, blocks and the clock change. -/
structure SameInput (s t : Replica) : Prop where
  request : t.msgLogRequest = s.msgLogRequest
  syntheticTime : t.syntheticTime = s.syntheticTime
  commitViewRecovery : t.msgLogCommitViewRecovery = s.msgLogCommitViewRecovery
  checkpoint : t.checkpoint = s.checkpoint

section

attribute [local simp] msgLogAddPrePrepare msgLogAddPrepare msgLogAddCommit msgLogAddViewChange
  msgLogAddNewView msgOutAdd setView msgLogClearWhereViewLessThan

theorem InternalStep.sameInput (step : InternalStep cfg i now s a t) : SameInput s t := by
  obtain ⟨internal, step⟩ := step
  have h := step.apply
  cases a with
  | sendPrePrepare _ _ _ _ | sendPrepare _ _ _ | sendCommit _ _ _ _ | recoverView _
  | sendNewView _ _ =>
    cases h
    exact ⟨rfl, rfl, rfl, rfl⟩
  | execute d v n val =>
    cases h
    obtain ⟨lastExec, lastRep, val', same, -, -⟩ := applyExecute_eq d n val s
    rw [same]
    exact ⟨rfl, rfl, rfl, rfl⟩
  | sendViewChange v =>
    obtain ⟨c, -, rfl⟩ := applySendViewChange_spec h
    constructor <;> simp [enterViewChange_eq]
  | processNewView hi nu chi =>
    cases h
    rw [applyProcessNewView_eq]
    exact ⟨rfl, rfl, rfl, rfl⟩
  | roastInit _ _ _ =>
    obtain ⟨r, -, rfl⟩ := updateRoast_spec h
    exact ⟨rfl, rfl, rfl, rfl⟩
  | _ => cases internal

end

/-- What keeps EXECUTE and SEND_VIEW_CHANGE from being enabled for ever. -/
structure Timely (cfg : Config) (s : Replica) : Prop where
  timeout : s.timeout = viewTimeout cfg s.view
  newer : s.lastExec ≤ lowWatermark s → ∀ r ∈ s.msgLogRequest, s.lastRep < r.reqTimestamp

theorem Step.timeout_eq (step : Step cfg i s (now, a) t)
    (before : s.timeout = viewTimeout cfg s.view) : t.timeout = viewTimeout cfg t.view := by
  rw [step.scalars.1, step.tables.view]
  cases a with
  | recoverView v | sendViewChange v => rfl
  | _ => exact before

namespace Timely

theorem initial (start : Initial cfg s) : Timely cfg s := by
  obtain ⟨height, blockHash, timestamp, view, rfl⟩ := start
  constructor <;> simp [initNotx, setView]

theorem step (timely : Timely cfg s) (inv : Invariant cfg i s) (step : Step cfg i s (now, a) t) :
    Timely cfg t := by
  refine ⟨step.timeout_eq timely.timeout, ?_⟩
  by_cases executes : a.executes = true
  · cases a with
    | execute d v n val =>
      have number := preExecute_number inv step.pre
      have height := step.lowWatermark_same inv (by simp)
      have applied : applyExecute d n val s = t := Option.some.inj step.apply
      unfold applyExecute at applied
      split at applied
      · rw [height, ← applied]
        intro near
        simp only at near
        omega
      · rw [← applied]
        exact timely.newer
    | receiveBlock height time blockHash =>
      intro _ r logged
      obtain ⟨-, -, -, -, -, requests, -⟩ := applyReceiveBlock_frame step.apply
      rw [requests, List.mem_filter] at logged
      simpa using logged.2
    | _ => cases executes
  · obtain ⟨lastExec, lastRep, -⟩ := step.execution_same (by simpa using executes)
    have height : lowWatermark t = lowWatermark s := by
      apply step.lowWatermark_same inv
      rintro height time blockHash rfl
      exact executes rfl
    rw [lastExec, lastRep, height]
    intro near r logged
    rcases step.tables.request r logged with old | new
    · exact timely.newer near r old
    · cases a with
      | receiveRequest d time =>
        simp only [Action.newRequests] at new
        split at new
        · cases new
        · rename_i newer
          rw [List.mem_singleton.mp new]
          exact not_le.mp newer
      | _ => cases new

theorem reachable (reached : Reachable (Initial cfg) (Step cfg i) s) :
    Invariant cfg i s ∧ Timely cfg s := by
  apply reached.invariant
  · intro s start
    exact ⟨Invariant.initial start, initial start⟩
  · rintro s ⟨now, a⟩ t ⟨inv, timely⟩ step
    exact ⟨inv.step step, timely.step inv step⟩

end Timely

/-- EXECUTE finds the request of its digest, and the request is newer than the last reply. -/
theorem Step.execute_advances (inv : Invariant cfg i s) (timely : Timely cfg s)
    (step : Step cfg i s (now, .execute d v n val) t) :
    s.lastExec ≤ lowWatermark s ∧ s.lastExec < t.lastExec ∧ t.lastExec = n := by
  have number := preExecute_number inv step.pre
  have next : s.lastExec + 1 = n := step.pre.1
  obtain ⟨-, -, ⟨⟨r, logged, digest⟩, -⟩, -⟩ := committed_logged inv step.pre.2.1
  have newer := timely.newer (by omega) r logged
  obtain ⟨r', found⟩ : ∃ r', s.msgLogRequest.find?
      (fun r => r.reqDigest = d ∧ s.lastRep < r.reqTimestamp) = some r' := by
    apply Option.isSome_iff_exists.mp
    rw [List.find?_isSome]
    exact ⟨r, logged, by simp [digest, newer]⟩
  have applied : applyExecute d n val s = t := Option.some.inj step.apply
  have executed : t.lastExec = n := by rw [← applied, applyExecute, found]
  omega

theorem Step.ownPrepare_logged (step : Step cfg i s (now, .sendPrepare d v n) t) :
    ∃ m ∈ preparesFor d v n t, m.senderId = i := by
  refine ⟨⟨v, n, d, i, sigOwnReplica⟩, mem_preparesFor.mpr ⟨?_, rfl, rfl, rfl⟩, rfl⟩
  exact step.mem_prepare.mpr ⟨Or.inr (by simp [Action.newPrepares]), rfl⟩

theorem Step.ownCommit_logged (step : Step cfg i s (now, .sendCommit d v n data) t) :
    ∃ m ∈ commitsFor v n t, m.senderId = i := by
  refine ⟨⟨v, n, data, i, sigOwnReplica⟩, mem_commitsFor.mpr ⟨?_, rfl, rfl⟩, rfl⟩
  exact step.mem_commit.mpr ⟨Or.inr (by simp [Action.newCommits]), rfl⟩

theorem applyRoastInit_active {active : RoastActive} {commits : List Commit} {r r' : Roast}
    (h : applyRoastInit cfg active commits i r = some r') : r'.active = some active := by
  unfold applyRoastInit at h
  split at h
  · exact receiveCommitShares_active h
  · rw [← Option.some.inj h]
    rfl

theorem Step.newView_logged (step : Step cfg i s (now, .sendNewView nu chi) t) :
    ∃ m ∈ t.msgLogNewView, m.v = s.view := by
  have applied : applySendNewView nu chi s = t := Option.some.inj step.apply
  rw [← applied]
  simp only [applySendNewView, msgLogAddNewView, msgOutAdd]
  rcases assertzOnceBy_cases NewView.unifies ⟨s.view, nu, chi, sigOwnReplica⟩ s.msgLogNewView with
    ⟨same, m, logged, unifies⟩ | ⟨same, -⟩
  · simp only [NewView.unifies, Bool.and_eq_true, decide_eq_true_eq] at unifies
    rw [same]
    exact ⟨m, logged, unifies.1.1.symm⟩
  · rw [same]
    exact ⟨_, List.mem_append_right _ (List.mem_singleton.mpr rfl), rfl⟩

theorem InternalStep.not_pre (inv : Invariant cfg i s) (timely : Timely cfg s)
    (step : InternalStep cfg i now s a t) : ¬ a.pre cfg i now t := by
  obtain ⟨internal, step⟩ := step
  have tables := step.tables
  intro again
  cases a with
  | sendPrePrepare d data v n =>
    have seqno : t.seqno = n := tables.seqno
    have next : t.seqno + 1 = n := again.2.2.1
    omega
  | sendPrepare d v n =>
    exact again.2.2.2 step.ownPrepare_logged
  | sendCommit d v n data =>
    exact again.2.2 step.ownCommit_logged
  | recoverView v =>
    have view : t.view = v := tables.view
    have higher := (preRecoverView_higher again).1
    omega
  | execute d v n val =>
    have executed := step.execute_advances inv timely
    have next : t.lastExec + 1 = n := again.1
    omega
  | sendViewChange v =>
    have view : t.view = v := tables.view
    have next : v = t.view + 1 := again.1
    omega
  | sendNewView nu chi =>
    have view : t.view = s.view := tables.view
    exact again.2.2.2 (view ▸ step.newView_logged)
  | processNewView hi nu chi =>
    have active : t.activeView = true := tables.activeView
    have inactive : t.activeView = false := again.1
    simp [active] at inactive
  | roastInit d v n =>
    have active := applyRoastInit_active tables.roast
    have idle : t.roast.active = none := again.2.2.1
    simp [active] at idle
  | _ => cases internal

/-- ROAST_INIT apart, an enabled action cannot fail. -/
theorem applies_of_pre (inv : Invariant cfg i s) (internal : a.Internal)
    (starts : ∀ d v n, a = .roastInit d v n → Starts cfg i ⟨v, n, d⟩ s) :
    ∃ t, a.apply cfg i s = some t := by
  cases a with
  | sendPrePrepare _ _ _ _ | sendPrepare _ _ _ | sendCommit _ _ _ _ | recoverView _
  | execute _ _ _ _ | sendNewView _ _ | processNewView _ _ _ => exact ⟨_, rfl⟩
  | sendViewChange v =>
    obtain ⟨c, single⟩ := inv.checkpoint
    have reported : getH (enterViewChange cfg v s) = some c.n := by
      simp [getH, enterViewChange_eq, single]
    have found : (enterViewChange cfg v s).checkpoint.find? (fun c' => c'.n = c.n) = some c := by
      simp [enterViewChange_eq, single]
    simp only [Action.apply, applySendViewChange, reported, found, Option.bind_some,
      Option.map_some]
    exact ⟨_, rfl⟩
  | roastInit d v n =>
    obtain ⟨r, ran⟩ := starts d v n rfl
    exact ⟨{ s with roast := r }, Option.map_eq_some_iff.mpr ⟨r, ran, rfl⟩⟩
  | _ => cases internal

theorem completes_of_starts (inv : Invariant cfg i s) (timely : Timely cfg s)
    (internal : a.Internal) (pre : a.pre cfg i now s)
    (starts : ∀ d v n, a = .roastInit d v n → Starts cfg i ⟨v, n, d⟩ s) :
    Completes cfg i now a s := by
  obtain ⟨t, applied⟩ := applies_of_pre inv internal starts
  have admissible : a.admissible s := by
    cases a <;> trivial
  have step : InternalStep cfg i now s a t := ⟨internal, admissible, pre, applied⟩
  exact ⟨t, applied, step.not_pre inv timely⟩

/-- This replica has a PREPARE out for the digest, at the number of the window. -/
def HasPrepared (i : ℕ) (s : Replica) (reqDigest : String) : Prop :=
  ∃ m ∈ preparesFor reqDigest s.view (lowWatermark s + 1) s, m.senderId = i

instance : Decidable (HasPrepared i s d) := by unfold HasPrepared; infer_instance

def HasCommitted (i : ℕ) (s : Replica) : Prop :=
  ∃ m ∈ commitsFor s.view (lowWatermark s + 1) s, m.senderId = i

instance : Decidable (HasCommitted i s) := by unfold HasCommitted; infer_instance

def HasNewView (s : Replica) : Prop := ∃ m ∈ s.msgLogNewView, m.v = s.view

instance : Decidable (HasNewView s) := by unfold HasNewView; infer_instance

def unprepared (i : ℕ) (s : Replica) : List Request :=
  s.msgLogRequest.filter fun r => ¬ HasPrepared i s r.reqDigest

/-- What can still be done in this view: proposals, PREPAREs, a COMMIT, an EXECUTE, a NEW_VIEW
and a ROAST_INIT. -/
def pending (i : ℕ) (s : Replica) : ℕ :=
  (lowWatermark s + 1 - s.seqno) + (unprepared i s).length +
    (if HasCommitted i s then 0 else 1) + (lowWatermark s + 1 - s.lastExec) +
    (if HasNewView s then 0 else 1) +
    (if s.roast.active = none then 1 else 0)

/-- No more than this is pending in any view. -/
def pendingBound (s : Replica) : ℕ := 2 * (lowWatermark s + 1) + s.msgLogRequest.length + 3

/-- First the view, then whether it is active, then what is pending in it. -/
def work (i last bound : ℕ) (s : Replica) : ℕ :=
  (last - s.view) * (2 * (bound + 1)) + (if s.activeView = true then 0 else bound + 1) + pending i s

theorem pending_le (i : ℕ) (s : Replica) : pending i s ≤ pendingBound s := by
  have few : (unprepared i s).length ≤ s.msgLogRequest.length := List.length_filter_le _ _
  unfold pending pendingBound
  split <;> split <;> split <;> omega

/-- In one view nothing that was done becomes pending again. -/
structure Onward (i : ℕ) (s t : Replica) : Prop where
  lowWatermark : lowWatermark t = lowWatermark s
  request : t.msgLogRequest = s.msgLogRequest
  seqno : s.seqno ≤ t.seqno
  prepared : ∀ d, HasPrepared i s d → HasPrepared i t d
  committed : HasCommitted i s → HasCommitted i t
  lastExec : s.lastExec ≤ t.lastExec
  newView : HasNewView s → HasNewView t
  roast : t.roast.active = none → s.roast.active = none

/-- One of the things that were pending is done. -/
inductive Achieves (i : ℕ) (s t : Replica) : Prop where
  | seqno : s.seqno ≤ lowWatermark s → s.seqno < t.seqno → Achieves i s t
  | prepared (r : Request) : r ∈ s.msgLogRequest → ¬ HasPrepared i s r.reqDigest →
      HasPrepared i t r.reqDigest → Achieves i s t
  | committed : ¬ HasCommitted i s → HasCommitted i t → Achieves i s t
  | lastExec : s.lastExec ≤ lowWatermark s → s.lastExec < t.lastExec → Achieves i s t
  | newView : ¬ HasNewView s → HasNewView t → Achieves i s t
  | roast : s.roast.active = none → t.roast.active ≠ none → Achieves i s t

namespace Onward

theorem unprepared_eq (onward : Onward i s t) :
    unprepared i t = (unprepared i s).filter fun r => ¬ HasPrepared i t r.reqDigest := by
  rw [unprepared, unprepared, onward.request, List.filter_filter]
  apply List.filter_congr
  intro r _
  have kept := onward.prepared r.reqDigest
  by_cases before : HasPrepared i s r.reqDigest <;> simp [before, kept]

theorem unprepared_le (onward : Onward i s t) :
    (unprepared i t).length ≤ (unprepared i s).length := by
  rw [onward.unprepared_eq]
  exact List.length_filter_le _ _

theorem pending_lt (onward : Onward i s t) (achieves : Achieves i s t) :
    pending i t < pending i s := by
  have height := onward.lowWatermark
  have seqno := onward.seqno
  have unprepared := onward.unprepared_le
  have lastExec := onward.lastExec
  have committed : (if HasCommitted i t then 0 else 1) ≤ if HasCommitted i s then 0 else 1 := by
    have kept := onward.committed
    split <;> split <;> first | omega | (exfalso; tauto)
  have newView : (if HasNewView t then 0 else 1) ≤ if HasNewView s then 0 else 1 := by
    have kept := onward.newView
    split <;> split <;> first | omega | (exfalso; tauto)
  have roast : (if t.roast.active = none then 1 else 0) ≤
      if s.roast.active = none then 1 else 0 := by
    have kept := onward.roast
    split <;> split <;> first | omega | (exfalso; tauto)
  unfold pending
  cases achieves with
  | seqno inside later => omega
  | prepared r logged without done =>
    have fewer : (Fbft.unprepared i t).length < (Fbft.unprepared i s).length := by
      rw [onward.unprepared_eq, List.length_filter_lt_length_iff_exists]
      exact ⟨r, List.mem_filter.mpr ⟨logged, by simpa using without⟩, by simpa using done⟩
    omega
  | committed without done =>
    rw [if_pos done, if_neg without]
    omega
  | lastExec inside later => omega
  | newView without done =>
    rw [if_pos done, if_neg without]
    omega
  | roast idle started =>
    rw [if_pos idle, if_neg started]
    omega

end Onward

structure LastView (cfg : Config) (now : ℚ) (last : ℕ) (s : Replica) : Prop where
  recovery : ∀ m ∈ s.msgLogCommitViewRecovery, m.v ≤ last
  timeout : getSyntheticTime now s ≤ viewTimeout cfg last

theorem viewTimeout_mono (v w : ℕ) (le : v ≤ w) : viewTimeout cfg v ≤ viewTimeout cfg w := by
  have half : 0 ≤ (cfg.targetBlockTime : ℚ) / 2 := by positivity
  unfold viewTimeout
  gcongr
  norm_num

/-- Timeouts double, so they grow above any time. -/
theorem exists_lastView (positive : 0 < cfg.targetBlockTime) (now : ℚ) (s : Replica) :
    ∃ last, LastView cfg now last s := by
  obtain ⟨late, after⟩ := exists_nat_gt (2 * getSyntheticTime now s)
  let highest := (s.msgLogCommitViewRecovery.map CommitViewRecovery.v).sum
  refine ⟨max highest late, fun m logged => ?_, ?_⟩
  · have below : m.v ≤ highest := List.le_sum_of_mem (List.mem_map_of_mem logged)
    omega
  · have one : (1 : ℚ) ≤ cfg.targetBlockTime := by exact_mod_cast positive
    have power : (late : ℚ) ≤ 2 ^ late := by exact_mod_cast Nat.lt_two_pow_self.le
    calc getSyntheticTime now s ≤ 2 ^ late * (1 / 2) := by linarith
      _ ≤ viewTimeout cfg late := by
        unfold viewTimeout
        gcongr
      _ ≤ viewTimeout cfg (max highest late) := viewTimeout_mono _ _ (le_max_right _ _)

theorem LastView.congr (lastView : LastView cfg now last s) (same : SameInput s t) :
    LastView cfg now last t := by
  refine ⟨?_, ?_⟩
  · rw [same.commitViewRecovery]
    exact lastView.recovery
  · rw [getSyntheticTime, same.syntheticTime]
    exact lastView.timeout

/-- A higher view is entered by a certificate in the log or after a timeout. -/
theorem InternalStep.view_cases (lastView : LastView cfg now last s) (timely : Timely cfg s)
    (step : InternalStep cfg i now s a t) :
    t.view = s.view ∨ (s.view < t.view ∧ t.view ≤ last) := by
  rcases step.2.view_cases with same | ⟨higher, rfl | rfl⟩
  · exact Or.inl same
  · obtain ⟨-, m, logged, view⟩ := preRecoverView_higher step.2.pre
    exact Or.inr ⟨higher, view ▸ lastView.recovery m logged⟩
  · obtain ⟨next, r, -, -, late⟩ := step.2.pre
    have early : viewTimeout cfg s.view < viewTimeout cfg last := by
      have bound := lastView.timeout
      have time : (0 : ℚ) ≤ r.reqTimestamp := by positivity
      rw [timely.timeout] at late
      linarith
    have below : s.view < last := by
      by_contra above
      exact absurd early (not_lt.mpr (viewTimeout_mono _ _ (not_lt.mp above)))
    exact Or.inr ⟨higher, by omega⟩

theorem InternalStep.lowWatermark_eq (step : InternalStep cfg i now s a t) :
    lowWatermark t = lowWatermark s := by
  rw [lowWatermark, lowWatermark, getH, getH, step.sameInput.checkpoint]

theorem InternalStep.keeps_view (step : InternalStep cfg i now s a t) (same : t.view = s.view)
    (v n : ℕ) : a.keeps v n = true ∧ a.keepsView v = true := by
  cases a with
  | recoverView w =>
    have raised := step.2.recoverView_raises
    omega
  | sendViewChange w =>
    have raised := step.2.sendViewChange_raises
    omega
  | receiveBlock _ _ _ => exact absurd step.1 (by simp [Action.Internal])
  | _ => exact ⟨rfl, rfl⟩

theorem InternalStep.activeView_cases (step : InternalStep cfg i now s a t)
    (same : t.view = s.view) :
    t.activeView = s.activeView ∨ s.activeView = false ∧ t.activeView = true := by
  cases a with
  | sendViewChange w =>
    have raised := step.2.sendViewChange_raises
    omega
  | processNewView hi nu chi => exact Or.inr ⟨step.2.pre.1, step.2.tables.activeView⟩
  | _ => exact Or.inl step.2.tables.activeView

theorem InternalStep.onward (inv : Invariant cfg i s) (timely : Timely cfg s)
    (step : InternalStep cfg i now s a t) (view : t.view = s.view)
    (active : t.activeView = s.activeView) : Onward i s t := by
  have tables := step.2.tables
  have height := step.lowWatermark_eq
  have keeps := step.keeps_view view
  constructor
  · exact height
  · exact step.sameInput.request
  · rw [tables.seqno]
    cases a with
    | sendPrePrepare d data v n =>
      have next : s.seqno + 1 = n := step.2.pre.2.2.1
      simp only [Action.nextSeqno]
      omega
    | processNewView hi nu chi =>
      have before : s.activeView = false := step.2.pre.1
      have after : t.activeView = true := tables.activeView
      simp [before, after] at active
    | _ => exact le_rfl
  · rintro d ⟨m, inside, sender⟩
    obtain ⟨logged, current, number, digest⟩ := mem_preparesFor.mp inside
    refine ⟨m, mem_preparesFor.mpr ⟨?_, by rw [current, view], by rw [number, height], digest⟩,
      sender⟩
    exact step.2.mem_prepare.mpr ⟨Or.inl logged, (keeps _ _).1⟩
  · rintro ⟨m, inside, sender⟩
    obtain ⟨logged, current, number⟩ := mem_commitsFor.mp inside
    refine ⟨m, mem_commitsFor.mpr ⟨?_, by rw [current, view], by rw [number, height]⟩, sender⟩
    exact step.2.mem_commit.mpr ⟨Or.inl logged, (keeps _ _).1⟩
  · by_cases executes : a.executes = true
    · cases a with
      | execute d v n val =>
        exact (step.2.execute_advances inv timely).2.1.le
      | receiveBlock _ _ _ => exact absurd step.1 (by simp [Action.Internal])
      | _ => cases executes
    · exact (step.2.execution_same (by simpa using executes)).1.ge
  · rintro ⟨m, logged, current⟩
    rcases tables.keepsNewView m logged with kept | dropped
    · exact ⟨m, kept, by rw [current, view]⟩
    · rw [(keeps m.v 0).2] at dropped
      cases dropped
  · intro stopped
    rcases step.2.active_none stopped with ⟨v, rfl, -⟩ | ⟨_, _, _, rfl, -⟩ | ⟨idle, -⟩
    · have raised := step.2.sendViewChange_raises
      omega
    · exact absurd step.1 (by simp [Action.Internal])
    · exact idle

theorem InternalStep.achieves (inv : Invariant cfg i s) (timely : Timely cfg s)
    (step : InternalStep cfg i now s a t) (view : t.view = s.view)
    (active : t.activeView = s.activeView) : Achieves i s t := by
  obtain ⟨internal, step⟩ := step
  have tables := step.tables
  have height : lowWatermark t = lowWatermark s :=
    InternalStep.lowWatermark_eq ⟨internal, step⟩
  cases a with
  | sendPrePrepare d data v n =>
    obtain ⟨-, -, next, window, -⟩ := step.pre
    have number := ((inWv_iff inv.checkpoint).mp window).2
    have seqno : t.seqno = n := tables.seqno
    exact .seqno (by omega) (by omega)
  | sendPrepare d v n =>
    obtain ⟨-, window, certified, without⟩ := step.pre
    obtain ⟨rfl, rfl⟩ := (inWv_iff inv.checkpoint).mp window
    obtain ⟨⟨r, logged, rfl⟩, -⟩ := prePrepared_current inv certified rfl
    refine .prepared r logged without ?_
    rw [HasPrepared, view, height]
    exact step.ownPrepare_logged
  | sendCommit d v n data =>
    obtain ⟨window, -, without⟩ := step.pre
    obtain ⟨rfl, rfl⟩ := (inWv_iff inv.checkpoint).mp window
    refine .committed without ?_
    rw [HasCommitted, view, height]
    exact step.ownCommit_logged
  | recoverView v =>
    have raised := step.recoverView_raises
    omega
  | execute d v n val =>
    obtain ⟨near, later, -⟩ := step.execute_advances inv timely
    exact .lastExec near later
  | sendViewChange v =>
    have raised := step.sendViewChange_raises
    omega
  | sendNewView nu chi =>
    refine .newView step.pre.2.2.2 ?_
    rw [HasNewView, view]
    exact step.newView_logged
  | processNewView hi nu chi =>
    have before : s.activeView = false := step.pre.1
    have after : t.activeView = true := tables.activeView
    simp [before, after] at active
  | roastInit d v n =>
    have started := applyRoastInit_active tables.roast
    exact .roast step.pre.2.2.1 (by simp [started])
  | _ => cases internal

structure Working (cfg : Config) (i : ℕ) (now : ℚ) (last bound : ℕ) (s : Replica) : Prop where
  inv : Invariant cfg i s
  timely : Timely cfg s
  lastView : LastView cfg now last s
  bounded : pendingBound s ≤ bound

namespace Working

theorem step (working : Working cfg i now last bound s) (step : InternalStep cfg i now s a t) :
    Working cfg i now last bound t where
  inv := working.inv.step step.2
  timely := working.timely.step working.inv step.2
  lastView := working.lastView.congr step.sameInput
  bounded := by
    have bounded := working.bounded
    rw [pendingBound, step.lowWatermark_eq, step.sameInput.request]
    exact bounded

/-- A higher view pays for everything that can be pending in it. -/
theorem work_lt (working : Working cfg i now last bound s) (step : InternalStep cfg i now s a t) :
    work i last bound t < work i last bound s := by
  have before := (pending_le i s).trans working.bounded
  have after := (pending_le i t).trans (working.step step).bounded
  rcases step.view_cases working.lastView working.timely with view | ⟨higher, within⟩
  · rcases step.activeView_cases view with active | ⟨inactive, active⟩
    · have less := (step.onward working.inv working.timely view active).pending_lt
        (step.achieves working.inv working.timely view active)
      unfold work
      rw [view, active]
      omega
    · unfold work
      rw [view, if_pos active, if_neg (by simp [inactive])]
      omega
  · have fewer : (last - t.view) * (2 * (bound + 1)) + 2 * (bound + 1) ≤
        (last - s.view) * (2 * (bound + 1)) := by
      rw [← Nat.succ_mul]
      exact Nat.mul_le_mul_right _ (by omega)
    unfold work
    split <;> omega

theorem length_le {actions : List Action} (working : Working cfg i now last bound s)
    (run : Path (InternalStep cfg i now) s actions t) :
    actions.length ≤ work i last bound s := by
  have bounded := run.length_add_le (fun _ _ _ working next => working.step next)
    (fun _ _ _ working next => working.work_lt next) working
  omega

end Working

theorem drains_iff_starts (positive : 0 < cfg.targetBlockTime) (inv : Invariant cfg i s)
    (timely : Timely cfg s) (now : ℚ) : Drains cfg i now s ↔
      ∀ d v n, preRoastInit cfg d v n s → Starts cfg i ⟨v, n, d⟩ s := by
  constructor
  · intro drains d v n enabled
    obtain ⟨t, applied, -⟩ := drains.completes (.roastInit d v n) trivial enabled
    obtain ⟨r, ran, -⟩ := updateRoast_spec applied
    exact ⟨r, ran⟩
  · intro starts
    obtain ⟨last, lastView⟩ := exists_lastView positive now s
    constructor
    · intro a internal pre
      refine completes_of_starts inv timely internal pre ?_
      rintro d v n rfl
      exact starts d v n pre
    · refine ⟨work i last (pendingBound s) s, fun actions t run => ?_⟩
      have working : Working cfg i now last (pendingBound s) s := ⟨inv, timely, lastView, le_rfl⟩
      exact working.length_le run

/-- Internal work drains along the runs in which no COMMIT that a coordinator collects is
taken for an answer to an earlier run of ROAST. -/
theorem drains_of_collectsAnew (positive : 0 < cfg.targetBlockTime) (start : Initial cfg s)
    (run : Path (Guarded (Step cfg i) (CollectsAnew cfg i)) s labels t) (now : ℚ) :
    Drains cfg i now t := by
  obtain ⟨inv, timely⟩ := Timely.reachable ⟨s, labels, start, run.unguard⟩
  obtain ⟨-, collected⟩ := Collected.run start run
  rw [drains_iff_starts positive inv timely]
  exact fun d v n enabled => collected.starts inv enabled

theorem drains_commitsInViewZero : ∃ t,
    exec fourReplicas 0 (CollectsAnew fourReplicas 0) commitsInViewZero genesis = some t ∧
    preRoastInit fourReplicas "(H=1, T=60)" 0 1 t ∧ Drains fourReplicas 0 60 t := by
  have runs : ∃ t,
      exec fourReplicas 0 (CollectsAnew fourReplicas 0) commitsInViewZero genesis = some t ∧
      preRoastInit fourReplicas "(H=1, T=60)" 0 1 t := by
    decide +kernel
  obtain ⟨t, ran, enabled⟩ := runs
  exact ⟨t, ran, enabled,
    drains_of_collectsAnew (by decide) genesis_initial (exec_path ran) 60⟩

def answeredAndCoordinatesAgain : List (ℚ × Action) :=
  commitsInViewZero ++
    [(60, .roastInit "(H=1, T=60)" 0 1), (60, .receiveSigShare 1 "s1" "n1")] ++
    coordinatesAgain.drop (commitsInViewZero.length + 1)

/-- The own COMMIT of view 4 is taken for the missing share of view 0. The session is final
when the next COMMIT is heard, so ROAST_INIT fails and stays enabled. -/
theorem answeredAndCoordinatesAgain_not_drains : ∃ t,
    Reachable (Initial fourReplicas) (Step fourReplicas 0) t ∧
    preRoastInit fourReplicas "(H=1, T=60)" 4 1 t ∧
    (Action.roastInit "(H=1, T=60)" 4 1).apply fourReplicas 0 t = none ∧
    ¬ Drains fourReplicas 0 1000 t := by
  have runs : ∃ t, exec fourReplicas 0 Always answeredAndCoordinatesAgain genesis = some t ∧
      preRoastInit fourReplicas "(H=1, T=60)" 4 1 t ∧
      ((Action.roastInit "(H=1, T=60)" 4 1).apply fourReplicas 0 t).isNone := by
    decide +kernel
  obtain ⟨t, ran, enabled, fails⟩ := runs
  rw [Option.isNone_iff_eq_none] at fails
  refine ⟨t, exec_reachable genesis_initial ran, enabled, fails, fun drains => ?_⟩
  obtain ⟨u, applied, -⟩ := drains.completes (.roastInit "(H=1, T=60)" 4 1) trivial enabled
  rw [fails] at applied
  cases applied

end Fbft
