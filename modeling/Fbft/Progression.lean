import Fbft.Checkpoints
import Fbft.Ingest
import Fbft.Timestamps
import Mathlib.Data.List.Range

/-! The requests that are not yet replied, in runs where `GenerateRequests` alone makes requests:
one for each of the next few block times, in order and without a gap. Times are below the wrap of
the 32-bit sums. -/
namespace Fbft

open Database LabelledPath

def progression (b t m : ℕ) : List ℕ := (List.range' 1 m).map fun k => b + k * t

theorem mem_progression {b t m time : ℕ} :
    time ∈ progression b t m ↔ ∃ k, 1 ≤ k ∧ k ≤ m ∧ time = b + k * t := by
  simp only [progression, List.mem_map, List.mem_range'_1]
  constructor
  · rintro ⟨k, ⟨one, le⟩, rfl⟩
    exact ⟨k, one, by omega, rfl⟩
  · rintro ⟨k, one, le, rfl⟩
    exact ⟨k, ⟨one, by omega⟩, rfl⟩

theorem progression_succ (b t m : ℕ) :
    progression b t (m + 1) = progression b t m ++ [b + (m + 1) * t] := by
  rw [progression, List.range'_1_concat, List.map_append, List.map_singleton, Nat.add_comm 1 m]
  rfl

theorem filter_progression {b t k m : ℕ} (positive : 0 < t) (le : k ≤ m) :
    (progression b t m).filter (fun time => b + k * t < time) =
      progression (b + k * t) t (m - k) := by
  obtain ⟨rest, rfl⟩ := Nat.exists_eq_add_of_le le
  rw [Nat.add_sub_cancel_left]
  induction rest with
  | zero =>
    rw [Nat.add_zero, progression, List.filter_eq_nil_iff.mpr]
    · rfl
    · intro time inside
      obtain ⟨j, -, le, rfl⟩ := mem_progression.mp inside
      have product := Nat.mul_le_mul_right t le
      simpa using product
  | succ rest ih =>
    have later : b + k * t < b + (k + rest + 1) * t := by
      have product : k * t < (k + rest + 1) * t := Nat.mul_lt_mul_of_pos_right (by omega) positive
      omega
    have shifted : b + (k + rest + 1) * t = b + k * t + (rest + 1) * t := by ring
    rw [← Nat.add_assoc, progression_succ, List.filter_append, ih (Nat.le_add_right k rest),
      progression_succ, List.filter_singleton, decide_eq_true later, cond_true, shifted]

def pendingTimestamps (s : Replica) : List ℕ :=
  (s.msgLogRequest.filter fun r => s.lastRep < r.reqTimestamp).map Request.reqTimestamp

def Progressing (cfg : Config) (m : ℕ) (s : Replica) : Prop :=
  pendingTimestamps s = progression s.lastRep cfg.targetBlockTime m

variable {cfg : Config} {genesisBlockTimestamp i m : ℕ} {now : ℚ} {s t : Replica} {a : Action}

theorem mem_pendingTimestamps {time : ℕ} : time ∈ pendingTimestamps s ↔
    s.lastRep < time ∧ ∃ r ∈ s.msgLogRequest, r.reqTimestamp = time := by
  simp only [pendingTimestamps, List.mem_map, List.mem_filter, decide_eq_true_eq]
  constructor
  · rintro ⟨r, ⟨logged, later⟩, rfl⟩
    exact ⟨later, r, logged, rfl⟩
  · rintro ⟨later, r, logged, rfl⟩
    exact ⟨r, ⟨logged, later⟩, rfl⟩

theorem latestRequestTime_le {bound : ℕ} (replied : s.lastRep ≤ bound)
    (logged : ∀ r ∈ s.msgLogRequest, r.reqTimestamp ≤ bound) : latestRequestTime s ≤ bound := by
  unfold latestRequestTime
  generalize s.msgLogRequest = requests at logged
  induction requests with
  | nil => exact replied
  | cons r requests ih =>
    obtain ⟨first, rest⟩ := List.forall_mem_cons.mp logged
    exact max_le first (ih rest)

theorem Progressing.latestRequestTime (progressing : Progressing cfg m s) :
    Fbft.latestRequestTime s = s.lastRep + m * cfg.targetBlockTime := by
  apply le_antisymm
  · apply latestRequestTime_le (Nat.le_add_right _ _)
    intro r logged
    by_cases later : s.lastRep < r.reqTimestamp
    · have inside := mem_pendingTimestamps.mpr ⟨later, r, logged, rfl⟩
      rw [progressing] at inside
      obtain ⟨k, -, le, same⟩ := mem_progression.mp inside
      rw [same]
      exact Nat.add_le_add_left (Nat.mul_le_mul_right _ le) _
    · exact (not_lt.mp later).trans (Nat.le_add_right _ _)
  · rcases Nat.eq_zero_or_pos m with rfl | some
    · rw [Nat.zero_mul]
      exact lastRep_le_latestRequestTime s
    · have inside : s.lastRep + m * cfg.targetBlockTime ∈ pendingTimestamps s := by
        rw [progressing]
        exact mem_progression.mpr ⟨m, some, le_rfl, rfl⟩
      obtain ⟨-, r, logged, same⟩ := mem_pendingTimestamps.mp inside
      rw [← same]
      exact reqTimestamp_le_latestRequestTime logged

theorem Progressing.generateRequest (positive : 0 < cfg.targetBlockTime)
    (progressing : Progressing cfg m s) :
    Progressing cfg (m + 1) (Fbft.generateRequest cfg genesisBlockTimestamp s) := by
  have next : Fbft.latestRequestTime s + cfg.targetBlockTime =
      s.lastRep + (m + 1) * cfg.targetBlockTime := by
    rw [progressing.latestRequestTime, Nat.succ_mul, Nat.add_assoc]
  have later : s.lastRep < s.lastRep + (m + 1) * cfg.targetBlockTime :=
    Nat.lt_add_of_pos_right (Nat.mul_pos (Nat.succ_pos m) positive)
  have new : ∀ r ∈ s.msgLogRequest, r.reqTimestamp ≠ s.lastRep + (m + 1) * cfg.targetBlockTime := by
    intro r logged same
    have le := reqTimestamp_le_latestRequestTime logged
    omega
  rw [Fbft.generateRequest, next, applyReceiveRequest, if_neg (not_le.mpr later)]
  have appended (d : String) : assertzOnce ⟨d, s.lastRep + (m + 1) * cfg.targetBlockTime⟩
      s.msgLogRequest = s.msgLogRequest ++ [⟨d, s.lastRep + (m + 1) * cfg.targetBlockTime⟩] := by
    rw [assertzOnce, assertzOnceBy, if_neg]
    simp only [List.any_eq_true, decide_eq_true_eq, not_exists, not_and]
    rintro r logged rfl
    exact new _ logged rfl
  rw [Progressing, pendingTimestamps, appended, List.filter_append, List.map_append,
    progression_succ, ← progressing]
  simp [pendingTimestamps, later]

theorem Progressing.generateRequestsLoop (positive : 0 < cfg.targetBlockTime) (fuel : ℕ)
    (progressing : Progressing cfg m s) (few : m ≤ maxNumGeneratedRequests) :
    ∃ m' ≤ maxNumGeneratedRequests,
      Progressing cfg m' (Fbft.generateRequestsLoop cfg genesisBlockTimestamp now fuel s) := by
  induction fuel generalizing s m with
  | zero => exact ⟨m, few, progressing⟩
  | succ fuel ih =>
    unfold Fbft.generateRequestsLoop
    split
    · rename_i lacks
      refine ih (progressing.generateRequest positive) ?_
      have behind := lacks.2
      rw [progressing.latestRequestTime] at behind
      exact Nat.lt_of_mul_lt_mul_right (Nat.lt_of_add_lt_add_left behind)
    · exact ⟨m, few, progressing⟩

/-- What only drops requests, and replies no request or one that waits, keeps the progression. -/
theorem Progressing.reply (positive : 0 < cfg.targetBlockTime)
    (progressing : Progressing cfg m s)
    (replied : t.lastRep = s.lastRep ∨ t.lastRep ∈ pendingTimestamps s)
    (kept : t.msgLogRequest.filter (fun r => t.lastRep < r.reqTimestamp) =
      s.msgLogRequest.filter fun r => t.lastRep < r.reqTimestamp) :
    ∃ m' ≤ m, Progressing cfg m' t := by
  rcases replied with same | inside
  · refine ⟨m, le_rfl, ?_⟩
    rw [Progressing, pendingTimestamps, kept, same]
    exact progressing
  · rw [progressing] at inside
    obtain ⟨k, -, le, same⟩ := mem_progression.mp inside
    refine ⟨m - k, Nat.sub_le m k, ?_⟩
    rw [Progressing, same, ← filter_progression positive le, ← progressing, pendingTimestamps, kept,
      same, pendingTimestamps, List.filter_map, List.filter_filter]
    congr 1
    refine List.filter_congr fun r _ => ?_
    simp only [Function.comp_apply, ← Bool.decide_and, decide_eq_decide]
    exact ⟨fun later => ⟨later, by omega⟩, And.left⟩

theorem applyExecute_lastRep (d : String) (n : ℕ) (val : String) (s : Replica) :
    (applyExecute d n val s).lastRep = s.lastRep ∨
      (applyExecute d n val s).lastRep ∈ pendingTimestamps s := by
  unfold applyExecute
  split
  · rename_i r found
    have newer := List.find?_some found
    simp only [decide_eq_true_eq] at newer
    exact Or.inr (mem_pendingTimestamps.mpr ⟨newer.2, r, List.mem_of_find?_eq_some found, rfl⟩)
  · exact Or.inl rfl

theorem Step.lastRep_cases (step : Step cfg i s (now, a) t) :
    t.lastRep = s.lastRep ∨ t.lastRep ∈ pendingTimestamps s := by
  by_cases executes : a.executes = true
  · have applied := step.apply
    cases a with
    | execute d v n val =>
      cases applied
      exact applyExecute_lastRep d n val s
    | receiveBlock height time blockHash =>
      obtain ⟨r, -, -, rfl⟩ := applyReceiveBlock_spec applied
      exact applyExecute_lastRep r.reqDigest height blockHash s
    | _ => cases executes
  · exact Or.inl (step.execution_same (by simpa using executes)).2.1

section

attribute [local simp] msgLogAddPrePrepare msgLogAddPrepare msgLogAddCommit
  msgLogAddCommitViewRecovery msgLogAddViewChange msgLogAddNewView msgOutAdd setView
  msgLogClearWhereViewLessThan

/-- Only a block removes requests, and only those that are replied. -/
theorem Step.requests_kept (step : Step cfg i s (now, a) t)
    (other : ∀ d time, a ≠ .receiveRequest d time) :
    t.msgLogRequest.filter (fun r => t.lastRep < r.reqTimestamp) =
      s.msgLogRequest.filter fun r => t.lastRep < r.reqTimestamp := by
  have applied := step.apply
  cases a with
  | receiveRequest d time => exact absurd rfl (other d time)
  | receiveBlock height time blockHash =>
    obtain ⟨-, -, -, -, -, requests, -⟩ := applyReceiveBlock_frame applied
    rw [requests, List.filter_filter]
    simp
  | execute d v n val =>
    cases applied
    obtain ⟨lastExec, lastRep, val', same, -, -⟩ := applyExecute_eq d n val s
    rw [same]
  | setSyntheticTime _ | msgOutClearAll | sendPrePrepare _ _ _ _ | sendPrepare _ _ _
  | sendCommit _ _ _ _ | recoverView _ | sendNewView _ _ =>
    cases applied
    rfl
  | receivePrePrepare v n d data j sig =>
    obtain ⟨-, -, -, -, -, rfl⟩ := applyReceivePrePrepare_spec applied
    simp
  | receivePrepare v n d j sig =>
    obtain ⟨-, -, -, rfl⟩ := applyReceivePrepare_spec applied
    simp
  | receiveCommit v n data j sig =>
    obtain ⟨-, ⟨-, r, -, rfl⟩ | ⟨-, -, rfl⟩⟩ := applyReceiveCommit_spec applied <;> simp
  | sendViewChange v =>
    obtain ⟨c, -, rfl⟩ := applySendViewChange_spec applied
    simp [enterViewChange_eq]
  | receiveViewChange v hi c pi qi j sig =>
    obtain ⟨-, -, -, -, rfl⟩ := applyReceiveViewChange_spec applied
    simp
  | receiveNewView v nu chi j sig =>
    obtain ⟨-, -, -, -, rfl | rfl⟩ := applyReceiveNewView_spec applied <;> simp
  | processNewView hi nu chi =>
    cases applied
    rw [applyProcessNewView_eq]
  | roastInit _ _ _ | receivePreSignature _ _ _ _ | receiveSigShare _ _ _ =>
    obtain ⟨r, -, rfl⟩ := updateRoast_spec applied
    rfl

end

/-- `GenerateRequests`, and the actions of the engine with the system time. -/
inductive RequestOp where
  | generateRequests (now : ℚ)
  | act (now : ℚ) (a : Action)

/-- Nothing but `GenerateRequests` makes requests. -/
def RequestStep (cfg : Config) (genesisBlockTimestamp i : ℕ) (s : Replica) (op : RequestOp)
    (t : Replica) : Prop :=
  match op with
  | .generateRequests now => t = generateRequests cfg genesisBlockTimestamp now s
  | .act now a => Step cfg i s (now, a) t ∧ ∀ d time, a ≠ .receiveRequest d time

def FewRequests (cfg : Config) (s : Replica) : Prop :=
  ∃ m ≤ maxNumGeneratedRequests, Progressing cfg m s

theorem FewRequests.step {op : RequestOp} (positive : 0 < cfg.targetBlockTime)
    (few : FewRequests cfg s) (step : RequestStep cfg genesisBlockTimestamp i s op t) :
    FewRequests cfg t := by
  obtain ⟨m, le, progressing⟩ := few
  cases op with
  | generateRequests now =>
    cases step
    exact progressing.generateRequestsLoop positive _ le
  | act now a =>
    obtain ⟨step, other⟩ := step
    obtain ⟨m', le', progressing'⟩ :=
      progressing.reply positive step.lastRep_cases (step.requests_kept other)
    exact ⟨m', le'.trans le, progressing'⟩

theorem FewRequests.reachable (positive : 0 < cfg.targetBlockTime)
    (reached : Reachable (Initial cfg) (RequestStep cfg genesisBlockTimestamp i) s) :
    FewRequests cfg s := by
  apply reached.invariant
  · rintro s ⟨height, hash, timestamp, persistedView, rfl⟩
    exact ⟨0, Nat.zero_le _, rfl⟩
  · exact fun s op t few step => few.step positive step

theorem mem_generateRequestsLoop (fuel : ℕ) {r : Request} (logged : r ∈ s.msgLogRequest) :
    r ∈ (generateRequestsLoop cfg genesisBlockTimestamp now fuel s).msgLogRequest := by
  induction fuel generalizing s with
  | zero => exact logged
  | succ fuel ih =>
    unfold generateRequestsLoop
    split
    · apply ih
      unfold generateRequest applyReceiveRequest
      dsimp only
      split
      · exact logged
      · exact mem_assertzOnce.mpr (Or.inl logged)
    · exact logged

theorem RequestStep.waits {op : RequestOp} {time : ℕ}
    (step : RequestStep cfg genesisBlockTimestamp i s op t) (waits : time ∈ pendingTimestamps s) :
    t.lastRep < time → time ∈ pendingTimestamps t := by
  intro later
  obtain ⟨-, r, logged, rfl⟩ := mem_pendingTimestamps.mp waits
  cases op with
  | generateRequests now =>
    cases step
    exact mem_pendingTimestamps.mpr ⟨later, r, mem_generateRequestsLoop _ logged, rfl⟩
  | act now a =>
    obtain ⟨step, other⟩ := step
    have inside : r ∈ s.msgLogRequest.filter fun r => t.lastRep < r.reqTimestamp := by
      simp [logged, later]
    rw [← step.requests_kept other] at inside
    exact List.mem_map_of_mem inside

theorem RequestStep.lastRep_le {op : RequestOp}
    (step : RequestStep cfg genesisBlockTimestamp i s op t) : s.lastRep ≤ t.lastRep := by
  cases op with
  | generateRequests now =>
    cases step
    obtain ⟨requests, only⟩ := generateRequestsLoop_only cfg genesisBlockTimestamp now
      maxNumGeneratedRequests s
    rw [generateRequests, only]
  | act now a => exact step.1.lastRep_le

theorem waits_of_path {ops : List RequestOp} {time : ℕ}
    (run : Path (RequestStep cfg genesisBlockTimestamp i) s ops t)
    (waits : time ∈ pendingTimestamps s) : t.lastRep < time → time ∈ pendingTimestamps t := by
  have still : ∀ s op t, (s.lastRep < time → time ∈ pendingTimestamps s) →
      RequestStep cfg genesisBlockTimestamp i s op t →
      t.lastRep < time → time ∈ pendingTimestamps t := by
    intro s op t waits step later
    exact step.waits (waits (step.lastRep_le.trans_lt later)) later
  exact Path.invariant still run fun _ => waits

theorem next_pending_generateRequests (positive : 0 < cfg.targetBlockTime)
    (few : FewRequests cfg s) (clock : s.lastRep <
      ⌊getSyntheticTime now s⌋₊ + maxNumGeneratedRequests * cfg.targetBlockTime) :
    s.lastRep + cfg.targetBlockTime ∈
      pendingTimestamps (generateRequests cfg genesisBlockTimestamp now s) := by
  obtain ⟨m, le, progressing⟩ := few
  obtain ⟨m', -, progressing'⟩ : ∃ m' ≤ maxNumGeneratedRequests,
      Progressing cfg m' (generateRequests cfg genesisBlockTimestamp now s) :=
    progressing.generateRequestsLoop positive maxNumGeneratedRequests le
  obtain ⟨requests, only⟩ : OnlyRequests s (generateRequests cfg genesisBlockTimestamp now s) :=
    generateRequestsLoop_only cfg genesisBlockTimestamp now maxNumGeneratedRequests s
  have replied : (generateRequests cfg genesisBlockTimestamp now s).lastRep = s.lastRep := by
    rw [only]
  have latest := progressing'.latestRequestTime
  have some : 1 ≤ m' := by
    by_contra none
    have zero : m' = 0 := by omega
    rw [zero, Nat.zero_mul, Nat.add_zero, replied] at latest
    apply generateRequests_ends cfg genesisBlockTimestamp now s
    rw [LacksRequests, latest, replied]
    refine ⟨?_, Nat.lt_add_of_pos_right (Nat.mul_pos (by decide) positive)⟩
    rw [only]
    exact clock
  rw [progressing', replied]
  exact mem_progression.mpr ⟨1, le_rfl, some, by rw [Nat.one_mul]⟩

theorem exists_applyReceiveBlock {time : ℕ} (waits : time ∈ pendingTimestamps s) (height : ℕ)
    (blockHash : String) : ∃ t, applyReceiveBlock height time blockHash s = some t := by
  obtain ⟨-, r, logged, same⟩ := mem_pendingTimestamps.mp waits
  have found : (s.msgLogRequest.find? fun r => r.reqTimestamp = time).isSome := by
    simp only [List.find?_isSome, decide_eq_true_eq]
    exact ⟨r, logged, same⟩
  obtain ⟨r', found⟩ := Option.isSome_iff_exists.mp found
  exact ⟨_, Option.map_eq_some_iff.mpr ⟨r', found, rfl⟩⟩

/-- `GenerateRequests` ends, the requests that wait are a progression of at most five times, and
from then on the block after the last one finds its request. -/
theorem requests_progress (positive : 0 < cfg.targetBlockTime)
    (reached : Reachable (Initial cfg) (RequestStep cfg genesisBlockTimestamp i) s) :
    (∀ now, ¬ LacksRequests cfg now (generateRequests cfg genesisBlockTimestamp now s)) ∧
    (∃ m ≤ 5, pendingTimestamps s =
      (List.range' 1 m).map fun k => s.lastRep + k * cfg.targetBlockTime) ∧
    ∀ now, s.lastRep < ⌊getSyntheticTime now s⌋₊ + 5 * cfg.targetBlockTime →
      ∀ ops t, Path (RequestStep cfg genesisBlockTimestamp i)
        (generateRequests cfg genesisBlockTimestamp now s) ops t → t.lastRep = s.lastRep →
      ∀ height blockHash, ∃ u,
        applyReceiveBlock height (t.lastRep + cfg.targetBlockTime) blockHash t = some u := by
  have few := FewRequests.reachable positive reached
  refine ⟨fun now => generateRequests_ends cfg genesisBlockTimestamp now s, few, ?_⟩
  intro now clock ops t run same height blockHash
  apply exists_applyReceiveBlock
  rw [same]
  refine waits_of_path run (next_pending_generateRequests positive few clock) ?_
  omega

theorem requests_progress_laterBlock : ∃ s,
    Reachable (Initial fourReplicas) (RequestStep fourReplicas 0 1) s ∧
    (∀ now, ¬ LacksRequests fourReplicas now (generateRequests fourReplicas 0 now s)) ∧
    (∃ m ≤ 5, pendingTimestamps s = (List.range' 1 m).map fun k => s.lastRep + k * 60) ∧
    ∀ now, s.lastRep < ⌊getSyntheticTime now s⌋₊ + 5 * 60 →
      ∀ ops t, Path (RequestStep fourReplicas 0 1) (generateRequests fourReplicas 0 now s) ops t →
      t.lastRep = s.lastRep →
      ∀ height blockHash, ∃ u, applyReceiveBlock height (t.lastRep + 60) blockHash t = some u := by
  have applied : ∃ s, Action.apply fourReplicas 1 (generateRequests fourReplicas 0 60 genesis)
      (.receiveBlock 1 120 "H1") = some s ∧ Action.admissible
        (generateRequests fourReplicas 0 60 genesis) (.receiveBlock 1 120 "H1") := by
    decide +kernel
  obtain ⟨s, applied, admissible⟩ := applied
  have reached : Reachable (Initial fourReplicas) (RequestStep fourReplicas 0 1) s := by
    refine ⟨genesis, [.generateRequests 60, .act 60 (.receiveBlock 1 120 "H1")], genesis_initial,
      .cons rfl (.single ⟨⟨admissible, trivial, applied⟩, nofun⟩)⟩
  exact ⟨s, reached, requests_progress (by decide) reached⟩

end Fbft
