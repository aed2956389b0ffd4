import Fbft.Tables
import Fbft.Chi

/-! What holds in every reachable state of one replica. The three phase tables speak
for the current view and for numbers above the checkpoint, so Pi and Qi, which are
older, never mix with them. -/
namespace Fbft

open Database LabelledPath

variable {cfg : Config} {i : ℕ} {now : ℚ} {s t : Replica} {a : Action}

def lowWatermark (s : Replica) : ℕ := (getH s).getD 0

structure Invariant (cfg : Config) (i : ℕ) (s : Replica) : Prop where
  checkpoint : ∃ c, s.checkpoint = [c]
  request : ∀ r ∈ s.msgLogRequest, r.reqDigest ≠ nullDigest
  prePrepare : ∀ m ∈ s.msgLogPrePrepare,
    m.v = s.view ∧ lowWatermark s < m.n ∧ m.senderId = primary cfg s.view
  prepare : ∀ m ∈ s.msgLogPrepare, m.v = s.view ∧ lowWatermark s < m.n ∧
    m.senderId ≠ primary cfg s.view ∧ (m.n = lowWatermark s + 1 ∨ m.senderId = i)
  commit : ∀ m ∈ s.msgLogCommit, m.v = s.view ∧ m.n = lowWatermark s + 1
  ownPrepare : ∀ m ∈ s.msgLogPrepare, m.senderId = i → m.senderSig = sigOwnReplica
  pi : ∀ e ∈ s.viewChangePi, e.v < s.view
  qi : ∀ e ∈ s.viewChangeQi, e.v < s.view
  inactive : s.activeView = false → s.msgLogPrePrepare = []
  oneDigest : ∀ m ∈ s.msgLogPrePrepare, ∀ m' ∈ s.msgLogPrePrepare,
    m.n = m'.n → m.reqDigest = m'.reqDigest
  proposed : primary cfg s.view = i → ∀ m ∈ s.msgLogPrePrepare, m.n ≤ s.seqno

theorem lowWatermark_eq (single : s.checkpoint = [c]) : lowWatermark s = c.n := by
  simp [lowWatermark, getH, single]

theorem getH_eq (single : ∃ c, s.checkpoint = [c]) : getH s = some (lowWatermark s) := by
  obtain ⟨c, single⟩ := single
  simp [lowWatermark, getH, single]

theorem inW_iff (single : ∃ c, s.checkpoint = [c]) : inW n s ↔ n = lowWatermark s + 1 := by
  simp only [inW, getH_eq single, requestBufferLen]
  omega

theorem inWv_iff (single : ∃ c, s.checkpoint = [c]) :
    inWv v n s ↔ v = s.view ∧ n = lowWatermark s + 1 := by
  rw [inWv, inW_iff single, and_comm]

theorem preRecoverView_higher (pre : preRecoverView cfg v s) :
    s.view < v ∧ ∃ m ∈ s.msgLogCommitViewRecovery, m.v = v := by
  have recoverable := List.max?_mem pre.2
  simp only [recoverableViews, List.mem_flatMap, List.mem_map, List.mem_filter] at recoverable
  obtain ⟨c, -, m, ⟨logged, cond⟩, rfl⟩ := recoverable
  exact ⟨(of_decide_eq_true cond).2.1, m, logged, rfl⟩

namespace Step

theorem recoverView_raises (step : Step cfg i s (now, .recoverView v) t) :
    s.view < v ∧ t.view = v :=
  ⟨(preRecoverView_higher step.pre).1, step.tables.view⟩

theorem sendViewChange_raises (step : Step cfg i s (now, .sendViewChange v) t) :
    v = s.view + 1 ∧ t.view = v :=
  ⟨step.pre.1, step.tables.view⟩

theorem view_cases (step : Step cfg i s (now, a) t) :
    t.view = s.view ∨ (s.view < t.view ∧ (a = .recoverView t.view ∨ a = .sendViewChange t.view)) := by
  cases a with
  | recoverView v =>
    obtain ⟨higher, next⟩ := step.recoverView_raises
    rw [next]
    exact Or.inr ⟨higher, Or.inl rfl⟩
  | sendViewChange v =>
    obtain ⟨higher, next⟩ := step.sendViewChange_raises
    rw [next]
    exact Or.inr ⟨by omega, Or.inr rfl⟩
  | _ => exact Or.inl step.tables.view

theorem view_le (step : Step cfg i s (now, a) t) : s.view ≤ t.view := by
  rcases step.view_cases with same | ⟨higher, -⟩ <;> omega

theorem block_checkpoint (step : Step cfg i s (now, .receiveBlock height time blockHash) t)
    (single : ∃ c, s.checkpoint = [c]) :
    lowWatermark s < height ∧ t.checkpoint = [⟨height, blockHash, time⟩] := by
  have grown : lowWatermark s < height := step.admissible _ (getH_eq single)
  obtain ⟨c, single⟩ := single
  have below : c.n < height := by rwa [lowWatermark_eq single] at grown
  have other : (⟨height, blockHash, time⟩ : Checkpoint) ≠ c := by
    intro same
    simp [← same] at below
  refine ⟨grown, ?_⟩
  rw [step.tables.checkpoint, Action.nextCheckpoint, single,
    assertzOnce_of_not_mem (by simpa using other)]
  simp [below]

theorem checkpoint_cases (step : Step cfg i s (now, a) t) (single : ∃ c, s.checkpoint = [c]) :
    t.checkpoint = s.checkpoint ∨
    ∃ height time blockHash, a = .receiveBlock height time blockHash ∧
      lowWatermark s < height ∧ t.checkpoint = [⟨height, blockHash, time⟩] := by
  cases a with
  | receiveBlock height time blockHash =>
    obtain ⟨grown, next⟩ := step.block_checkpoint single
    exact Or.inr ⟨height, time, blockHash, rfl, grown, next⟩
  | _ => exact Or.inl step.tables.checkpoint

theorem checkpoint_single (step : Step cfg i s (now, a) t) (single : ∃ c, s.checkpoint = [c]) :
    ∃ c, t.checkpoint = [c] := by
  rcases step.checkpoint_cases single with same | ⟨height, time, blockHash, -, -, next⟩
  · rwa [same]
  · exact ⟨_, next⟩

theorem lowWatermark_cases (step : Step cfg i s (now, a) t) (single : ∃ c, s.checkpoint = [c]) :
    lowWatermark t = lowWatermark s ∨
    (lowWatermark s < lowWatermark t ∧
      ∃ time blockHash, a = .receiveBlock (lowWatermark t) time blockHash) := by
  rcases step.checkpoint_cases single with same | ⟨height, time, blockHash, rfl, grown, next⟩
  · left
    simp only [lowWatermark, getH, same]
  · right
    rw [lowWatermark_eq next]
    exact ⟨grown, time, blockHash, rfl⟩

theorem lowWatermark_le (step : Step cfg i s (now, a) t) (single : ∃ c, s.checkpoint = [c]) :
    lowWatermark s ≤ lowWatermark t := by
  rcases step.lowWatermark_cases single with same | ⟨grown, -⟩ <;> omega

/-- A fact of the current view above the checkpoint that is kept stays such a fact. -/
theorem kept_current (step : Step cfg i s (now, a) t) (single : ∃ c, s.checkpoint = [c])
    (current : v = s.view) (above : lowWatermark s < n) (kept : a.keeps v n) :
    t.view = s.view ∧ lowWatermark t < n := by
  have view : t.view = s.view := by
    rcases step.view_cases with same | ⟨higher, rfl | rfl⟩
    · exact same
    all_goals simp [Action.keeps] at kept; omega
  refine ⟨view, ?_⟩
  rcases step.lowWatermark_cases single with same | ⟨-, time, blockHash, rfl⟩
  · rwa [same]
  · simpa [Action.keeps] using kept

end Step

theorem ChiEntry.unify_spec {a b c : ChiEntry} (h : a.unify b = some c) :
    c.n = b.n ∧ c.reqDigest = b.reqDigest ∧ a.n = b.n ∧ a.reqDigest = b.reqDigest ∧
      Data.unify a.data b.data = some c.data := by
  simp only [ChiEntry.unify] at h
  split at h
  · rename_i same
    obtain ⟨data, unified, rfl⟩ := Option.map_eq_some_iff.mp h
    exact ⟨same.1, same.2, same.1, same.2, unified⟩
  · cases h

theorem unifyChi_numbers {as bs cs : List ChiEntry} (h : unifyChi as bs = some cs) :
    cs.map ChiEntry.n = bs.map ChiEntry.n := by
  induction as generalizing bs cs with
  | nil =>
    cases bs with
    | nil => cases h; rfl
    | cons b bs => simp [unifyChi] at h
  | cons a as ih =>
    cases bs with
    | nil => simp [unifyChi] at h
    | cons b bs =>
      simp only [unifyChi] at h
      split at h
      · rename_i c cs' first rest
        cases h
        simp [(ChiEntry.unify_spec first).1, ih rest]
      · cases h

theorem mem_unifyChi {as bs cs : List ChiEntry} (h : unifyChi as bs = some cs) (mem : c ∈ cs) :
    ∃ a ∈ as, ∃ b ∈ bs, a.unify b = some c := by
  induction as generalizing bs cs with
  | nil =>
    cases bs with
    | nil => cases h; cases mem
    | cons b bs => simp [unifyChi] at h
  | cons a as ih =>
    cases bs with
    | nil => simp [unifyChi] at h
    | cons b bs =>
      simp only [unifyChi] at h
      split at h
      · rename_i c' cs' first rest
        cases h
        rcases List.mem_cons.mp mem with rfl | later
        · exact ⟨a, List.mem_cons_self, b, List.mem_cons_self, first⟩
        · obtain ⟨a', inA, b', inB, unified⟩ := ih rest later
          exact ⟨a', List.mem_cons_of_mem _ inA, b', List.mem_cons_of_mem _ inB, unified⟩
      · cases h

theorem correctNewView_spec (h : (nu, chi) ∈ correctNewView cfg i s) :
    ∃ m ∈ s.msgLogNewView, m.v = s.view ∧ m.nu = nu ∧ nu ∈ correctNuAll cfg i s ∧
      ∃ computed, correctChi cfg nu s = some computed ∧ unifyChi m.chi computed = some chi := by
  simp only [correctNewView, List.mem_flatMap, List.mem_filterMap, List.mem_filter] at h
  obtain ⟨m, ⟨logged, view⟩, nu', ⟨listed, same⟩, found⟩ := h
  obtain ⟨unified, whole, pair⟩ := Option.map_eq_some_iff.mp found
  obtain ⟨computed, solved, unifies⟩ := Option.bind_eq_some_iff.mp whole
  cases pair
  exact ⟨m, logged, of_decide_eq_true view, (of_decide_eq_true same).symm, listed, computed, solved,
    unifies⟩

/-- The numbers of a processed Chi are distinct and start right above the checkpoint. -/
theorem preProcessNewView_numbers (pre : preProcessNewView cfg hi nu chi i s) :
    (chi.map ChiEntry.n).Nodup ∧ ∀ e ∈ chi, hi < e.n := by
  obtain ⟨-, correct, -, -, -, least, -⟩ := pre
  obtain ⟨m, -, -, -, -, computed, solved, unified⟩ := correctNewView_spec correct
  refine ⟨by rw [unifyChi_numbers unified]; exact (correctChi_range solved).1, ?_⟩
  intro e inside
  rcases least with least | rfl
  · exact (List.min?_eq_some_iff.mp least).2 e.n (List.mem_map_of_mem inside)
  · cases inside

namespace Step

theorem new_prePrepare (step : Step cfg i s (now, a) t) (single : ∃ c, s.checkpoint = [c])
    (new : m ∈ a.newPrePrepares cfg i s) :
    m.v = s.view ∧ lowWatermark s < m.n ∧ m.senderId = primary cfg s.view ∧
    t.view = s.view ∧ lowWatermark t = lowWatermark s ∧ t.activeView = true := by
  have tables := step.tables
  have height := step.lowWatermark_cases single
  cases a with
  | sendPrePrepare d data v n =>
    obtain ⟨active, sender, -, window, -⟩ := step.pre
    obtain ⟨rfl, rfl⟩ := (inWv_iff single).mp window
    simp only [Action.newPrePrepares, List.mem_singleton] at new
    subst new
    have same : lowWatermark t = lowWatermark s := by simpa using height
    exact ⟨rfl, by simp, sender.symm, tables.view, same, tables.activeView.trans active⟩
  | receivePrePrepare v n d data j sig =>
    obtain ⟨-, sender, window, active, -, -⟩ := applyReceivePrePrepare_spec step.apply
    obtain ⟨rfl, rfl⟩ := (inWv_iff single).mp window
    simp only [Action.newPrePrepares, List.mem_singleton] at new
    subst new
    have same : lowWatermark t = lowWatermark s := by simpa using height
    exact ⟨rfl, by simp, sender.symm, tables.view, same, tables.activeView.trans active⟩
  | processNewView hi nu chi =>
    obtain ⟨-, above⟩ := preProcessNewView_numbers step.pre
    have low : hi = lowWatermark s := by
      have found := step.pre.2.2.1
      rw [getH_eq single] at found
      exact (Option.some.inj found).symm
    obtain ⟨e, inside, rfl⟩ := List.mem_map.mp new
    have same : lowWatermark t = lowWatermark s := by simpa using height
    exact ⟨rfl, low ▸ above e inside, rfl, tables.view, same, tables.activeView⟩
  | _ => cases new

theorem new_prepare (step : Step cfg i s (now, a) t) (single : ∃ c, s.checkpoint = [c])
    (new : m ∈ a.newPrepares cfg i s) :
    m.v = s.view ∧ lowWatermark s < m.n ∧ m.senderId ≠ primary cfg s.view ∧
    (m.n = lowWatermark s + 1 ∨ m.senderId = i) ∧
    (m.senderId = i → m.senderSig = sigOwnReplica) ∧
    t.view = s.view ∧ lowWatermark t = lowWatermark s := by
  have tables := step.tables
  have height := step.lowWatermark_cases single
  cases a with
  | sendPrepare d v n =>
    obtain ⟨backup, window, -⟩ := step.pre
    obtain ⟨rfl, rfl⟩ := (inWv_iff single).mp window
    simp only [Action.newPrepares, List.mem_singleton] at new
    subst new
    have same : lowWatermark t = lowWatermark s := by simpa using height
    exact ⟨rfl, by simp, backup.symm, Or.inl rfl, fun _ => rfl, tables.view, same⟩
  | receivePrepare v n d j sig =>
    obtain ⟨other, backup, window, -⟩ := applyReceivePrepare_spec step.apply
    obtain ⟨rfl, rfl⟩ := (inWv_iff single).mp window
    simp only [Action.newPrepares, List.mem_singleton] at new
    subst new
    have same : lowWatermark t = lowWatermark s := by simpa using height
    exact ⟨rfl, by simp, backup.symm, Or.inl rfl, fun own => absurd own other, tables.view, same⟩
  | processNewView hi nu chi =>
    obtain ⟨-, above⟩ := preProcessNewView_numbers step.pre
    have low : hi = lowWatermark s := by
      have found := step.pre.2.2.1
      rw [getH_eq single] at found
      exact (Option.some.inj found).symm
    simp only [Action.newPrepares] at new
    split at new
    · cases new
    · rename_i backup
      obtain ⟨e, inside, rfl⟩ := List.mem_map.mp new
      have same : lowWatermark t = lowWatermark s := by simpa using height
      exact ⟨rfl, low ▸ above e inside, fun sender => backup sender.symm, Or.inr rfl, fun _ => rfl,
        tables.view, same⟩
  | _ => cases new

theorem new_commit (step : Step cfg i s (now, a) t) (single : ∃ c, s.checkpoint = [c])
    (new : m ∈ a.newCommits i s) :
    m.v = s.view ∧ m.n = lowWatermark s + 1 ∧
    t.view = s.view ∧ lowWatermark t = lowWatermark s := by
  have tables := step.tables
  have height := step.lowWatermark_cases single
  cases a with
  | sendCommit d v n data =>
    obtain ⟨rfl, rfl⟩ := (inWv_iff single).mp step.pre.1
    simp only [Action.newCommits, List.mem_singleton] at new
    subst new
    have same : lowWatermark t = lowWatermark s := by simpa using height
    exact ⟨rfl, rfl, tables.view, same⟩
  | receiveCommit v n data j sig =>
    simp only [Action.newCommits] at new
    split at new
    · rename_i window
      obtain ⟨rfl, rfl⟩ := (inWv_iff single).mp window
      rw [List.mem_singleton.mp new]
      have same : lowWatermark t = lowWatermark s := by simpa using height
      exact ⟨rfl, rfl, tables.view, same⟩
    · cases new
  | _ => cases new

end Step

/-- The log case of `pre_prepared`: a known request and a pre-prepare of the primary. -/
def LoggedPrePrepared (cfg : Config) (s : Replica) (e : PiEntry) : Prop :=
  (∃ r ∈ s.msgLogRequest, r.reqDigest = e.reqDigest) ∧
  ∃ m ∈ s.msgLogPrePrepare, m.v = e.v ∧ m.n = e.n ∧ m.reqDigest = e.reqDigest ∧
    m.senderId = primary cfg e.v

/-- The log case of `prepared`. -/
def LoggedPrepared (cfg : Config) (s : Replica) (e : PiEntry) : Prop :=
  LoggedPrePrepared cfg s e ∧ quorumPrepare cfg ≤ (preparesFor e.reqDigest e.v e.n s).length

theorem mem_prePreparedSolutions {e : PiEntry} :
    e ∈ prePreparedSolutions cfg s ↔
      (∃ q ∈ s.viewChangeQi, e = ⟨q.n, q.reqDigest, q.v⟩) ∨ LoggedPrePrepared cfg s e := by
  simp only [prePreparedSolutions, LoggedPrePrepared, List.mem_append, List.mem_map,
    List.mem_flatMap, List.mem_filter, decide_eq_true_eq]
  constructor
  · rintro (⟨q, listed, rfl⟩ | ⟨r, known, m, ⟨logged, digest, sender⟩, rfl⟩)
    · exact Or.inl ⟨q, listed, rfl⟩
    · exact Or.inr ⟨⟨r, known, digest.symm⟩, m, logged, rfl, rfl, rfl, sender⟩
  · rintro (⟨q, listed, rfl⟩ | ⟨⟨r, known, digest⟩, m, logged, view, number, digest', sender⟩)
    · exact Or.inl ⟨q, listed, rfl⟩
    · refine Or.inr ⟨r, known, m, ⟨logged, digest'.trans digest.symm, view ▸ sender⟩, ?_⟩
      rw [view, number, digest']

theorem prePrepared_iff : prePrepared cfg d v n s ↔
    (∃ q ∈ s.viewChangeQi, q.n = n ∧ q.reqDigest = d ∧ q.v = v) ∨
      LoggedPrePrepared cfg s ⟨n, d, v⟩ := by
  rw [prePrepared, mem_prePreparedSolutions]
  simp [eq_comm]

theorem prepared_iff : prepared cfg d v n s ↔
    ⟨n, d, v⟩ ∈ s.viewChangePi ∨ (prePrepared cfg d v n s ∧
      quorumPrepare cfg ≤ (preparesFor d v n s).length) := by
  simp [prepared, preparedSolutions, prePrepared]

theorem committed_iff : committed cfg d v n s ↔
    prepared cfg d v n s ∧ quorum cfg ≤ (commitsFor v n s).length := Iff.rfl

theorem mem_updateViewChangePi {e : PiEntry} :
    e ∈ (updateViewChangePi cfg s).viewChangePi ↔
      (e ∈ prePreparedSolutions cfg s ∧
        quorumPrepare cfg ≤ (preparesFor e.reqDigest e.v e.n s).length) ∧
      ∀ e', e' ∈ prePreparedSolutions cfg s →
        quorumPrepare cfg ≤ (preparesFor e'.reqDigest e'.v e'.n s).length →
        e'.n = e.n → e'.v ≤ e.v := by
  have solutions : preparedSolutions cfg { s with viewChangePi := [] } =
      (prePreparedSolutions cfg s).filter fun e =>
        quorumPrepare cfg ≤ (preparesFor e.reqDigest e.v e.n s).length := by
    simp only [preparedSolutions, List.nil_append]
    rfl
  simp only [updateViewChangePi, solutions, mem_assertzAll, List.not_mem_nil, false_or,
    List.mem_filter, decide_eq_true_eq, not_lt, and_imp]

theorem mem_updateViewChangeQi {q : QiEntry} :
    q ∈ (updateViewChangeQi cfg s).viewChangeQi ↔
      LoggedPrePrepared cfg s ⟨q.n, q.reqDigest, q.v⟩ ∧
      (∀ e', LoggedPrePrepared cfg s e' → e'.n = q.n → e'.reqDigest = q.reqDigest → e'.v ≤ q.v) ∧
      ∃ m ∈ s.msgLogPrePrepare, m.v = q.v ∧ m.n = q.n ∧ m.reqDigest = q.reqDigest ∧
        m.senderId = primary cfg q.v ∧ m.data = q.data := by
  have solutions : ∀ e, e ∈ prePreparedSolutions cfg { s with viewChangeQi := [] } ↔
      LoggedPrePrepared cfg s e := by
    intro e
    rw [mem_prePreparedSolutions]
    simp only [List.not_mem_nil, false_and, exists_false, false_or]
    rfl
  simp only [updateViewChangeQi, mem_assertzAll, List.not_mem_nil, false_or, List.mem_flatMap,
    List.mem_filter, List.mem_map, decide_eq_true_eq, solutions, not_lt]
  constructor
  · rintro ⟨e, ⟨logged, latest⟩, m, ⟨inside, view, number, digest, sender⟩, rfl⟩
    exact ⟨logged, latest, m, inside, view, number, digest, sender, rfl⟩
  · rintro ⟨logged, latest, m, inside, view, number, digest, sender, data⟩
    exact ⟨_, ⟨logged, latest⟩, m, ⟨inside, view, number, digest, sender⟩, by rw [data]⟩

namespace Step

theorem mem_prePrepare (step : Step cfg i s (now, a) t) (logged : m ∈ t.msgLogPrePrepare) :
    (m ∈ s.msgLogPrePrepare ∨ m ∈ a.newPrePrepares cfg i s) ∧ a.keeps m.v m.n := by
  rw [step.tables.prePrepare, List.mem_filter] at logged
  exact ⟨mem_of_mem_assertzAllBy logged.1, logged.2⟩

theorem mem_log (step : Step cfg i s (now, a) t) {m : PrePrepare}
    (logged : m ∈ s.msgLogPrePrepare) (keeps : a.keeps m.v m.n = true) :
    m ∈ t.msgLogPrePrepare := by
  rw [step.tables.prePrepare]
  exact List.mem_filter.mpr ⟨mem_assertzAllBy_of_mem logged, keeps⟩

theorem mem_prepare (step : Step cfg i s (now, a) t) : m ∈ t.msgLogPrepare ↔
    (m ∈ s.msgLogPrepare ∨ m ∈ a.newPrepares cfg i s) ∧ a.keeps m.v m.n := by
  rw [step.tables.prepare, List.mem_filter, mem_assertzAll]

theorem mem_commit (step : Step cfg i s (now, a) t) : m ∈ t.msgLogCommit ↔
    (m ∈ s.msgLogCommit ∨ m ∈ a.newCommits i s) ∧ a.keeps m.v m.n := by
  rw [step.tables.commit, List.mem_filter, mem_assertzAll]

end Step

theorem Step.prePrepare_empty (step : Step cfg i s (now, a) t) (inv : Invariant cfg i s)
    (raised : s.view < t.view) : t.msgLogPrePrepare = [] := by
  apply List.eq_nil_iff_forall_not_mem.mpr
  intro m logged
  obtain ⟨old | new, kept⟩ := step.mem_prePrepare logged
  · obtain ⟨view, above, -⟩ := inv.prePrepare m old
    have same := (step.kept_current inv.checkpoint view above kept).1
    omega
  · have same := (step.new_prePrepare inv.checkpoint new).2.2.2.1
    omega

theorem LoggedPrePrepared.view (inv : Invariant cfg i s) (logged : LoggedPrePrepared cfg s e) :
    e.v = s.view := by
  obtain ⟨-, m, inside, view, -⟩ := logged
  exact view ▸ (inv.prePrepare m inside).1

/-- Pi and Qi are of earlier views, so a certificate of the current view is in the log. -/
theorem prePrepared_current (inv : Invariant cfg i s) (certificate : prePrepared cfg d v n s)
    (current : v = s.view) : LoggedPrePrepared cfg s ⟨n, d, v⟩ := by
  rcases prePrepared_iff.mp certificate with ⟨q, old, -, -, same⟩ | logged
  · have below := inv.qi q old
    omega
  · exact logged

theorem prepared_current (inv : Invariant cfg i s) (certificate : prepared cfg d v n s)
    (current : v = s.view) : LoggedPrepared cfg s ⟨n, d, v⟩ := by
  rcases prepared_iff.mp certificate with old | ⟨prePrepared, enough⟩
  · have below := inv.pi _ old
    simp only at below
    omega
  · exact ⟨prePrepared_current inv prePrepared current, enough⟩

theorem mem_prePreparedSolutions_view (inv : Invariant cfg i s)
    (listed : e ∈ prePreparedSolutions cfg s) : e.v ≤ s.view := by
  rcases mem_prePreparedSolutions.mp listed with ⟨q, inside, rfl⟩ | logged
  · exact (inv.qi q inside).le
  · exact (logged.view inv).le

namespace Invariant

theorem initial (start : Initial cfg s) : Invariant cfg i s := by
  obtain ⟨height, blockHash, timestamp, view, rfl⟩ := start
  constructor <;> simp [initNotx, setView]

theorem phase_current (inv : Invariant cfg i s) (step : Step cfg i s (now, a) t)
    (current : v = s.view) (above : lowWatermark s < n) (kept : a.keeps v n) :
    v = t.view ∧ lowWatermark t < n := by
  obtain ⟨view, higher⟩ := step.kept_current inv.checkpoint current above kept
  exact ⟨current.trans view.symm, higher⟩

private theorem step_request (inv : Invariant cfg i s) (step : Step cfg i s (now, a) t) :
    ∀ r ∈ t.msgLogRequest, r.reqDigest ≠ nullDigest := by
  intro r known
  rcases step.tables.request r known with old | new
  · exact inv.request r old
  · cases a with
    | receiveRequest d time =>
      simp only [Action.newRequests] at new
      split at new
      · cases new
      · rw [List.mem_singleton.mp new]
        exact step.admissible
    | _ => cases new

private theorem step_prePrepare (inv : Invariant cfg i s) (step : Step cfg i s (now, a) t) :
    ∀ m ∈ t.msgLogPrePrepare,
      m.v = t.view ∧ lowWatermark t < m.n ∧ m.senderId = primary cfg t.view := by
  intro m logged
  obtain ⟨old | new, kept⟩ := step.mem_prePrepare logged
  · obtain ⟨view, above, sender⟩ := inv.prePrepare m old
    obtain ⟨view', above'⟩ := inv.phase_current step view above kept
    exact ⟨view', above', by rw [sender, ← view, view']⟩
  · obtain ⟨view, above, sender, same, height, -⟩ := step.new_prePrepare inv.checkpoint new
    rw [same, height]
    exact ⟨view, above, sender⟩

private theorem step_prepare (inv : Invariant cfg i s) (step : Step cfg i s (now, a) t) :
    ∀ m ∈ t.msgLogPrepare, m.v = t.view ∧ lowWatermark t < m.n ∧
      m.senderId ≠ primary cfg t.view ∧ (m.n = lowWatermark t + 1 ∨ m.senderId = i) := by
  intro m logged
  obtain ⟨old | new, kept⟩ := step.mem_prepare.mp logged
  · obtain ⟨view, above, backup, next⟩ := inv.prepare m old
    obtain ⟨view', above'⟩ := inv.phase_current step view above kept
    refine ⟨view', above', by rwa [← view', view], ?_⟩
    have grown := step.lowWatermark_le inv.checkpoint
    rcases next with number | own
    · exact Or.inl (by omega)
    · exact Or.inr own
  · obtain ⟨view, above, backup, next, -, same, height⟩ := step.new_prepare inv.checkpoint new
    rw [same, height]
    exact ⟨view, above, backup, next⟩

private theorem step_commit (inv : Invariant cfg i s) (step : Step cfg i s (now, a) t) :
    ∀ m ∈ t.msgLogCommit, m.v = t.view ∧ m.n = lowWatermark t + 1 := by
  intro m logged
  obtain ⟨old | new, kept⟩ := step.mem_commit.mp logged
  · obtain ⟨view, number⟩ := inv.commit m old
    obtain ⟨view', above⟩ := inv.phase_current step view (by omega) kept
    have grown := step.lowWatermark_le inv.checkpoint
    exact ⟨view', by omega⟩
  · obtain ⟨view, number, same, height⟩ := step.new_commit inv.checkpoint new
    rw [same, height]
    exact ⟨view, number⟩

private theorem step_ownPrepare (inv : Invariant cfg i s) (step : Step cfg i s (now, a) t) :
    ∀ m ∈ t.msgLogPrepare, m.senderId = i → m.senderSig = sigOwnReplica := by
  intro m logged
  obtain ⟨old | new, -⟩ := step.mem_prepare.mp logged
  · exact inv.ownPrepare m old
  · exact (step.new_prepare inv.checkpoint new).2.2.2.2.1

private theorem step_pi (inv : Invariant cfg i s) (step : Step cfg i s (now, a) t) :
    ∀ e ∈ t.viewChangePi, e.v < t.view := by
  intro e listed
  have le := step.view_le
  rw [step.tables.viewChangePi] at listed
  cases a with
  | sendViewChange v =>
    have solution := mem_prePreparedSolutions_view inv (mem_updateViewChangePi.mp listed).1.1
    have next : t.view = v := step.tables.view
    have raised : v = s.view + 1 := step.pre.1
    omega
  | receiveBlock height time blockHash =>
    exact (inv.pi e (List.mem_filter.mp listed).1).trans_le le
  | _ => exact (inv.pi e listed).trans_le le

private theorem step_qi (inv : Invariant cfg i s) (step : Step cfg i s (now, a) t) :
    ∀ e ∈ t.viewChangeQi, e.v < t.view := by
  intro e listed
  have le := step.view_le
  rw [step.tables.viewChangeQi] at listed
  cases a with
  | sendViewChange v =>
    have solution := (mem_updateViewChangeQi.mp listed).1.view inv
    have next : t.view = v := step.tables.view
    have raised : v = s.view + 1 := step.pre.1
    simp only at solution
    omega
  | receiveBlock height time blockHash =>
    exact (inv.qi e (List.mem_filter.mp listed).1).trans_le le
  | _ => exact (inv.qi e listed).trans_le le

private theorem step_inactive (inv : Invariant cfg i s) (step : Step cfg i s (now, a) t) :
    t.activeView = false → t.msgLogPrePrepare = [] := by
  intro inactive
  apply List.eq_nil_iff_forall_not_mem.mpr
  intro m logged
  obtain ⟨old | new, kept⟩ := step.mem_prePrepare logged
  · obtain ⟨view, above, -⟩ := inv.prePrepare m old
    have same := (step.kept_current inv.checkpoint view above kept).1
    have next := step.tables.activeView
    rw [inactive] at next
    cases a with
    | sendViewChange v =>
      have raised : v = s.view + 1 := step.pre.1
      have next : t.view = v := step.tables.view
      omega
    | processNewView hi nu chi => cases next
    | _ => simp [inv.inactive next.symm] at old
  · have active := (step.new_prePrepare inv.checkpoint new).2.2.2.2.2
    rw [inactive] at active
    cases active

/-- A second digest for one number would have to pass the test of RECEIVE_PRE_PREPARE,
come from a primary that reuses a number, or stand beside the first in one Chi. -/
theorem new_old_digest (inv : Invariant cfg i s) (step : Step cfg i s (now, a) t)
    (new : m ∈ a.newPrePrepares cfg i s) (old : m' ∈ s.msgLogPrePrepare) (same : m.n = m'.n) :
    m.reqDigest = m'.reqDigest := by
  obtain ⟨view', -, sender'⟩ := inv.prePrepare m' old
  cases a with
  | sendPrePrepare d data v n =>
    obtain ⟨-, sender, next, -⟩ := step.pre
    simp only [Action.newPrePrepares, List.mem_singleton] at new
    subst new
    have bound := inv.proposed sender m' old
    simp only at same
    omega
  | receivePrePrepare v n d data j sig =>
    obtain ⟨-, sender, window, -, unique, -⟩ := applyReceivePrePrepare_spec step.apply
    obtain ⟨rfl, -⟩ := (inWv_iff inv.checkpoint).mp window
    simp only [Action.newPrePrepares, List.mem_singleton] at new
    subst new
    have present : m'.v = s.view ∧ m'.n = n ∧ m'.senderId = j :=
      ⟨view', same.symm, sender'.trans sender⟩
    rcases unique with none | ⟨m'', logged, -, number, digest, -⟩
    · exact absurd ⟨m', old, present⟩ none
    · rw [← digest]
      exact inv.oneDigest m'' logged m' old (number.trans same)
  | processNewView hi nu chi =>
    rw [inv.inactive step.pre.1] at old
    cases old
  | _ => cases new

/-- A step logs one new pre-prepare for a number. -/
theorem new_prePrepare_unique (step : Step cfg i s (now, a) t)
    (new : m ∈ a.newPrePrepares cfg i s) (new' : m' ∈ a.newPrePrepares cfg i s)
    (same : m.n = m'.n) : m = m' := by
  cases a with
  | sendPrePrepare d data v n | receivePrePrepare v n d data j sig =>
    rw [List.mem_singleton.mp new, List.mem_singleton.mp new']
  | processNewView hi nu chi =>
    obtain ⟨distinct, -⟩ := preProcessNewView_numbers step.pre
    obtain ⟨e, inside, rfl⟩ := List.mem_map.mp new
    obtain ⟨e', inside', rfl⟩ := List.mem_map.mp new'
    rw [List.inj_on_of_nodup_map distinct inside inside' same]
  | _ => cases new

private theorem step_oneDigest (inv : Invariant cfg i s) (step : Step cfg i s (now, a) t) :
    ∀ m ∈ t.msgLogPrePrepare, ∀ m' ∈ t.msgLogPrePrepare,
      m.n = m'.n → m.reqDigest = m'.reqDigest := by
  intro m logged m' logged' same
  obtain ⟨old | new, -⟩ := step.mem_prePrepare logged
  · obtain ⟨old' | new', -⟩ := step.mem_prePrepare logged'
    · exact inv.oneDigest m old m' old' same
    · exact (new_old_digest inv step new' old same.symm).symm
  · obtain ⟨old' | new', -⟩ := step.mem_prePrepare logged'
    · exact new_old_digest inv step new old' same
    · rw [new_prePrepare_unique step new new' same]

theorem le_processedSeqno {chi : List ChiEntry} {hi : ℕ} (inside : m ∈ populatedPrePrepares cfg chi s)
    (view : m.v = s.view) : m.n ≤ processedSeqno cfg hi chi s := by
  have listed : m.n ∈
      ((populatedPrePrepares cfg chi s).filter fun m => m.v = s.view).map PrePrepare.n :=
    List.mem_map_of_mem (List.mem_filter.mpr ⟨inside, by simpa using view⟩)
  cases found : (((populatedPrePrepares cfg chi s).filter
      fun m => m.v = s.view).map PrePrepare.n).max? with
  | none =>
    rw [List.max?_eq_none_iff.mp found] at listed
    cases listed
  | some top =>
    simp only [processedSeqno, found, Option.getD_some]
    exact (List.max?_eq_some_iff.mp found).2 _ listed

private theorem step_proposed (inv : Invariant cfg i s) (step : Step cfg i s (now, a) t) :
    primary cfg t.view = i → ∀ m ∈ t.msgLogPrePrepare, m.n ≤ t.seqno := by
  intro proposer m logged
  have tables := step.tables
  have member := step.mem_prePrepare logged
  have same : t.view = s.view := by
    obtain ⟨old | new, kept⟩ := member
    · obtain ⟨view, above, -⟩ := inv.prePrepare m old
      exact (step.kept_current inv.checkpoint view above kept).1
    · exact (step.new_prePrepare inv.checkpoint new).2.2.2.1
  rw [same] at proposer
  cases a with
  | sendPrePrepare d data v n =>
    have next : s.seqno + 1 = n := step.pre.2.2.1
    have seqno : t.seqno = n := tables.seqno
    rcases member.1 with old | new
    · have bound := inv.proposed proposer m old
      omega
    · rw [List.mem_singleton.mp new, seqno]
  | receivePrePrepare v n d data j sig =>
    rcases member.1 with old | new
    · exact tables.seqno ▸ inv.proposed proposer m old
    · obtain ⟨other, sender, -⟩ := applyReceivePrePrepare_spec step.apply
      exact absurd (sender.symm.trans proposer) other
  | processNewView hi nu chi =>
    rw [tables.seqno]
    rw [tables.prePrepare] at logged
    apply le_processedSeqno (List.mem_filter.mp logged).1
    exact same ▸ (step_prePrepare inv step m (tables.prePrepare ▸ logged)).1
  | _ =>
    obtain ⟨old | new, -⟩ := member
    · exact tables.seqno ▸ inv.proposed proposer m old
    · cases new

theorem step (inv : Invariant cfg i s) (step : Step cfg i s (now, a) t) : Invariant cfg i t where
  checkpoint := step.checkpoint_single inv.checkpoint
  request := step_request inv step
  prePrepare := step_prePrepare inv step
  prepare := step_prepare inv step
  commit := step_commit inv step
  ownPrepare := step_ownPrepare inv step
  pi := step_pi inv step
  qi := step_qi inv step
  inactive := step_inactive inv step
  oneDigest := step_oneDigest inv step
  proposed := step_proposed inv step

theorem reachable (run : Reachable (Initial cfg) (Step cfg i) s) : Invariant cfg i s :=
  run.invariant (fun _ start => initial start) fun _ _ _ inv next => inv.step next

end Invariant

end Fbft
