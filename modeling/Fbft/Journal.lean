import Fbft.Cluster

/-! What a replica has broadcast and logged so far, against its present state. Within one
view a replica logs one digest for a number, and it prepares and commits only what it has
logged. -/
namespace Fbft

open Database LabelledPath

variable {cfg : Config} {i : ℕ} {now : ℚ} {x : Node} {s t : Replica} {a : Action}

def Node.Logged (x : Node) (v n : ℕ) (d : String) : Prop :=
  ∃ m ∈ x.logged, m.v = v ∧ m.n = n ∧ m.reqDigest = d

structure Journal (cfg : Config) (i : ℕ) (x : Node) : Prop where
  state : Invariant cfg i x.state
  log : PrePrepareLog x.state
  viewChanges : ViewChangeLog cfg i x.state
  reported : ∀ m ∈ x.state.msgLogViewChange, ∀ e ∈ m.pi, e.v < m.v
  msgOut : ∀ m ∈ x.state.msgOut, m ∈ x.sent
  logged : ∀ m ∈ x.state.msgLogPrePrepare, m ∈ x.logged
  proposer : ∀ m ∈ x.logged, m.v ≤ x.state.view ∧ m.senderId = primary cfg m.v
  current : ∀ m ∈ x.logged, m.v = x.state.view → lowWatermark x.state < m.n →
    m ∈ x.state.msgLogPrePrepare
  oneDigest : ∀ m ∈ x.logged, ∀ m' ∈ x.logged, m.v = m'.v → m.n = m'.n →
    m.reqDigest = m'.reqDigest
  prepare : ∀ v n d, .prepare v n d ∈ x.sent → x.Logged v n d
  commit : ∀ v n data, .commit v n data ∈ x.sent → ∃ d, x.Logged v n d
  qi : ∀ q ∈ x.state.viewChangeQi, x.Logged q.v q.n q.reqDigest
  prepareNodup : x.state.msgLogPrepare.Nodup
  recoveryNodup : x.state.msgLogCommitViewRecovery.Nodup

theorem Node.mem_record_sent {m : Message} : m ∈ (x.record t).sent ↔ m ∈ x.sent ∨ m ∈ t.msgOut :=
  List.mem_append

theorem Node.mem_record_logged {m : PrePrepare} :
    m ∈ (x.record t).logged ↔ m ∈ x.logged ∨ m ∈ t.msgLogPrePrepare :=
  List.mem_append

theorem Node.Logged.record (logged : x.Logged v n d) : (x.record t).Logged v n d := by
  obtain ⟨m, inside, entry⟩ := logged
  exact ⟨m, Node.mem_record_logged.mpr (Or.inl inside), entry⟩

theorem Node.Logged.of_log {m : PrePrepare} (inside : m ∈ t.msgLogPrePrepare) :
    (x.record t).Logged m.v m.n m.reqDigest :=
  ⟨m, Node.mem_record_logged.mpr (Or.inr inside), rfl, rfl, rfl⟩

/-- What still belongs to the view and lies above the checkpoint was not dropped. -/
theorem Step.keeps_current (step : Step cfg i s (now, a) t) (single : ∃ c, s.checkpoint = [c])
    (view : v = t.view) (above : lowWatermark t < n) : a.keeps v n = true := by
  cases a with
  | recoverView w | sendViewChange w =>
    have next : t.view = w := step.tables.view
    simp only [Action.keeps, decide_not, Bool.not_eq_true', decide_eq_false_iff_not]
    omega
  | receiveBlock height time hash =>
    obtain ⟨-, checkpoint⟩ := step.block_checkpoint single
    rw [lowWatermark_eq checkpoint] at above
    simpa [Action.keeps] using above
  | _ => rfl

namespace Journal

theorem initial (start : Initial cfg s) : Journal cfg i ⟨s, [], []⟩ := by
  have state := Invariant.initial (i := i) start
  have log := PrePrepareLog.initial start
  have viewChanges := ViewChangeLog.initial (i := i) start
  obtain ⟨height, blockHash, timestamp, view, rfl⟩ := start
  constructor <;> first | assumption | simp [initNotx, setView]

theorem mem_sent (journal : Journal cfg i x) (step : Step cfg i x.state (now, a) t)
    {m : Message} (said : m ∈ (x.record t).sent) :
    m ∈ x.sent ∨ m ∈ a.newMessages cfg i x.state := by
  rcases Node.mem_record_sent.mp said with old | out
  · exact Or.inl old
  · exact (step.tables.msgOut m out).imp_left (journal.msgOut m)

theorem new_sent (step : Step cfg i x.state (now, a) t) {m : Message}
    (new : m ∈ a.newMessages cfg i x.state) : m ∈ (x.record t).sent :=
  Node.mem_record_sent.mpr (Or.inr (step.tables.sends m new))

theorem mem_logged (journal : Journal cfg i x) (step : Step cfg i x.state (now, a) t)
    {m : PrePrepare} (logged : m ∈ (x.record t).logged) :
    m ∈ x.logged ∨ m ∈ a.newPrePrepares cfg i x.state := by
  rcases Node.mem_record_logged.mp logged with old | inside
  · exact Or.inl old
  · exact (step.mem_prePrepare inside).1.imp_left (journal.logged m)

/-- The certificates of a VIEW_CHANGE are of earlier views: its receiver checks it, and its
sender has left the view that it takes them from. -/
private theorem step_reported (journal : Journal cfg i x)
    (step : Step cfg i x.state (now, a) t) :
    ∀ m ∈ t.msgLogViewChange, ∀ e ∈ m.pi, e.v < m.v := by
  intro m logged e listed
  obtain ⟨old | new, -⟩ := step.mem_viewChange.mp logged
  · exact journal.reported m old e listed
  · cases a with
    | sendViewChange v =>
      obtain ⟨checkpoint, -, rfl⟩ := List.mem_map.mp new
      obtain ⟨⟨solution, -⟩, -⟩ := mem_updateViewChangePi.mp listed
      have before := mem_prePreparedSolutions_view journal.state solution
      have raised : v = x.state.view + 1 := step.pre.1
      change e.v < v
      omega
    | receiveViewChange v hi c pi qi j sig =>
      obtain ⟨-, -, correct, -⟩ := applyReceiveViewChange_spec step.apply
      rw [List.mem_singleton.mp new] at listed ⊢
      exact (correct.1 e listed).1
    | _ => cases new

private theorem step_proposer (journal : Journal cfg i x)
    (step : Step cfg i x.state (now, a) t) :
    ∀ m ∈ (x.record t).logged, m.v ≤ t.view ∧ m.senderId = primary cfg m.v := by
  intro m logged
  have le := step.view_le
  rcases Node.mem_record_logged.mp logged with old | inside
  · obtain ⟨view, sender⟩ := journal.proposer m old
    exact ⟨by omega, sender⟩
  · obtain ⟨view, -, sender⟩ := (journal.state.step step).prePrepare m inside
    exact ⟨by omega, by rw [sender, view]⟩

private theorem step_current (journal : Journal cfg i x)
    (step : Step cfg i x.state (now, a) t) :
    ∀ m ∈ (x.record t).logged, m.v = t.view → lowWatermark t < m.n →
      m ∈ t.msgLogPrePrepare := by
  intro m logged view above
  rcases Node.mem_record_logged.mp logged with old | inside
  · have le := step.view_le
    have grown := step.lowWatermark_le journal.state.checkpoint
    have before := (journal.proposer m old).1
    have present := journal.current m old (by omega) (by omega)
    exact step.mem_log present (step.keeps_current journal.state.checkpoint view above)
  · exact inside

/-- Two entries of the current view above the checkpoint are both in the log; of the others
none is new. -/
private theorem step_oneDigest (journal : Journal cfg i x)
    (step : Step cfg i x.state (now, a) t) :
    ∀ m ∈ (x.record t).logged, ∀ m' ∈ (x.record t).logged, m.v = m'.v → m.n = m'.n →
      m.reqDigest = m'.reqDigest := by
  intro m logged m' logged' view number
  have inv := journal.state.step step
  by_cases live : m.v = t.view ∧ lowWatermark t < m.n
  · have inside := step_current journal step m logged live.1 live.2
    have inside' := step_current journal step m' logged' (by omega) (by omega)
    exact inv.oneDigest m inside m' inside' number
  · have old : ∀ y ∈ (x.record t).logged, ¬ (y.v = t.view ∧ lowWatermark t < y.n) →
        y ∈ x.logged := by
      intro y member dead
      rcases Node.mem_record_logged.mp member with old | inside
      · exact old
      · obtain ⟨current, above, -⟩ := inv.prePrepare y inside
        exact absurd ⟨current, above⟩ dead
    have dead' : ¬ (m'.v = t.view ∧ lowWatermark t < m'.n) := by rwa [← view, ← number]
    exact journal.oneDigest m (old m logged live) m' (old m' logged' dead') view number

private theorem step_prepare (journal : Journal cfg i x)
    (step : Step cfg i x.state (now, a) t) :
    ∀ v n d, .prepare v n d ∈ (x.record t).sent → (x.record t).Logged v n d := by
  intro v n d said
  rcases journal.mem_sent step said with old | new
  · exact (journal.prepare v n d old).record
  · rcases Action.putsOut_of_mem new with rfl | ⟨hi, nu, chi, rfl, rfl, e, inside, rfl, rfl⟩
    · obtain ⟨-, window, prePrepared, -⟩ := step.pre
      rcases prePrepared_iff.mp prePrepared with ⟨q, old, number, digest, view⟩ | logged
      · have below := journal.state.qi q old
        have current := window.2
        omega
      · obtain ⟨-, m, inside, view, number, digest, -⟩ := logged
        exact ⟨m, Node.mem_record_logged.mpr (Or.inl (journal.logged m inside)), view, number,
          digest⟩
    · have entry : ⟨x.state.view, e.n, e.reqDigest, e.data, primary cfg x.state.view,
          sigInNewView⟩ ∈ t.msgLogPrePrepare := by
        rw [step.processNewView_log journal.state]
        exact List.mem_map.mpr ⟨e, inside, rfl⟩
      exact Node.Logged.of_log entry

private theorem step_commit (journal : Journal cfg i x)
    (step : Step cfg i x.state (now, a) t) :
    ∀ v n data, .commit v n data ∈ (x.record t).sent → ∃ d, (x.record t).Logged v n d := by
  intro v n data said
  rcases journal.mem_sent step said with old | new
  · obtain ⟨d, logged⟩ := journal.commit v n data old
    exact ⟨d, logged.record⟩
  · obtain ⟨d, rfl⟩ := Action.putsOut_of_mem new
    obtain ⟨window, certificate, -⟩ := step.pre
    obtain ⟨⟨-, m, inside, view, number, digest, -⟩, -⟩ :=
      prepared_current journal.state certificate window.2
    exact ⟨d, m, Node.mem_record_logged.mpr (Or.inl (journal.logged m inside)), view, number,
      digest⟩

private theorem step_qi (journal : Journal cfg i x)
    (step : Step cfg i x.state (now, a) t) :
    ∀ q ∈ t.viewChangeQi, (x.record t).Logged q.v q.n q.reqDigest := by
  intro q listed
  rw [step.tables.viewChangeQi] at listed
  cases a with
  | sendViewChange v =>
    obtain ⟨-, -, m, inside, view, number, digest, -⟩ := mem_updateViewChangeQi.mp listed
    exact ⟨m, Node.mem_record_logged.mpr (Or.inl (journal.logged m inside)), view, number, digest⟩
  | receiveBlock height time hash =>
    exact (journal.qi q (List.mem_filter.mp listed).1).record
  | _ => exact (journal.qi q listed).record

theorem step (journal : Journal cfg i x) (step : Step cfg i x.state (now, a) t) :
    Journal cfg i (x.record t) where
  state := journal.state.step step
  log := journal.log.step journal.state step
  viewChanges := journal.viewChanges.step step
  reported := step_reported journal step
  msgOut := fun _ out => Node.mem_record_sent.mpr (Or.inr out)
  logged := fun _ inside => Node.mem_record_logged.mpr (Or.inr inside)
  proposer := step_proposer journal step
  current := step_current journal step
  oneDigest := step_oneDigest journal step
  prepare := step_prepare journal step
  commit := step_commit journal step
  qi := step_qi journal step
  prepareNodup := step.prepare_nodup journal.prepareNodup
  recoveryNodup := by
    rw [Node.record, step.tables.commitViewRecovery]
    exact nodup_assertzAll journal.recoveryNodup

theorem exists_of_reachable (reached : Reachable (Initial cfg) (Step cfg i) s) :
    ∃ x : Node, x.state = s ∧ Journal cfg i x := by
  apply reached.invariant
  · exact fun s start => ⟨⟨s, [], []⟩, rfl, initial start⟩
  · rintro _ ⟨now, a⟩ t ⟨x, rfl, journal⟩ next
    exact ⟨x.record t, rfl, journal.step next⟩

end Journal

end Fbft
