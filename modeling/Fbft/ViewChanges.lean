import Fbft.Cluster
import Mathlib.Data.Finset.Max

/-! The VIEW_CHANGE of a replica against the test of those that receive it. The sender
fills Pi and Qi from whatever its log holds, the receiver allows numbers in the window
above the sender's checkpoint only. -/
namespace Fbft

open Database LabelledPath

variable {cfg : Config} {i : ℕ} {now : ℚ} {s t : Replica} {a : Action}
  {labels : List (ℚ × Action)}

/-- What `apply_SEND_VIEW_CHANGE` logs as its own and puts out. -/
def emittedViewChange (cfg : Config) (v i : ℕ) (s : Replica) : Option ViewChange :=
  (reportedCheckpoint s).map fun c => ownViewChange cfg v i c s

/-- The VIEW_CHANGE of replica `i` passes `correct_view_change`, and every other replica
that is not ahead and has none of this sender for the view takes it in. -/
def AcceptedByOthers (cfg : Config) (i : ℕ) (s : Replica) : Prop :=
  ∀ v m, s.view < v → emittedViewChange cfg v i s = some m →
    correctViewChange v m.hi m.pi m.qi ∧
    ∀ j u senderSig, i ≠ j → u.view ≤ v →
      (¬ ∃ x ∈ u.msgLogViewChange, x.v = v ∧ x.senderId = i) →
      (applyReceiveViewChange cfg v m.hi m.c m.pi m.qi i senderSig j u).isSome

/-- A NEW_VIEW proposes requests for the window only. In a cluster where no PREPARE is
needed, no block skips the height of a Qi entry. -/
def KeepsWindow (cfg : Config) (s : Replica) (l : ℚ × Action) : Prop :=
  match l.2 with
  | .processNewView _ _ chi => ∀ e ∈ chi, e.reqDigest ≠ nullDigest → e.n ≤ lowWatermark s + 1
  | .receiveBlock height _ _ => quorumPrepare cfg = 0 → ∀ q ∈ s.viewChangeQi, height ≤ q.n
  | _ => True

instance : Decidable (KeepsWindow cfg s l) := by
  obtain ⟨now, a⟩ := l
  apply a.casesOn (motive := fun a => Decidable (KeepsWindow cfg s (now, a))) <;> intros <;>
    dsimp only [KeepsWindow] <;> infer_instance

theorem applySendViewChange_eq (cfg : Config) (v i : ℕ) (s : Replica) :
    applySendViewChange cfg v i s = (emittedViewChange cfg v i s).map fun m =>
      msgLogClearWhereViewLessThan v
        (msgLogAddViewChange m (msgOutAdd m.message (enterViewChange cfg v s))) := by
  cases sent : applySendViewChange cfg v i s with
  | some t =>
    obtain ⟨c, reported, rfl⟩ := applySendViewChange_spec sent
    simp [emittedViewChange, reported]
  | none =>
    have nothing : reportedCheckpoint s = none := by
      simpa [applySendViewChange, reportedCheckpoint, Option.bind_eq_none_iff,
        Option.map_eq_none_iff, enterViewChange_eq, getH] using sent
    simp [emittedViewChange, nothing]

theorem applyReceiveViewChange_isSome {v hi j : ℕ} {c senderSig : String} {pi : List PiEntry}
    {qi : List QiEntry} :
    (applyReceiveViewChange cfg v hi c pi qi i senderSig j s).isSome ↔
      i ≠ j ∧ s.view ≤ v ∧ correctViewChange v hi pi qi ∧
      ¬ ∃ m ∈ s.msgLogViewChange, m.v = v ∧ m.senderId = i := by
  unfold applyReceiveViewChange
  split <;> simp_all

theorem acceptedByOthers_iff :
    AcceptedByOthers cfg i s ↔ ∀ v m, s.view < v → emittedViewChange cfg v i s = some m →
      correctViewChange v m.hi m.pi m.qi := by
  constructor
  · intro accepted v m later emitted
    exact (accepted v m later emitted).1
  · intro correct v m later emitted
    have correct := correct v m later emitted
    refine ⟨correct, fun j u senderSig other behind fresh => ?_⟩
    exact applyReceiveViewChange_isSome.mpr ⟨other, behind, correct, fresh⟩

theorem emittedViewChange_eq (cfg : Config) (i : ℕ) (single : ∃ c, s.checkpoint = [c]) (v : ℕ) :
    ∃ m, emittedViewChange cfg v i s = some m ∧ m.hi = lowWatermark s ∧
      m.pi = (updateViewChangePi cfg s).viewChangePi ∧
      m.qi = (updateViewChangeQi cfg s).viewChangeQi := by
  obtain ⟨c, single⟩ := single
  have reported : reportedCheckpoint s = some c := by
    simp [reportedCheckpoint, getH, single]
  exact ⟨ownViewChange cfg v i c s, by simp [emittedViewChange, reported],
    (lowWatermark_eq single).symm, rfl, rfl⟩

/-- Requests are logged for the window only, and where Qi counts as prepared by itself it
speaks for the window too. -/
structure NumbersInWindow (cfg : Config) (i : ℕ) (s : Replica) : Prop where
  invariant : Invariant cfg i s
  log : ∀ m ∈ s.msgLogPrePrepare, m.reqDigest ≠ nullDigest → m.n = lowWatermark s + 1
  qi : quorumPrepare cfg = 0 → ∀ q ∈ s.viewChangeQi, q.n = lowWatermark s + 1

namespace NumbersInWindow

theorem logged_number (window : NumbersInWindow cfg i s) (logged : LoggedPrePrepared cfg s e) :
    e.n = lowWatermark s + 1 := by
  obtain ⟨⟨r, known, digest⟩, m, inside, -, number, digest', -⟩ := logged
  have named : m.reqDigest ≠ nullDigest := by
    rw [digest', ← digest]
    exact window.invariant.request r known
  exact number.symm.trans (window.log m inside named)

/-- No PREPARE of an earlier view is in the log, so a Qi entry is prepared by itself or
not at all. -/
theorem preparesFor_old (inv : Invariant cfg i s) (old : v < s.view) :
    preparesFor d v n s = [] := by
  apply List.filter_eq_nil_iff.mpr
  intro m logged
  have current := (inv.prepare m logged).1
  simp only [decide_eq_true_eq]
  omega

theorem accepted (window : NumbersInWindow cfg i s) : AcceptedByOthers cfg i s := by
  have inv := window.invariant
  refine acceptedByOthers_iff.mpr fun v m later emitted => ?_
  obtain ⟨m', emitted', hi, pi, qi⟩ := emittedViewChange_eq cfg i inv.checkpoint v
  rw [emitted] at emitted'
  cases emitted'
  rw [hi, pi, qi]
  constructor
  · intro e inside
    obtain ⟨⟨solution, enough⟩, -⟩ := mem_updateViewChangePi.mp inside
    have number : e.n = lowWatermark s + 1 := by
      rcases mem_prePreparedSolutions.mp solution with ⟨q, listed, rfl⟩ | logged
      · have none := preparesFor_old inv (inv.qi q listed) (d := q.reqDigest) (n := q.n)
        simp only [none, List.length_nil, nonpos_iff_eq_zero] at enough
        exact window.qi enough q listed
      · exact window.logged_number logged
    have view := mem_prePreparedSolutions_view inv solution
    simp only [inViewChangeWindow, number, requestBufferLen]
    omega
  · intro q inside
    have logged := (mem_updateViewChangeQi.mp inside).1
    have number := window.logged_number logged
    have view := logged.view inv
    simp only at number view
    simp only [inViewChangeWindow, number, requestBufferLen]
    omega

theorem initial (start : Initial cfg s) : NumbersInWindow cfg i s := by
  refine ⟨Invariant.initial start, ?_, ?_⟩
  all_goals
    obtain ⟨height, blockHash, timestamp, view, rfl⟩ := start
    simp [initNotx, setView]

private theorem step_log (window : NumbersInWindow cfg i s) (step : Step cfg i s (now, a) t)
    (keeps : KeepsWindow cfg s (now, a)) :
    ∀ m ∈ t.msgLogPrePrepare, m.reqDigest ≠ nullDigest → m.n = lowWatermark t + 1 := by
  intro m logged named
  have inv := window.invariant
  obtain ⟨old | new, kept⟩ := step.mem_prePrepare logged
  · obtain ⟨view, above, -⟩ := inv.prePrepare m old
    have number := window.log m old named
    have next := (step.kept_current inv.checkpoint view above kept).2
    have grows := step.lowWatermark_le inv.checkpoint
    omega
  · obtain ⟨-, above, -, -, height, -⟩ := step.new_prePrepare inv.checkpoint new
    cases a with
    | sendPrePrepare d data v n =>
      obtain ⟨-, -, -, inside, -⟩ := step.pre
      rw [List.mem_singleton.mp new, height]
      exact ((inWv_iff inv.checkpoint).mp inside).2
    | receivePrePrepare v n d data j sig =>
      obtain ⟨-, -, inside, -⟩ := applyReceivePrePrepare_spec step.apply
      rw [List.mem_singleton.mp new, height]
      exact ((inWv_iff inv.checkpoint).mp inside).2
    | processNewView hi nu chi =>
      obtain ⟨e, inside, rfl⟩ := List.mem_map.mp new
      have bound := keeps e inside named
      simp only at above ⊢
      omega
    | _ => cases new

private theorem step_qi (window : NumbersInWindow cfg i s) (step : Step cfg i s (now, a) t)
    (keeps : KeepsWindow cfg s (now, a)) :
    quorumPrepare cfg = 0 → ∀ q ∈ t.viewChangeQi, q.n = lowWatermark t + 1 := by
  intro free q listed
  have inv := window.invariant
  have height := step.lowWatermark_cases inv.checkpoint
  rw [step.tables.viewChangeQi] at listed
  cases a with
  | sendViewChange v =>
    have number := window.logged_number (mem_updateViewChangeQi.mp listed).1
    have same : lowWatermark t = lowWatermark s := by simpa using height
    rw [same]
    exact number
  | receiveBlock blockHeight time blockHash =>
    obtain ⟨inside, other⟩ := List.mem_filter.mp listed
    have other : q.n ≠ blockHeight := of_decide_eq_true other
    have number := window.qi free q inside
    have reaches := keeps free q inside
    have grown := (step.block_checkpoint inv.checkpoint).1
    omega
  | _ =>
    have same : lowWatermark t = lowWatermark s := by simpa using height
    rw [same]
    exact window.qi free q listed

theorem step (window : NumbersInWindow cfg i s) (step : Step cfg i s (now, a) t)
    (keeps : KeepsWindow cfg s (now, a)) : NumbersInWindow cfg i t where
  invariant := window.invariant.step step
  log := step_log window step keeps
  qi := step_qi window step keeps

end NumbersInWindow

theorem not_accepted_of_logged (inv : Invariant cfg i s) (logged : LoggedPrePrepared cfg s e)
    (outside : e.n ≠ lowWatermark s + 1) : ¬ AcceptedByOthers cfg i s := by
  intro accepted
  obtain ⟨m, emitted, hi, -, qi⟩ :=
    emittedViewChange_eq cfg i inv.checkpoint (s.view + 1)
  have correct := (acceptedByOthers_iff.mp accepted _ m (Nat.lt_succ_self _) emitted).2
  obtain ⟨x, inside, view, number, digest, sender⟩ := logged.2
  have listed : (⟨e.n, e.reqDigest, x.data, e.v⟩ : QiEntry) ∈ m.qi := by
    rw [qi]
    refine mem_updateViewChangeQi.mpr ⟨logged, ?_, x, inside, view, number, digest, sender, rfl⟩
    intro e' logged' _ _
    rw [logged'.view inv, logged.view inv]
  obtain ⟨-, above, below⟩ := correct _ listed
  simp only [hi, requestBufferLen] at above below
  omega

/-- An old Qi entry goes into Pi when no PREPARE is needed. -/
theorem not_accepted_of_qi (inv : Invariant cfg i s) (free : quorumPrepare cfg = 0)
    {q : QiEntry} (listed : q ∈ s.viewChangeQi) (outside : q.n ≤ lowWatermark s) :
    ¬ AcceptedByOthers cfg i s := by
  intro accepted
  obtain ⟨m, emitted, hi, pi, -⟩ :=
    emittedViewChange_eq cfg i inv.checkpoint (s.view + 1)
  have correct := (acceptedByOthers_iff.mp accepted _ m (Nat.lt_succ_self _) emitted).1
  let solutions := (prePreparedSolutions cfg s).filter fun e => e.n = q.n
  have some : solutions.toFinset.Nonempty := by
    refine ⟨⟨q.n, q.reqDigest, q.v⟩, ?_⟩
    simp only [solutions, List.mem_toFinset, List.mem_filter, decide_true, and_true]
    exact mem_prePreparedSolutions.mpr (Or.inl ⟨q, listed, rfl⟩)
  obtain ⟨e, inside, greatest⟩ := Finset.exists_max_image solutions.toFinset PiEntry.v some
  obtain ⟨solution, number⟩ := List.mem_filter.mp (List.mem_toFinset.mp inside)
  have number : e.n = q.n := of_decide_eq_true number
  have chosen : e ∈ m.pi := by
    rw [pi]
    refine mem_updateViewChangePi.mpr ⟨⟨solution, by omega⟩, fun e' solution' _ same => ?_⟩
    apply greatest e'
    simp only [solutions, List.mem_toFinset, List.mem_filter, decide_eq_true_eq]
    exact ⟨solution', same.trans number⟩
  have above := (correct e chosen).2.1
  omega

theorem not_accepted_of_breaks (inv : Invariant cfg i s) (step : Step cfg i s (now, a) t)
    (breaks : ¬ KeepsWindow cfg s (now, a)) : ¬ AcceptedByOthers cfg i t := by
  have inv' := inv.step step
  cases a with
  | processNewView hi nu chi =>
    simp only [KeepsWindow, not_forall, not_le] at breaks
    obtain ⟨e, inside, named, outside⟩ := breaks
    obtain ⟨r, known, digest⟩ := (step.pre.2.2.2.2.2.2 e inside).resolve_left named
    have height : lowWatermark t = lowWatermark s := by
      simpa using step.lowWatermark_cases inv.checkpoint
    have logged : LoggedPrePrepared cfg t ⟨e.n, e.reqDigest, s.view⟩ := by
      refine ⟨⟨r, ?_, digest⟩,
        ⟨s.view, e.n, e.reqDigest, e.data, primary cfg s.view, sigInNewView⟩, ?_, rfl, rfl, rfl, rfl⟩
      · simpa using step.tables.keepsRequest r known
      · rw [step.processNewView_log inv]
        exact List.mem_map_of_mem inside
    refine not_accepted_of_logged inv' logged ?_
    simp only [height]
    omega
  | receiveBlock height time blockHash =>
    simp only [KeepsWindow, not_forall, not_le] at breaks
    obtain ⟨free, q, listed, below⟩ := breaks
    have next := (step.block_checkpoint inv.checkpoint).2
    refine not_accepted_of_qi inv' free (q := q) ?_ ?_
    · rw [step.tables.viewChangeQi]
      exact List.mem_filter.mpr ⟨listed, by simpa using below.ne⟩
    · rw [lowWatermark_eq next]
      exact below.le
  | _ => exact absurd trivial breaks

/-- In the states of a run the VIEW_CHANGE of the replica is acceptable exactly when every
step of the run keeps to the window. -/
theorem acceptedByOthers_iff_keepsWindow (start : Initial cfg s)
    (run : Path (Step cfg i) s labels t) :
    (∀ before after m, labels = before ++ after → Path (Step cfg i) s before m →
      AcceptedByOthers cfg i m) ↔ Path (Guarded (Step cfg i) (KeepsWindow cfg)) s labels t := by
  refine run.forall_good_iff (fun s l t u step other => step.functional other)
    (fun s window => window.accepted) ?_ ?_ (NumbersInWindow.initial start)
  · rintro s ⟨now, a⟩ t window step keeps
    exact window.step step keeps
  · rintro s ⟨now, a⟩ t window step breaks
    exact not_accepted_of_breaks window.invariant step breaks

def preparesAndLeaves : List (ℚ × Action) :=
  [(60, .receiveRequest "(H=1, T=60)" 60),
    (60, .receivePrePrepare 0 1 "(H=1, T=60)" "B60" 0 "S0"), (60, .sendPrepare "(H=1, T=60)" 0 1),
    (60, .receivePrepare 0 1 "(H=1, T=60)" 2 "S2"), (1000, .sendViewChange 1)]

theorem acceptedByOthers_preparesAndLeaves : ∃ t,
    exec fourReplicas 1 (KeepsWindow fourReplicas) preparesAndLeaves genesis = some t ∧
    ∀ before after m, preparesAndLeaves = before ++ after →
      Path (Step fourReplicas 1) genesis before m → AcceptedByOthers fourReplicas 1 m := by
  have runs : (exec fourReplicas 1 (KeepsWindow fourReplicas) preparesAndLeaves genesis).isSome := by
    decide +kernel
  obtain ⟨t, ran⟩ := Option.isSome_iff_exists.mp runs
  have guarded := exec_path ran
  exact ⟨t, ran,
    (acceptedByOthers_iff_keepsWindow genesis_initial guarded.unguard).mpr guarded⟩

/-- Replica 2 is one block ahead and has a certificate for the next one; replica 3, still
at height 0, takes both numbers from the NEW_VIEW of replica 1. -/
def newViewAhead : List ClusterLabel :=
  let d := "(H=1, T=60)"
  let d' := "(H=2, T=120)"
  let nu := [⟨1, "1/1"⟩, ⟨2, "1/2"⟩, ⟨3, "1/3"⟩]
  let chi := [⟨1, d, some "B60"⟩, ⟨2, d', some "B120"⟩]
  [(0, 60, .receiveRequest d 60), (1, 60, .receiveRequest d 60), (3, 60, .receiveRequest d 60),
    (3, 60, .receiveRequest d' 120), (0, 60, .sendPrePrepare d "B60" 0 1),
    (1, 60, .receivePrePrepare 0 1 d "B60" 0 "S0"), (3, 60, .receivePrePrepare 0 1 d "B60" 0 "S0"),
    (1, 60, .sendPrepare d 0 1), (3, 60, .sendPrepare d 0 1), (3, 60, .receivePrepare 0 1 d 1 "S1"),
    (1, 1000, .sendViewChange 1), (3, 1000, .sendViewChange 1),
    (1, 1000, .receiveViewChange 1 0 "H0" [⟨1, d, 0⟩] [⟨1, d, some "B60", 0⟩] 3 "S3"),
    (1, 1000, .receiveViewChange 1 1 "H1" [⟨2, d', 0⟩] [⟨2, d', some "B120", 0⟩] 2 "S2"),
    (1, 1000, .sendNewView nu chi),
    (3, 1000, .receiveViewChange 1 0 "H0" [] [⟨1, d, some "B60", 0⟩] 1 "S1"),
    (3, 1000, .receiveViewChange 1 1 "H1" [⟨2, d', 0⟩] [⟨2, d', some "B120", 0⟩] 2 "S2"),
    (3, 1000, .receiveNewView 1 nu chi 1 "S1"), (3, 1000, .processNewView 0 nu chi)]

/-- The next VIEW_CHANGE of replica 3 speaks of number 2 at checkpoint 0. -/
theorem newViewAhead_notAccepted : ∃ w,
    Reachable fourWithOneFaulty.Initial fourWithOneFaulty.Step w ∧ fourWithOneFaulty.Correct 3 ∧
    ¬ AcceptedByOthers fourReplicas 3 (w 3).state := by
  have runs : ∃ w,
      fourWithOneFaulty.exec Cluster.Always newViewAhead genesisWorld = some w ∧
      (w 3).state.view = 1 ∧ ∃ m, emittedViewChange fourReplicas 2 3 (w 3).state = some m ∧
        ¬ correctViewChange 2 m.hi m.pi m.qi := by
    decide +kernel
  obtain ⟨w, ran, view, m, emitted, incorrect⟩ := runs
  refine ⟨w, Cluster.exec_reachable (genesisWorld_initial rfl) ran, by decide, fun accepted => ?_⟩
  exact incorrect (accepted 2 m (by rw [view]; decide) emitted).1

end Fbft
