import Fbft.Nu

/-! The views that the message log speaks about. Leaving a view cleans the tables of what is
older, except for the table of COMMITs kept for view recovery; and a NEW_VIEW is logged for
any view that the replica has reached. -/
namespace Fbft

open Database LabelledPath

variable {cfg : Config} {i : ℕ} {now : ℚ} {s t : Replica} {a : Action}

/-- No table of the message log speaks about a view that was left. -/
structure LogPresent (s : Replica) : Prop where
  prePrepare : ∀ m ∈ s.msgLogPrePrepare, m.v = s.view
  prepare : ∀ m ∈ s.msgLogPrepare, m.v = s.view
  commit : ∀ m ∈ s.msgLogCommit, m.v = s.view
  viewChange : ∀ m ∈ s.msgLogViewChange, s.view ≤ m.v
  newView : ∀ m ∈ s.msgLogNewView, s.view ≤ m.v
  commitViewRecovery : ∀ m ∈ s.msgLogCommitViewRecovery, s.view ≤ m.v

/-- Of each of the six tables, `t` has the entries of `s` with view `v` or more. -/
structure ClearsBelow (v : ℕ) (s t : Replica) : Prop where
  prePrepare : t.msgLogPrePrepare = s.msgLogPrePrepare.filter fun m => v ≤ m.v
  prepare : t.msgLogPrepare = s.msgLogPrepare.filter fun m => v ≤ m.v
  commit : t.msgLogCommit = s.msgLogCommit.filter fun m => v ≤ m.v
  viewChange : t.msgLogViewChange = s.msgLogViewChange.filter fun m => v ≤ m.v
  newView : t.msgLogNewView = s.msgLogNewView.filter fun m => v ≤ m.v
  commitViewRecovery :
    t.msgLogCommitViewRecovery = s.msgLogCommitViewRecovery.filter fun m => v ≤ m.v

/-- No COMMIT is kept for the recovery of a view that is left behind, and a NEW_VIEW is of
the present view or already known there. -/
def KeepsLogPresent (s : Replica) (l : ℚ × Action) : Prop :=
  match l.2 with
  | .sendViewChange v => ∀ m ∈ s.msgLogCommitViewRecovery, v ≤ m.v
  | .recoverView v => ∀ m ∈ s.msgLogCommitViewRecovery, v ≤ m.v
  | .receiveNewView v nu chi _ _ => v = s.view ∨
      ∃ m ∈ s.msgLogNewView, m.v = s.view ∧ m.nu = nu ∧ (unifyChi m.chi chi).isSome
  | _ => True

instance : Decidable (KeepsLogPresent s l) := by
  obtain ⟨now, a⟩ := l
  apply a.casesOn (motive := fun a => Decidable (KeepsLogPresent s (now, a))) <;> intros <;>
    dsimp only [KeepsLogPresent] <;> infer_instance

theorem clearsBelow_iff {v : ℕ} : ClearsBelow v s (msgLogClearWhereViewLessThan v s) ↔
    ∀ m ∈ s.msgLogCommitViewRecovery, v ≤ m.v := by
  constructor
  · intro clears m logged
    have kept := clears.commitViewRecovery
    simp only [msgLogClearWhereViewLessThan] at kept
    rw [kept] at logged
    exact of_decide_eq_true (List.mem_filter.mp logged).2
  · intro current
    constructor <;> simp only [msgLogClearWhereViewLessThan, not_lt]
    exact (List.filter_eq_self.mpr fun m logged => decide_eq_true (current m logged)).symm

namespace LogPresent

theorem initial (start : Initial cfg s) : LogPresent s := by
  obtain ⟨height, blockHash, timestamp, view, rfl⟩ := start
  constructor <;> simp [initNotx, setView]

private theorem step_commitViewRecovery (present : LogPresent s)
    (step : Step cfg i s (now, a) t) (keeps : KeepsLogPresent s (now, a)) :
    ∀ m ∈ t.msgLogCommitViewRecovery, t.view ≤ m.v := by
  intro m logged
  have view := step.tables.view
  rw [step.tables.commitViewRecovery, mem_assertzAll] at logged
  cases a with
  | sendViewChange v | recoverView v =>
    rcases logged with old | new
    · rw [view]
      exact keeps m old
    · cases new
  | receiveCommit v n data j sig =>
    rcases logged with old | new
    · rw [view]
      exact present.commitViewRecovery m old
    · obtain ⟨-, ⟨window, -⟩ | ⟨window, higher, -⟩⟩ := applyReceiveCommit_spec step.apply
      · simp [Action.newCommitViewRecoveries, window] at new
      · simp only [Action.newCommitViewRecoveries, window, if_false, List.mem_singleton] at new
        rw [new, view]
        exact higher.le
  | _ =>
    rcases logged with old | new
    · rw [view]
      exact present.commitViewRecovery m old
    · cases new

/-- A NEW_VIEW of an older view is not added when it is known for the present one. -/
private theorem receiveNewView_present (present : LogPresent s)
    (step : Step cfg i s (now, .receiveNewView v nu chi j sig) t)
    (keeps : KeepsLogPresent s (now, .receiveNewView v nu chi j sig)) :
    ∀ m ∈ t.msgLogNewView, s.view ≤ m.v := by
  intro m logged
  rcases keeps with rfl | known
  · rcases step.tables.newView m logged with old | new
    · exact present.newView m old
    · rw [List.mem_singleton.mp new]
  · have same : t = s := by
      have applied := step.apply
      simp only [Action.apply, applyReceiveNewView, if_pos known] at applied
      split at applied
      · exact (Option.some.inj applied).symm
      · cases applied
    exact present.newView m (same ▸ logged)

private theorem step_newView (present : LogPresent s)
    (step : Step cfg i s (now, a) t) (keeps : KeepsLogPresent s (now, a)) :
    ∀ m ∈ t.msgLogNewView, t.view ≤ m.v := by
  intro m logged
  have view := step.tables.view
  cases a with
  | sendViewChange v =>
    rw [view]
    obtain ⟨c, -, rfl⟩ := applySendViewChange_spec step.apply
    simpa [Action.nextView] using (List.mem_filter.mp logged).2
  | recoverView v =>
    rw [view]
    cases step.apply
    simpa [Action.nextView] using (List.mem_filter.mp logged).2
  | receiveNewView v nu chi j sig =>
    rw [view]
    exact receiveNewView_present present step keeps m logged
  | sendNewView nu chi =>
    rw [view]
    rcases step.tables.newView m logged with old | new
    · exact present.newView m old
    · rw [List.mem_singleton.mp new]
      exact le_refl _
  | _ =>
    rw [view]
    rcases step.tables.newView m logged with old | new
    · exact present.newView m old
    · cases new

theorem step (present : LogPresent s) (inv : Invariant cfg i t) (log : ViewChangeLog cfg i t)
    (step : Step cfg i s (now, a) t) (keeps : KeepsLogPresent s (now, a)) : LogPresent t where
  prePrepare := fun m logged => (inv.prePrepare m logged).1
  prepare := fun m logged => (inv.prepare m logged).1
  commit := fun m logged => (inv.commit m logged).1
  viewChange := log.current
  newView := step_newView present step keeps
  commitViewRecovery := step_commitViewRecovery present step keeps

end LogPresent

/-- The log is present along every run that leaves no recovery COMMIT behind and logs no
NEW_VIEW of an older view; and the cleaning is complete exactly where none is left behind. -/
theorem logPresent_of_keeps {labels : List (ℚ × Action)} (start : Initial cfg s)
    (run : Path (Guarded (Step cfg i) KeepsLogPresent) s labels t) :
    LogPresent t ∧ ∀ u v, ClearsBelow v u (msgLogClearWhereViewLessThan v u) ↔
      ∀ m ∈ u.msgLogCommitViewRecovery, v ≤ m.v := by
  have holds : (Invariant cfg i t ∧ ViewChangeLog cfg i t) ∧ LogPresent t := by
    apply run.invariant _ ⟨⟨Invariant.initial start, ViewChangeLog.initial start⟩,
      LogPresent.initial start⟩
    rintro u l w ⟨⟨inv, log⟩, present⟩ ⟨next, keeps⟩
    have inv' := inv.step next
    have log' := log.step next
    exact ⟨⟨inv', log'⟩, present.step inv' log' next keeps⟩
  exact ⟨holds.2, fun u v => clearsBelow_iff⟩

theorem logPresent_entersViewOne : ∃ t,
    exec fourReplicas 1 KeepsLogPresent entersViewOne genesis = some t ∧ LogPresent t := by
  have runs : (exec fourReplicas 1 KeepsLogPresent entersViewOne genesis).isSome := by
    decide +kernel
  obtain ⟨t, ran⟩ := Option.isSome_iff_exists.mp runs
  exact ⟨t, ran, (logPresent_of_keeps genesis_initial (exec_path ran)).1⟩

def passesViewOne : List (ℚ × Action) :=
  [(60, .receiveRequest "(H=1, T=60)" 60), (60, .receiveCommit 1 0 "p3" 3 "S3"),
    (1000, .sendViewChange 1), (1000, .sendViewChange 2), (1000, .receiveNewView 1 [] [] 1 "S1")]

/-- Both tables then hold an entry of view 1, and the cleaning for view 2 has left the first. -/
theorem logPresent_fails : ∃ s, Reachable (Initial fourReplicas) (Step fourReplicas 0) s ∧
    s.view = 2 ∧ ⟨1, 0, 3⟩ ∈ s.msgLogCommitViewRecovery ∧ ⟨1, [], [], "S1"⟩ ∈ s.msgLogNewView ∧
    ¬ LogPresent s ∧ ¬ ClearsBelow 2 s (msgLogClearWhereViewLessThan 2 s) := by
  have runs : ∃ s, exec fourReplicas 0 Always passesViewOne genesis = some s ∧ s.view = 2 ∧
      ⟨1, 0, 3⟩ ∈ s.msgLogCommitViewRecovery ∧ ⟨1, [], [], "S1"⟩ ∈ s.msgLogNewView := by
    decide +kernel
  obtain ⟨s, ran, view, recovery, newView⟩ := runs
  refine ⟨s, exec_reachable genesis_initial ran, view, recovery, newView, fun present => ?_,
    fun clears => ?_⟩
  · have current := present.newView _ newView
    rw [view] at current
    exact absurd current (by decide)
  · exact absurd (clearsBelow_iff.mp clears _ recovery) (by decide)

end Fbft
