import Fbft.Completion

/-! What a view change takes over is committed. A replica that has asked for its view is active
in it only after it has logged the Chi of a NEW_VIEW, so the three phases go on from there. -/
namespace Fbft

open Database LabelledPath

variable {cfg : Config} {c : Cluster} {w : World} {i k v h : ℕ} {now : ℚ} {x : Node}
  {s t : Replica} {a : Action} {block : String} {sha : String → String} {atomJsonDict : Json → String}

def Resumed (x : Node) : Prop :=
  ∃ y ∈ x.state.msgLogNewView, y.v = x.state.view ∧ ∀ e ∈ y.chi, ∃ d, x.Logged y.v e.n d

/-- Where a replica has asked for its view, it is active only after a NEW_VIEW. -/
def Resumes (i : ℕ) (x : Node) : Prop :=
  ∀ m ∈ x.state.msgLogViewChange, m.senderId = i → m.v = x.state.view →
    x.state.activeView = true → Resumed x

theorem Resumed.record (resumed : Resumed x) (step : Step cfg i x.state (now, a) t)
    (same : t.view = x.state.view) : Resumed (x.record t) := by
  obtain ⟨y, logged, view, entries⟩ := resumed
  have keeps := step.keepsView_of_same same
  have kept : y ∈ t.msgLogNewView := by
    rcases step.tables.keepsNewView y logged with kept | dropped
    · exact kept
    · rw [view, keeps] at dropped
      cases dropped
  refine ⟨y, kept, view.trans same.symm, fun e inside => ?_⟩
  obtain ⟨d, before⟩ := entries e inside
  exact ⟨d, before.record⟩

theorem Resumed.of_processNewView (inv : Invariant cfg i x.state)
    (step : Step cfg i x.state (now, .processNewView hi nu chi) t) : Resumed (x.record t) := by
  have same : t.view = x.state.view := step.tables.view
  obtain ⟨y, logged, view, -, -, computed, -, unified⟩ := correctNewView_spec step.pre.2.1
  have kept : y ∈ t.msgLogNewView := by
    rcases step.tables.keepsNewView y logged with kept | dropped
    · exact kept
    · cases dropped
  refine ⟨y, kept, view.trans same.symm, fun e inside => ?_⟩
  have number : e.n ∈ chi.map ChiEntry.n := by
    rw [unifyChi_numbers_left unified]
    exact List.mem_map_of_mem inside
  obtain ⟨e', entry, number'⟩ := List.mem_map.mp number
  have logged' : ⟨x.state.view, e'.n, e'.reqDigest, e'.data, primary cfg x.state.view,
      sigInNewView⟩ ∈ t.msgLogPrePrepare := by
    rw [step.processNewView_log inv]
    exact List.mem_map.mpr ⟨e', entry, rfl⟩
  rw [view, ← number']
  exact ⟨e'.reqDigest, Node.Logged.of_log logged'⟩

theorem Resumes.step (resumes : Resumes i x) (journal : Journal cfg i x)
    (step : Step cfg i x.state (now, a) t) : Resumes i (x.record t) := by
  intro m logged sender view active
  change m.v = t.view at view
  have next : a.nextActiveView x.state = true := step.tables.activeView.symm.trans active
  obtain ⟨old | new, -⟩ := step.mem_viewChange.mp logged
  · -- An old VIEW_CHANGE is of the present view only if the view has not changed.
    have le := step.view_le
    have before := journal.viewChanges.own m old sender
    have same : t.view = x.state.view := by omega
    cases a with
    | processNewView hi nu chi => exact .of_processNewView journal.state step
    | sendViewChange v => cases next
    | _ => exact (resumes m old sender (view.trans same) next).record step same
  · rcases step.new_viewChange new with ⟨acts, -⟩ | ⟨other, -⟩
    · subst acts
      cases next
    · exact absurd sender other

theorem resumes (reached : Reachable c.Initial c.Step w) (correct : c.Correct k) :
    Resumes k (w k) := by
  refine ClusterInvariant.nodes_keep (fun _ _ _ step => step) ?_ ?_ reached correct
  · intro k height hash timestamp m logged
    cases logged
  · exact fun w i now a w' step journal resumes => resumes.step journal step.step

namespace ChangeTo

theorem logged (change : ChangeTo c w v h block) (quiescent : ViewQuiescent c w)
    (kept : Reachable c.Initial (Guarded c.Step c.KeepsWindow) w) (correct : c.Correct k)
    (active : (w k).state.activeView = true)
    (said : .newView v nu chi ∈ (w (Fbft.primary c.cfg v)).sent) {e : ChiEntry} (inside : e ∈ chi)
    (next : e.n = h + 1) : ∃ m ∈ (w k).state.msgLogPrePrepare, m.v = v ∧ m.n = h + 1 ∧
      m.reqDigest = e.reqDigest ∧ m.senderId = Fbft.primary c.cfg v := by
  have reached := kept.unguard
  have inv := ClusterInvariant.reachable reached
  have journal := inv.journal k correct
  have proposer := inv.proposer _ change.correct
  have current := change.view k correct
  obtain ⟨o, asked, sender, view, -⟩ := change.heard quiescent kept correct correct
  obtain ⟨y, announced, view', entries⟩ :=
    resumes reached correct o asked sender (view.trans current.symm) active
  -- The primary has announced one Chi for the view.
  obtain ⟨chi', said', read, -⟩ := change.made reached correct announced (view'.trans current)
  have same := proposer.oneNewView _ _ _ _ _ said said'
  have number : e.n ∈ y.chi.map ChiEntry.n := by
    rw [numbers_of_readAs read, ← same]
    exact List.mem_map_of_mem inside
  obtain ⟨e', entry, number'⟩ := List.mem_map.mp number
  obtain ⟨d, logged⟩ := entries e' entry
  rw [view', current, number'] at logged
  -- And one request for each number.
  obtain ⟨data, proposes⟩ := inv.logged_proposes correct logged change.primary
  have digest : d = e.reqDigest := (proposer.oneProposal _ _ _ _ _ _ proposes
    (Or.inr ⟨change.positive, nu, chi, said, inside⟩)).1
  obtain ⟨m, history, atView, atNumber, named⟩ := logged
  have present : m ∈ (w k).state.msgLogPrePrepare := by
    apply journal.current m history
    · rw [atView, current]
    · rw [atNumber, next, change.height k correct]
      omega
  refine ⟨m, present, atView, atNumber.trans next, named.trans digest, ?_⟩
  rw [(journal.state.prePrepare m present).2.2, current]

end ChangeTo

/-- The request that a NEW_VIEW takes over for the next block is committed by every correct
replica, and each of them has joined ROAST for it unless it has executed the block. -/
theorem resumed_committed (hashes : HashesJson c.cfg sha atomJsonDict)
    (collisionFree : Function.Injective sha) (injective : Set.InjOn atomJsonDict {j | j.Written})
    (kept : Reachable c.Initial (Guarded c.Step c.KeepsWindow) w) (quiescent : Quiescent c w)
    (settled : ViewQuiescent c w) (change : ChangeTo c w v h block)
    (said : .newView v nu chi ∈ (w (primary c.cfg v)).sent) {e : ChiEntry} (inside : e ∈ chi)
    (next : e.n = h + 1) (named : e.reqDigest ≠ nullDigest) (correct : c.Correct k) :
    committed c.cfg e.reqDigest v (h + 1) (w k).state ∧
      ((w k).state.lastExec = h → (w k).state.roast.active ≠ none) := by
  have reached := kept.unguard
  obtain ⟨s, made⟩ := ((standsOn reached change.correct).announces _ _ _ said).2
    (change.view _ change.correct).symm
  have agreed : Agreed c w v h e.reqDigest := by
    refine ⟨change.primary, change.view, change.height, fun j honest => ?_, fun j honest => ?_⟩
    · exact (change.knows hashes collisionFree injective settled kept honest made
        inside).resolve_left named
    · exact change.logged settled kept honest
        (change.entered hashes collisionFree injective settled kept honest) said inside next
  exact agreed.finished quiescent reached correct

/-- The four commit in view 1 what replica 0 has prepared in view 0. -/
def commitsOfFour : List ClusterLabel :=
  [(0, 1000, .sendCommit "(H=1, T=60)" 1 1 "p0"), (1, 1000, .sendCommit "(H=1, T=60)" 1 1 "p1"),
    (3, 1000, .sendCommit "(H=1, T=60)" 1 1 "p3"),
    (0, 1000, .receiveCommit 1 1 "p1" 1 "S1"), (0, 1000, .receiveCommit 1 1 "p3" 3 "S3"),
    (1, 1000, .receiveCommit 1 1 "p0" 0 "S0"), (1, 1000, .receiveCommit 1 1 "p3" 3 "S3"),
    (3, 1000, .receiveCommit 1 1 "p0" 0 "S0"), (3, 1000, .receiveCommit 1 1 "p1" 1 "S1"),
    (0, 1000, .roastInit "(H=1, T=60)" 1 1), (1, 1000, .roastInit "(H=1, T=60)" 1 1),
    (3, 1000, .roastInit "(H=1, T=60)" 1 1)]

theorem resumed_committed_commitsOfFour : ∃ w,
    textCluster.exec textCluster.KeepsWindow (changeOfFour ++ commitsOfFour)
      (fun _ => ⟨initNotx textReplicas 0 "H0" 0 none, [], []⟩) = some w ∧
    Quiescent textCluster w ∧ ViewQuiescent textCluster w ∧ ChangeTo textCluster w 1 0 "H0" ∧
    committed textReplicas "(H=1, T=60)" 1 1 (w 3).state ∧
    ((w 3).state.lastExec = 0 → (w 3).state.roast.active ≠ none) := by
  have runs : ∃ w, textCluster.exec textCluster.KeepsWindow (changeOfFour ++ commitsOfFour)
      (fun _ => ⟨initNotx textReplicas 0 "H0" 0 none, [], []⟩) = some w ∧ ChangedToOne w ∧
      (∀ k ∈ [0, 1, 3],
        (∀ e ∈ prePreparedSolutions textReplicas (w k).state,
          ¬ preSendPrepare textReplicas e.reqDigest e.v e.n k (w k).state) ∧
        (∀ e ∈ preparedSolutions textReplicas (w k).state,
          ¬ preSendCommit textReplicas e.reqDigest e.v e.n k (w k).state) ∧
        (w k).state.roast.active ≠ none) ∧
      .newView 1 nuOfFour chiOfFour ∈ (w (primary textCluster.cfg 1)).sent := by
    decide +kernel
  obtain ⟨w, ran, changed, settled, said⟩ := runs
  have quiescent : Quiescent textCluster w := by
    refine ⟨fun j correct k correct' m said => ?_, fun k correct d v n due => ?_,
      fun k correct d v n due => ?_, fun k correct d v n due => ?_⟩
    · exact ⟨_, by simp [textCluster, fourWithOneFaulty], changed.1 j (textCluster_correct correct)
        k (textCluster_correct correct') m said⟩
    · exact (settled k (textCluster_correct correct)).1 _ due.2.2.1 due
    · exact (settled k (textCluster_correct correct)).2.1 _ due.2.1 due
    · exact (settled k (textCluster_correct correct)).2.2 due.2.2.1
  exact ⟨w, ran, quiescent, changed.viewQuiescent, changed.changeTo, resumed_committed (k := 3)
    (show HashesJson textCluster.cfg id _ from fun _ _ _ _ _ _ => rfl) Function.injective_id
    Json.write_injOn ⟨_, _, textCluster_initial, Cluster.exec_path ran⟩ quiescent
    changed.viewQuiescent changed.changeTo said (List.mem_singleton_self _) rfl (by decide)
    (by decide)⟩

end Fbft
