import Fbft.Draining
import Fbft.Uniqueness

/-! Views and time. The views of a cluster are entered one by one, each by a correct
replica whose timeout has run out, so faulty replicas cannot drive the others through the
views faster than the clock does. -/
namespace Fbft

open Database LabelledPath

variable {c : Cluster} {w w' w₀ : World} {l : ClusterLabel} {i k v : ℕ} {now lag : ℚ}
  {a : Action} {s t : Replica} {labels : List ClusterLabel}

/-- The replica reads a clock that is at most `lag` ahead of its last reply. -/
def LagWithin (lag : ℚ) (w : World) (l : ClusterLabel) : Prop :=
  getSyntheticTime l.2.1 (w l.1).state - (w l.1).state.lastRep ≤ lag

instance : Decidable (LagWithin lag w l) := inferInstanceAs (Decidable (_ ≤ _))

namespace Cluster

/-- A correct replica has asked for the view. -/
def AskedFor (c : Cluster) (w : World) (v : ℕ) : Prop :=
  ∃ k, c.Correct k ∧ ∃ hi digest pi qi, .viewChange v hi digest pi qi ∈ (w k).sent

theorem AskedFor.mono (asked : c.AskedFor w v) (grows : Grows w w') : c.AskedFor w' v := by
  obtain ⟨k, correct, hi, digest, pi, qi, said⟩ := asked
  exact ⟨k, correct, hi, digest, pi, qi, grows.sent k _ said⟩

end Cluster

/-- A replica recovers only into a view that a correct one has reached before. -/
theorem ClusterInvariant.recovered (inv : ClusterInvariant c w) (correct : c.Correct k)
    (pre : preRecoverView c.cfg v (w k).state) : ∃ j, c.Correct j ∧ v ≤ (w j).state.view := by
  obtain ⟨j, inside, honest⟩ := Cluster.exists_correct (fun x h =>
    Finset.mem_range.mpr (Cluster.mem_committers.mp h).1) (inv.recovery_quorum correct pre)
  obtain ⟨data, said⟩ := (Cluster.mem_committers.mp inside).2.resolve_left honest.2
  have journal := inv.journal j honest
  obtain ⟨d, m, logged, rfl, -, -⟩ := journal.commit _ _ _ said
  exact ⟨j, honest, (journal.proposer m logged).1⟩

theorem Cluster.Step.askedFor (step : c.Step w (k, now, .sendViewChange v) w') :
    c.AskedFor w' v := by
  obtain ⟨checkpoint, reported, -⟩ := applySendViewChange_spec step.step.apply
  have said : (ownViewChange c.cfg v k checkpoint (w k).state).message ∈ (w' k).sent := by
    rw [step.at_self]
    exact Journal.new_sent step.step
      (List.mem_map.mpr ⟨checkpoint, Option.mem_toList.mpr reported, rfl⟩)
  exact ⟨k, step.correct, _, _, _, _, said⟩

/-- What the timeout before a view brings about and no step undoes holds for every view
that a correct replica has reached: RECOVER_VIEW only follows another one. -/
theorem reached_views {motive : World → ℕ → Prop} {cond : World → ClusterLabel → Prop}
    (start : c.Initial w₀) (run : Path (Guarded c.Step cond) w₀ labels w)
    (stays : ∀ w l w' v, Guarded c.Step cond w l w' → motive w v → motive w' v)
    (enters : ∀ w k now w', (w k).state.timeout = viewTimeout c.cfg (w k).state.view →
      Guarded c.Step cond w (k, now, .sendViewChange ((w k).state.view + 1)) w' →
      motive w' ((w k).state.view + 1)) :
    ∀ k, c.Correct k → ∀ v, 0 < v → v ≤ (w k).state.view → motive w v := by
  have holds : ClusterInvariant c w ∧
      (∀ k, c.Correct k → (w k).state.timeout = viewTimeout c.cfg (w k).state.view) ∧
      ∀ k, c.Correct k → ∀ v, 0 < v → v ≤ (w k).state.view → motive w v := by
    apply run.invariant
    · rintro w ⟨i, now, a⟩ w' ⟨inv, timeout, reached⟩ guarded
      have step := guarded.1
      refine ⟨inv.step step, fun k correct => ?_, fun k correct v positive below => ?_⟩
      · by_cases self : k = i
        · subst self
          exact step.step.timeout_eq (timeout k correct)
        · rw [step.at_other self]
          exact timeout k correct
      have before : v ≤ (w k).state.view → motive w' v := fun below =>
        stays w _ w' v guarded (reached k correct v positive below)
      by_cases self : k = i
      · subst self
        rcases step.step.view_cases with same | ⟨higher, recover | change⟩
        · exact before (same ▸ below)
        · obtain ⟨j, honest, ahead⟩ := inv.recovered correct (recover ▸ step.step.pre :)
          exact stays w _ w' v guarded (reached j honest v positive (below.trans ahead))
        · have acts : Fbft.Step c.cfg k (w k).state (now, a) (w' k).state := step.step
          rw [change] at acts
          have raised : (w' k).state.view = (w k).state.view + 1 := acts.sendViewChange_raises.1
          rcases Nat.lt_or_ge (w k).state.view v with last | earlier
          · obtain rfl : v = (w k).state.view + 1 := by omega
            apply enters w k now w' (timeout k correct)
            rwa [← raised, ← change]
          · exact before earlier
      · exact before (step.at_other self ▸ below)
    · refine ⟨ClusterInvariant.initial start, fun k correct => ?_, fun k correct v positive => ?_⟩
      · obtain ⟨height, hash, timestamp, fresh⟩ := start k correct
        simp [fresh, initNotx, setView]
      · obtain ⟨height, hash, timestamp, fresh⟩ := start k correct
        simp only [fresh, initNotx, setView, Option.getD_none]
        omega
  exact holds.2.2

/-- The views are entered in order: for every view that a correct replica is in or has
passed, a correct replica has asked in a VIEW_CHANGE. -/
theorem askedFor_of_view (reached : Reachable c.Initial c.Step w) (correct : c.Correct k)
    (positive : 0 < v) (below : v ≤ (w k).state.view) : c.AskedFor w v := by
  obtain ⟨w₀, labels, start, run⟩ := reached
  have guarded : Path (Guarded c.Step Cluster.Always) w₀ labels w :=
    run.mono fun _ _ _ step => ⟨step, trivial⟩
  refine reached_views start guarded ?_ ?_ k correct v positive below
  · intro w l w' v step asked
    exact asked.mono step.1.grows
  · intro w k now w' _ step
    exact step.1.askedFor

def waitsForBlock : List ClusterLabel :=
  [(1, 60, .receiveRequest "(H=1, T=60)" 60), (1, 91, .sendViewChange 1),
    (1, 121, .sendViewChange 2)]

theorem askedFor_waitsForBlock : ∃ w,
    fourWithOneFaulty.exec (LagWithin 121) waitsForBlock genesisWorld = some w ∧
    (w 1).state.view = 2 ∧ fourWithOneFaulty.AskedFor w 1 := by
  have runs : ∃ w, fourWithOneFaulty.exec (LagWithin 121) waitsForBlock genesisWorld = some w ∧
      (w 1).state.view = 2 := by
    decide +kernel
  obtain ⟨w, ran, view⟩ := runs
  exact ⟨w, ran, view, askedFor_of_view (k := 1)
    (Cluster.exec_reachable (genesisWorld_initial rfl) ran) (by decide) (by decide) (by omega)⟩

/-- While the correct replicas are never more than `lag` behind their clocks, they stay
below the first view whose timeout is that long, whatever the faulty ones send. -/
theorem viewTimeout_lt_of_lagWithin (start : c.Initial w₀)
    (run : Path (Guarded c.Step (LagWithin lag)) w₀ labels w) (correct : c.Correct k)
    (below : v < (w k).state.view) : viewTimeout c.cfg v < lag := by
  have passed := reached_views (motive := fun _ v => viewTimeout c.cfg (v - 1) < lag) start run
    (fun _ _ _ _ _ passed => passed) ?_ k correct (v + 1) (by omega) below
  · exact passed
  · rintro w k now w' timeout ⟨step, within⟩
    obtain ⟨-, r, -, newer, late⟩ := step.step.pre
    have behind : getSyntheticTime now (w k).state - (w k).state.lastRep ≤ lag := within
    have replied : ((w k).state.lastRep : ℚ) < r.reqTimestamp := by exact_mod_cast newer
    rw [Nat.add_sub_cancel, ← timeout]
    simp only at late
    linarith

theorem viewTimeout_lt_waitsForBlock : ∃ w,
    fourWithOneFaulty.exec (LagWithin 121) waitsForBlock genesisWorld = some w ∧
    (w 1).state.view = 2 ∧ viewTimeout fourWithOneFaulty.cfg 1 < 121 := by
  have runs : ∃ w, fourWithOneFaulty.exec (LagWithin 121) waitsForBlock genesisWorld = some w ∧
      (w 1).state.view = 2 := by
    decide +kernel
  obtain ⟨w, ran, view⟩ := runs
  exact ⟨w, ran, view, viewTimeout_lt_of_lagWithin (k := 1) (genesisWorld_initial rfl)
    (Cluster.exec_path ran) (by decide) (by omega)⟩

end Fbft
