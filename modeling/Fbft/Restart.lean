import Fbft.RoastStart

/-! How ROAST starts over what an earlier run has left in the tables. A COMMIT whose sender
is not named there opens sessions only, and then the initial loop does not fail. -/
namespace Fbft

open Database LabelledPath

variable {cfg : Config} {i j k : ℕ} {now : ℚ} {s t : Replica} {a : Action} {r r' : Roast}
  {active : RoastActive} {labels : List (ℚ × Action)}

def Starts (cfg : Config) (i : ℕ) (active : RoastActive) (s : Replica) : Prop :=
  ∃ r, applyRoastInit cfg active (commitsFor active.v active.n s) i s.roast = some r

structure Forgotten (cfg : Config) (j : ℕ) (r : Roast) : Prop where
  sid : roastSignersSid j r = none
  quiet : j ∉ r.responsiveSigner
  short : ∀ e ∈ r.signatureSession, e.signatureShares.length ≠ sigQuorum cfg

instance : Decidable (Forgotten cfg j r) :=
  decidable_of_iff (roastSignersSid j r = none ∧ j ∉ r.responsiveSigner ∧
    ∀ e ∈ r.signatureSession, e.signatureShares.length ≠ sigQuorum cfg)
    ⟨fun ⟨a, b, c⟩ => ⟨a, b, c⟩, fun ⟨a, b, c⟩ => ⟨a, b, c⟩⟩

namespace Forgotten

theorem not_final (forgotten : Forgotten cfg j r) : ¬ roastFinalSignatureSession cfg r := by
  rintro ⟨-, e, inside, full⟩
  exact forgotten.short e inside full

theorem hear (forgotten : Forgotten cfg j r) (next : String)
    (running : r.active = some active) (coordinator : primary cfg active.v = i)
    (counter : r.sessionCounter ≠ none) :
    ∃ r', applyReceiveSigShare cfg j none next i r = some r' ∧ r'.active = some active ∧
      r'.sessionCounter ≠ none ∧ ∀ k, k ≠ j → Forgotten cfg k r → Forgotten cfg k r' := by
  obtain ⟨r', opened⟩ : ∃ r', initiateSession cfg
      (roastMarkResponsive j (setLatestPreSignatureShare j next r)) = some r' :=
    exists_initiateSession cfg counter
  have heard : applyReceiveSigShare cfg j none next i r = some r' := by
    rw [applyReceiveSigShare_fresh running forgotten.not_final coordinator forgotten.sid
      forgotten.quiet]
    exact opened
  refine ⟨r', heard, (applyReceiveSigShare_active heard).2.trans running, ?_, ?_⟩
  · rcases initiateSession_spec opened with ⟨-, rfl⟩ | ⟨-, c, -, -, -, -, -, counter', -⟩
    · exact counter
    · simp [counter']
  · intro k other forgotten'
    obtain ⟨sid, quiet⟩ := SessionTables.receive_quiet heard other forgotten'.sid forgotten'.quiet
    refine ⟨sid, quiet, fun e inside => ?_⟩
    rcases initiateSession_spec opened with ⟨-, rfl⟩ | ⟨-, c, -, -, -, -, -, -, -, sessions, -⟩
    · exact forgotten'.short e inside
    · rcases (sessions e).mp inside with ⟨old, -⟩ | rfl
      · exact forgotten'.short e old
      · exact (sigQuorum_pos cfg).ne

theorem receiveCommitShares {commits : List Commit} (running : r.active = some active)
    (coordinator : primary cfg active.v = i) (counter : r.sessionCounter ≠ none)
    (forgotten : ∀ m ∈ commits, Forgotten cfg m.senderId r)
    (distinct : (commits.map Commit.senderId).Nodup) :
    ∃ r', receiveCommitShares cfg i commits r = some r' := by
  induction commits generalizing r with
  | nil => exact ⟨r, rfl⟩
  | cons m commits ih =>
    obtain ⟨new, distinct⟩ := List.nodup_cons.mp distinct
    have forgotten₀ := forgotten m List.mem_cons_self
    obtain ⟨r₁, first, running₁, counter₁, stay⟩ :=
      forgotten₀.hear m.data running coordinator counter
    have forgotten₁ : ∀ m' ∈ commits, Forgotten cfg m'.senderId r₁ := by
      intro m' later
      have other : m'.senderId ≠ m.senderId := fun same => new (same ▸ List.mem_map_of_mem later)
      exact stay m'.senderId other (forgotten m' (List.mem_cons_of_mem _ later))
    obtain ⟨r₂, rest⟩ := ih running₁ counter₁ forgotten₁ distinct
    exact ⟨r₂, by simp [Fbft.receiveCommitShares, first, rest]⟩

end Forgotten

theorem starts_of_forgotten (forgotten : primary cfg active.v = i →
      ∀ m ∈ commitsFor active.v active.n s, Forgotten cfg m.senderId s.roast)
    (distinct : primary cfg active.v = i →
      ((commitsFor active.v active.n s).map Commit.senderId).Nodup) : Starts cfg i active s := by
  unfold Starts applyRoastInit
  by_cases coordinator : primary cfg active.v = i
  · rw [if_pos coordinator]
    have running : (setRoastSessionCounter 0 (setRoastActive (some active) s.roast)).active =
        some active := rfl
    refine Forgotten.receiveCommitShares running coordinator (by simp [setRoastSessionCounter]) ?_
      (distinct coordinator)
    intro m inside
    obtain ⟨sid, quiet, short⟩ := forgotten coordinator m inside
    exact ⟨sid, quiet, short⟩
  · rw [if_neg coordinator]
    exact ⟨_, rfl⟩

/-- A COMMIT that the coordinator collects before a run of ROAST comes from a signer whom no
earlier run has left in the tables, and is the only one of its sender. -/
def CollectsAnew (cfg : Config) (i : ℕ) (s : Replica) (l : ℚ × Action) : Prop :=
  match l.2 with
  | .sendCommit _ v _ _ => primary cfg v = i → s.roast.active = none → Forgotten cfg i s.roast
  | .receiveCommit v n data j sig => inWv v n s → primary cfg v = i → s.roast.active = none →
      Forgotten cfg j s.roast ∧
        ∀ m ∈ commitsFor v n s, m.senderId = j → m.data = data ∧ m.senderSig = sig
  | _ => True

instance : Decidable (CollectsAnew cfg i s l) := by
  obtain ⟨now, a⟩ := l
  apply a.casesOn (motive := fun a => Decidable (CollectsAnew cfg i s (now, a))) <;> intros <;>
    dsimp only [CollectsAnew] <;> infer_instance

/-- While ROAST is idle the senders of the COMMITs in the log are not in its tables. -/
structure Collected (cfg : Config) (i : ℕ) (s : Replica) : Prop where
  commitNodup : s.msgLogCommit.Nodup
  oneCommit : OneCommitEach cfg i s
  forgotten : s.roast.active = none → primary cfg s.view = i →
    ∀ m ∈ s.msgLogCommit, Forgotten cfg m.senderId s.roast

namespace Collected

theorem initial (start : Initial cfg s) : Collected cfg i s := by
  obtain ⟨height, blockHash, timestamp, view, rfl⟩ := start
  constructor <;> simp [initNotx, setView, OneCommitEach]

private theorem new_forgotten (inv : Invariant cfg i s) (step : Step cfg i s (now, a) t)
    (anew : CollectsAnew cfg i s (now, a)) (idle : s.roast.active = none)
    (coordinator : primary cfg s.view = i) (new : m ∈ a.newCommits i s) :
    Forgotten cfg m.senderId s.roast := by
  obtain ⟨view, -⟩ := step.new_commit inv.checkpoint new
  rw [← view] at coordinator
  cases a with
  | sendCommit d v n data =>
    rw [List.mem_singleton.mp new] at coordinator ⊢
    exact anew coordinator idle
  | receiveCommit v n data j sig =>
    simp only [Action.newCommits] at new
    split at new
    · rename_i window
      rw [List.mem_singleton.mp new] at coordinator ⊢
      exact (anew window coordinator idle).1
    · cases new
  | _ => cases new

theorem step (collected : Collected cfg i s) (inv : Invariant cfg i s)
    (step : Step cfg i s (now, a) t) (anew : CollectsAnew cfg i s (now, a)) :
    Collected cfg i t where
  commitNodup := step.commit_nodup collected.commitNodup
  oneCommit := by
    apply collected.oneCommit.step inv step
    rintro v n data j sig rfl window coordinator idle
    exact (anew window coordinator idle).2
  forgotten := by
    intro stopped coordinator m logged
    obtain ⟨idle, out, same⟩ := step.idle_of_logged inv stopped logged
    rw [← step.view_of_logged inv logged] at coordinator
    have before : Forgotten cfg m.senderId s.roast := by
      obtain ⟨old | new, -⟩ := step.mem_commit.mp logged
      · exact collected.forgotten idle coordinator m old
      · exact new_forgotten inv step anew idle coordinator new
    rw [same]
    exact ⟨before.sid, before.quiet, before.short⟩

theorem run (start : Initial cfg s)
    (run : Path (Guarded (Step cfg i) (CollectsAnew cfg i)) s labels t) :
    Invariant cfg i t ∧ Collected cfg i t := by
  apply run.invariant _ ⟨Invariant.initial start, initial start⟩
  rintro u l w ⟨inv, collected⟩ ⟨next, anew⟩
  exact ⟨inv.step next, collected.step inv next anew⟩

theorem starts (collected : Collected cfg i s) (inv : Invariant cfg i s)
    (enabled : preRoastInit cfg d v n s) : Starts cfg i ⟨v, n, d⟩ s := by
  obtain ⟨-, -, stopped, -⟩ := enabled
  have current : ∀ m ∈ commitsFor v n s, m ∈ s.msgLogCommit ∧ v = s.view := by
    intro m inside
    obtain ⟨logged, view, -⟩ := mem_commitsFor.mp inside
    exact ⟨logged, view.symm.trans (inv.commit m logged).1⟩
  apply starts_of_forgotten
  · intro coordinator m inside
    obtain ⟨logged, view⟩ := current m inside
    exact collected.forgotten stopped (view ▸ coordinator) m logged
  · intro coordinator
    apply commitSenders_nodup collected.commitNodup
    intro m inside m' inside' sender
    obtain ⟨logged, view⟩ := current m inside
    exact collected.oneCommit stopped (view ▸ coordinator) m logged m' (current m' inside').1 sender

end Collected

end Fbft
