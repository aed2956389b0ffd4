import Fbft.PrePrepareLog

/-! The sequence number of an active primary. It is set by PRE_PREPARE and PROCESS_NEW_VIEW
only, and the checkpoint moves with every block. -/
namespace Fbft

open Database LabelledPath

variable {cfg : Config} {i : ℕ} {now : ℚ} {s t : Replica} {a : Action}

/-- Replica `i` has logged a pre-prepare of its own for the window of its view. -/
def OwnProposal (i : ℕ) (s : Replica) : Prop :=
  ∃ m ∈ s.msgLogPrePrepare, m.v = s.view ∧ m.n = lowWatermark s + 1 ∧ m.senderId = i

/-- The sequence number of an active primary is the height of the checkpoint, or the one
above it that it has proposed for. -/
structure SeqnoInWindow (cfg : Config) (i : ℕ) (s : Replica) : Prop where
  lower : s.activeView = true → primary cfg s.view = i → lowWatermark s ≤ s.seqno
  upper : s.activeView = true → primary cfg s.view = i → s.seqno ≤ lowWatermark s + 1
  idle : s.activeView = true → primary cfg s.view = i → ¬ OwnProposal i s →
    s.seqno = lowWatermark s

/-- An active primary gets no block that it has no number for, a replica that becomes one by
recovery has the number of the checkpoint, and one that becomes it by a NEW_VIEW finds no
certificate beyond the window. -/
def KeepsSeqno (cfg : Config) (i : ℕ) (s : Replica) (l : ℚ × Action) : Prop :=
  match l.2 with
  | .receiveBlock blockHeight _ _ =>
    s.activeView = true → primary cfg s.view = i → blockHeight ≤ s.seqno
  | .recoverView v => primary cfg v = i → s.seqno = lowWatermark s
  | .processNewView _ nu _ => primary cfg s.view = i →
      ∀ e ∈ piEntries (nuVset nu s), e.n ≤ lowWatermark s + 1
  | _ => True

instance : Decidable (KeepsSeqno cfg i s l) := by
  obtain ⟨now, a⟩ := l
  apply a.casesOn (motive := fun a => Decidable (KeepsSeqno cfg i s (now, a))) <;> intros <;>
    dsimp only [KeepsSeqno] <;> infer_instance

theorem SeqnoInWindow.inWv (window : SeqnoInWindow cfg i s) (single : ∃ c, s.checkpoint = [c])
    (active : s.activeView = true) (own : primary cfg s.view = i) (idle : ¬ OwnProposal i s) :
    inWv s.view (s.seqno + 1) s :=
  (inWv_iff single).mpr ⟨rfl, by rw [window.idle active own idle]⟩

/-- What is processed reaches no further than the certificates of Nu. -/
theorem preProcessNewView_bound_pi (pre : preProcessNewView cfg hi nu chi i s)
    (bound : ∀ e ∈ piEntries (nuVset nu s), e.n ≤ h) : ∀ e ∈ chi, e.n ≤ h := by
  obtain ⟨x, -, -, -, -, computed, solved, unified⟩ := correctNewView_spec pre.2.1
  intro e inside
  have number : e.n ∈ computed.map ChiEntry.n := by
    rw [← unifyChi_numbers unified]
    exact List.mem_map_of_mem inside
  obtain ⟨-, p, listed, below⟩ := ((correctChi_range solved).2.1 e.n).mp number
  exact below.trans (bound p listed)

theorem Step.processNewView_seqno (inv : Invariant cfg i s)
    (step : Step cfg i s (now, .processNewView hi nu chi) t)
    (bound : ∀ e ∈ chi, e.n ≤ lowWatermark s + 1) :
    (chi = [] ∧ t.seqno = lowWatermark s) ∨
    (∃ e ∈ chi, e.n = lowWatermark s + 1) ∧ t.seqno = lowWatermark s + 1 := by
  obtain ⟨distinct, above⟩ := preProcessNewView_numbers step.pre
  have low : hi = lowWatermark s := by
    have found := step.pre.2.2.1
    rw [getH_eq inv.checkpoint] at found
    exact (Option.some.inj found).symm
  have seqno : t.seqno = processedSeqno cfg hi chi s := step.tables.seqno
  have log : populatedPrePrepares cfg chi s = prePreparesOfChi cfg s.view chi :=
    populatedPrePrepares_eq (inv.inactive step.pre.1) distinct
  have current : (prePreparesOfChi cfg s.view chi).filter (fun m => m.v = s.view) =
      prePreparesOfChi cfg s.view chi := by
    apply List.filter_eq_self.mpr
    intro m inside
    obtain ⟨e, -, rfl⟩ := List.mem_map.mp inside
    simp
  rw [processedSeqno, log, current] at seqno
  cases chi with
  | nil =>
    left
    simpa [prePreparesOfChi, low] using seqno
  | cons e chi =>
    right
    have number : ∀ e' ∈ e :: chi, e'.n = lowWatermark s + 1 := by
      intro e' inside
      have lower := above e' inside
      have upper := bound e' inside
      omega
    refine ⟨⟨e, List.mem_cons_self, number e List.mem_cons_self⟩, ?_⟩
    have greatest : ((prePreparesOfChi cfg s.view (e :: chi)).map PrePrepare.n).max? =
        some (lowWatermark s + 1) := by
      rw [List.max?_eq_some_iff]
      constructor
      · rw [← number e List.mem_cons_self]
        exact List.mem_map_of_mem (List.mem_map_of_mem List.mem_cons_self)
      · intro n member
        obtain ⟨m, inside, rfl⟩ := List.mem_map.mp member
        obtain ⟨e', inside', rfl⟩ := List.mem_map.mp inside
        exact (number e' inside').le
    rw [seqno, greatest]
    rfl

namespace SeqnoInWindow

theorem of_eq (same : s.seqno = lowWatermark s) : SeqnoInWindow cfg i s where
  lower := fun _ _ => same.ge
  upper := fun _ _ => by omega
  idle := fun _ _ _ => same

theorem of_proposal (own : primary cfg s.view = i → OwnProposal i s)
    (same : primary cfg s.view = i → s.seqno = lowWatermark s + 1) : SeqnoInWindow cfg i s where
  lower := fun _ primary => by rw [same primary]; omega
  upper := fun _ primary => (same primary).le
  idle := fun _ primary none => absurd (own primary) none

theorem initial (start : Initial cfg s) : SeqnoInWindow cfg i s := by
  obtain ⟨height, blockHash, timestamp, view, rfl⟩ := start
  exact of_eq (by simp [lowWatermark, getH, initNotx, setView])

/-- Steps that change neither the view, the checkpoint nor the number, and drop no
pre-prepare. -/
theorem frame (window : SeqnoInWindow cfg i s) (view : t.view = s.view)
    (active : t.activeView = s.activeView) (height : lowWatermark t = lowWatermark s)
    (seqno : t.seqno = s.seqno) (log : ∀ m ∈ s.msgLogPrePrepare, m ∈ t.msgLogPrePrepare) :
    SeqnoInWindow cfg i t where
  lower := by
    rw [view, active, height, seqno]
    exact window.lower
  upper := by
    rw [view, active, height, seqno]
    exact window.upper
  idle := by
    rw [view, active, height, seqno]
    intro live own none
    refine window.idle live own fun ⟨m, logged, current, number, sender⟩ => none ?_
    exact ⟨m, log m logged, current.trans view.symm, by rw [number, height], sender⟩

theorem ownProposal_of_sendPrePrepare (single : ∃ c, s.checkpoint = [c])
    (step : Step cfg i s (now, .sendPrePrepare d data v n) t) :
    OwnProposal i t ∧ t.seqno = lowWatermark t + 1 := by
  obtain ⟨-, -, -, window, -⟩ := step.pre
  obtain ⟨rfl, rfl⟩ := (inWv_iff single).mp window
  have same : lowWatermark t = lowWatermark s := by
    simpa using step.lowWatermark_cases single
  have view : t.view = s.view := step.tables.view
  have seqno : t.seqno = lowWatermark s + 1 := step.tables.seqno
  refine ⟨?_, by rw [seqno, same]⟩
  cases step.apply
  rcases assertzOnceBy_cases PrePrepare.unifies
    ⟨s.view, lowWatermark s + 1, d, some data, i, sigOwnReplica⟩ s.msgLogPrePrepare with
    ⟨unchanged, m, logged, unifies⟩ | ⟨appended, -⟩
  · simp only [PrePrepare.unifies, Bool.and_eq_true, decide_eq_true_eq] at unifies
    obtain ⟨⟨current, number, -, sender, -⟩, -⟩ := unifies
    exact ⟨m, mem_assertzOnceBy_of_mem logged, current.symm, by rw [same, number], sender.symm⟩
  · have logged : ⟨s.view, lowWatermark s + 1, d, some data, i, sigOwnReplica⟩ ∈
        (applySendPrePrepare d data s.view (lowWatermark s + 1) i s).msgLogPrePrepare := by
      simp [applySendPrePrepare, msgLogAddPrePrepare, msgOutAdd, appended]
    exact ⟨_, logged, rfl, by rw [same], rfl⟩

theorem step (window : SeqnoInWindow cfg i s) (inv : Invariant cfg i s)
    (step : Step cfg i s (now, a) t) (keeps : KeepsSeqno cfg i s (now, a)) :
    SeqnoInWindow cfg i t := by
  have tables := step.tables
  have view := tables.view
  have active := tables.activeView
  have seqno := tables.seqno
  have height := step.lowWatermark_cases inv.checkpoint
  cases a with
  | sendViewChange v =>
    have left : t.activeView = false := active
    constructor <;> simp [left]
  | recoverView v =>
    have same : lowWatermark t = lowWatermark s := by simpa using height
    have next : t.view = v := view
    by_cases own : primary cfg v = i
    · exact of_eq (by rw [seqno, same]; exact keeps own)
    · constructor <;> simp [next, own]
  | processNewView hi nu chi =>
    have same : lowWatermark t = lowWatermark s := by simpa using height
    have next : t.view = s.view := view
    by_cases own : primary cfg s.view = i
    · have bound := preProcessNewView_bound_pi step.pre (keeps own)
      rcases step.processNewView_seqno inv bound with ⟨-, idle⟩ | ⟨⟨e, inside, number⟩, next'⟩
      · exact of_eq (idle.trans same.symm)
      · refine of_proposal (fun _ => ?_) fun _ => by rw [next', same]
        have logged : ⟨s.view, e.n, e.reqDigest, e.data, primary cfg s.view, sigInNewView⟩ ∈
            t.msgLogPrePrepare := by
          rw [step.processNewView_log inv]
          exact List.mem_map.mpr ⟨e, inside, rfl⟩
        exact ⟨_, logged, next.symm, by rw [same, ← number], own⟩
    · constructor <;> simp [next, own]
  | receiveBlock blockHeight time blockHash =>
    obtain ⟨grown, checkpoint⟩ := step.block_checkpoint inv.checkpoint
    have low : lowWatermark t = blockHeight := lowWatermark_eq checkpoint
    have next : t.view = s.view := view
    have live : t.activeView = s.activeView := active
    have kept : t.seqno = s.seqno := seqno
    by_cases both : s.activeView = true ∧ primary cfg s.view = i
    · have below := keeps both.1 both.2
      have upper := window.upper both.1 both.2
      exact of_eq (by omega)
    · constructor <;> intro active' own' <;>
        exact absurd ⟨live ▸ active', next ▸ own'⟩ both
  | sendPrePrepare d data v n =>
    obtain ⟨own, next⟩ := ownProposal_of_sendPrePrepare inv.checkpoint step
    exact of_proposal (fun _ => own) fun _ => next
  | _ =>
    refine window.frame view active (by simpa using height) seqno fun m logged => ?_
    exact step.mem_log logged rfl

end SeqnoInWindow

/-- Along every run that keeps the number in step, an active primary has it in its window, and
an idle one can propose the next. -/
theorem seqnoInWindow_of_keeps {labels : List (ℚ × Action)} (start : Initial cfg s)
    (run : Path (Guarded (Step cfg i) (KeepsSeqno cfg i)) s labels t) :
    SeqnoInWindow cfg i t ∧ (t.activeView = true → primary cfg t.view = i → ¬ OwnProposal i t →
      inWv t.view (t.seqno + 1) t) := by
  have holds : Invariant cfg i t ∧ SeqnoInWindow cfg i t := by
    apply run.invariant _ ⟨Invariant.initial start, SeqnoInWindow.initial start⟩
    rintro u l w ⟨inv, window⟩ ⟨next, keeps⟩
    exact ⟨inv.step next, window.step inv next keeps⟩
  exact ⟨holds.2, holds.2.inWv holds.1.checkpoint⟩

def proposesFirst : List (ℚ × Action) :=
  [(60, .receiveRequest "(H=1, T=60)" 60), (60, .sendPrePrepare "(H=1, T=60)" "B60" 0 1),
    (60, .receiveBlock 1 60 "H1")]

theorem seqnoInWindow_proposesFirst : ∃ t,
    exec fourReplicas 0 (KeepsSeqno fourReplicas 0) proposesFirst genesis = some t ∧
      SeqnoInWindow fourReplicas 0 t := by
  have runs : (exec fourReplicas 0 (KeepsSeqno fourReplicas 0) proposesFirst genesis).isSome := by
    decide +kernel
  obtain ⟨t, ran⟩ := Option.isSome_iff_exists.mp runs
  exact ⟨t, ran, (seqnoInWindow_of_keeps genesis_initial (exec_path ran)).1⟩

/-- A block reaches the primary right after it has started, before it has proposed anything. -/
theorem seqno_behind : ∃ s, Reachable (Initial fourReplicas) (Step fourReplicas 0) s ∧
    s.activeView = true ∧ primary fourReplicas s.view = 0 ∧ s.msgLogPrePrepare = [] ∧
    lowWatermark s = 1 ∧ s.seqno = 0 ∧ ¬ SeqnoInWindow fourReplicas 0 s := by
  have runs : ∃ s, exec fourReplicas 0 Always
      [(60, .receiveRequest "(H=1, T=60)" 60), (60, .receiveBlock 1 60 "H1")] genesis = some s ∧
      s.activeView = true ∧ primary fourReplicas s.view = 0 ∧ s.msgLogPrePrepare = [] ∧
      lowWatermark s = 1 ∧ s.seqno = 0 := by
    decide +kernel
  obtain ⟨s, ran, active, own, empty, low, seqno⟩ := runs
  refine ⟨s, exec_reachable genesis_initial ran, active, own, empty, low, seqno, fun window => ?_⟩
  have lower := window.lower active own
  omega

end Fbft
