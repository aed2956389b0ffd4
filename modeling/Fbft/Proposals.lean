import Fbft.Authentic

/-! A correct primary proposes one digest, with one block, for each view and number: its
PRE_PREPAREs count upwards, and they start above its only NEW_VIEW of that view. A primary
that recovers into its own view would be an exception; that no quorum lets it is shown
where the quorums are. -/
namespace Fbft

open Database LabelledPath

variable {cfg : Config} {i p : ℕ} {now : ℚ} {x : Node} {s t : Replica} {a : Action}

structure Proposer (cfg : Config) (p : ℕ) (x : Node) : Prop where
  started : x.state.activeView = false → 0 < x.state.view
  prePrepare : ∀ v n d block, .prePrepare v n d block ∈ x.sent → primary cfg v = p ∧
    v ≤ x.state.view ∧ (v = x.state.view → x.state.activeView = true ∧ n ≤ x.state.seqno)
  newView : ∀ v nu chi, .newView v nu chi ∈ x.sent → primary cfg v = p ∧ v ≤ x.state.view ∧
    (chi.map ChiEntry.n).Nodup ∧ (∀ e ∈ chi, e.reqDigest ≠ nullDigest → e.data ≠ none) ∧
    (v = x.state.view → ∃ m ∈ x.state.msgLogNewView, m.v = v)
  oneNewView : ∀ v nu chi nu' chi', .newView v nu chi ∈ x.sent → .newView v nu' chi' ∈ x.sent →
    chi = chi'
  processed : x.state.activeView = true → 0 < x.state.view → primary cfg x.state.view = p →
    ∃ nu chi, .newView x.state.view nu chi ∈ x.sent ∧ ∀ e ∈ chi, e.n ≤ x.state.seqno
  oneProposal : ∀ v n d d' data data', x.Proposes v n d data → x.Proposes v n d' data' →
    d = d' ∧ data = data'

/-- The NEW_VIEWs logged for the views of this primary are its own. -/
def OwnNewViews (cfg : Config) (p : ℕ) (x : Node) : Prop :=
  ∀ m ∈ x.state.msgLogNewView, primary cfg m.v = p →
    ∃ chi, .newView m.v m.nu chi ∈ x.sent ∧ List.Forall₂ ChiEntry.readAs chi m.chi

theorem Step.keepsView_of_same (step : Step cfg i s (now, a) t) (same : t.view = s.view) :
    a.keepsView s.view = true := by
  cases a with
  | recoverView w =>
    have raises := step.recoverView_raises
    omega
  | sendViewChange w =>
    have raises := step.sendViewChange_raises
    omega
  | _ => rfl

theorem numbers_of_readAs {sent received : List ChiEntry}
    (read : List.Forall₂ ChiEntry.readAs sent received) :
    received.map ChiEntry.n = sent.map ChiEntry.n := by
  induction read with
  | nil => rfl
  | cons head _ ih => simp [head.1, ih]

theorem unifyChi_numbers_left {as bs cs : List ChiEntry} (h : unifyChi as bs = some cs) :
    cs.map ChiEntry.n = as.map ChiEntry.n := by
  induction as generalizing bs cs with
  | nil =>
    cases bs with
    | nil => cases h; rfl
    | cons b bs => simp [unifyChi] at h
  | cons a as ih =>
    cases bs with
    | nil => simp [unifyChi] at h
    | cons b bs =>
      simp only [unifyChi] at h
      split at h
      · rename_i c cs' first rest
        cases h
        obtain ⟨number, -, number', -⟩ := ChiEntry.unify_spec first
        simp [number, number', ih rest]
      · cases h

namespace Proposer

theorem initial (cfg : Config) (p height : ℕ) (hash : String) (timestamp : ℕ) :
    Proposer cfg p ⟨initNotx cfg height hash timestamp none, [], []⟩ := by
  constructor <;> simp [initNotx, setView, Node.Proposes]

/-- While active in a view of its own a primary has numbered past all it proposed. -/
theorem number_le (proposer : Proposer cfg p x) (active : x.state.activeView = true)
    (own : primary cfg x.state.view = p) (proposes : x.Proposes x.state.view n d data) :
    n ≤ x.state.seqno := by
  rcases proposes with ⟨block, -, said⟩ | ⟨positive, nu, chi, said, inside⟩
  · exact ((proposer.prePrepare _ _ _ _ said).2.2 rfl).2
  · obtain ⟨nu', chi', said', bound⟩ := proposer.processed active positive own
    have same := proposer.oneNewView _ _ _ _ _ said said'
    exact bound _ (same ▸ inside)

/-- Before its NEW_VIEW a primary has proposed nothing for a view above 0. -/
theorem no_proposal (proposer : Proposer cfg p x) (own : primary cfg x.state.view = p)
    (positive : 0 < x.state.view) (fresh : ¬ ∃ m ∈ x.state.msgLogNewView, m.v = x.state.view) :
    ¬ x.Proposes x.state.view n d data := by
  have silent : ∀ nu chi, .newView x.state.view nu chi ∉ x.sent := fun nu chi said =>
    fresh ((proposer.newView _ _ _ said).2.2.2.2 rfl)
  rintro (⟨block, -, said⟩ | ⟨-, nu, chi, said, -⟩)
  · have active := ((proposer.prePrepare _ _ _ _ said).2.2 rfl).1
    obtain ⟨nu, chi, said', -⟩ := proposer.processed active positive own
    exact silent nu chi said'
  · exact silent nu chi said

theorem new_proposal (journal : Journal cfg p x) (step : Step cfg p x.state (now, a) t)
    (proposes : (x.record t).Proposes v n d data) :
    x.Proposes v n d data ∨ (∃ block, a = .sendPrePrepare d block v n ∧ data = some block) ∨
      ∃ nu chi, a = .sendNewView nu chi ∧ v = x.state.view ∧ 0 < v ∧ ⟨n, d, data⟩ ∈ chi := by
  rcases proposes with ⟨block, rfl, said⟩ | ⟨positive, nu, chi, said, inside⟩
  · rcases journal.mem_sent step said with old | new
    · exact Or.inl (Or.inl ⟨block, rfl, old⟩)
    · exact Or.inr (Or.inl ⟨block, Action.putsOut_of_mem new, rfl⟩)
  · rcases journal.mem_sent step said with old | new
    · exact Or.inl (Or.inr ⟨positive, nu, chi, old, inside⟩)
    · obtain ⟨rfl, view⟩ := Action.putsOut_of_mem new
      exact Or.inr (Or.inr ⟨nu, chi, rfl, view, positive, inside⟩)

private theorem step_started (proposer : Proposer cfg p x)
    (step : Step cfg p x.state (now, a) t) : t.activeView = false → 0 < t.view := by
  intro inactive
  have le := step.view_le
  rw [step.tables.activeView] at inactive
  cases a with
  | sendViewChange w =>
    have raises := step.sendViewChange_raises
    omega
  | processNewView hi nu chi => cases inactive
  | _ => exact (proposer.started inactive).trans_le le

private theorem step_prePrepare (proposer : Proposer cfg p x) (journal : Journal cfg p x)
    (step : Step cfg p x.state (now, a) t) :
    ∀ v n d block, .prePrepare v n d block ∈ (x.record t).sent → primary cfg v = p ∧
      v ≤ t.view ∧ (v = t.view → t.activeView = true ∧ n ≤ t.seqno) := by
  intro v n d block said
  have le := step.view_le
  have tables := step.tables
  rcases journal.mem_sent step said with old | new
  · obtain ⟨own, below, live⟩ := proposer.prePrepare v n d block old
    refine ⟨own, by omega, fun current => ?_⟩
    obtain ⟨active, bound⟩ := live (by omega)
    rw [tables.activeView, tables.seqno]
    cases a with
    | sendPrePrepare d' block' v' n' =>
      have next : x.state.seqno + 1 = n' := step.pre.2.2.1
      exact ⟨active, by simp only [Action.nextSeqno]; omega⟩
    | sendViewChange w =>
      have raises := step.sendViewChange_raises
      omega
    | processNewView hi nu chi =>
      rw [show x.state.activeView = false from step.pre.1] at active
      cases active
    | _ => exact ⟨active, bound⟩
  · obtain rfl := Action.putsOut_of_mem new
    obtain ⟨active, own, next, window, -⟩ := step.pre
    refine ⟨by rw [window.2, own], by rw [window.2]; exact le, fun _ => ?_⟩
    rw [tables.activeView, tables.seqno]
    exact ⟨active, le_refl _⟩

private theorem step_newView (proposer : Proposer cfg p x) (journal : Journal cfg p x)
    (step : Step cfg p x.state (now, a) t) :
    ∀ v nu chi, .newView v nu chi ∈ (x.record t).sent → primary cfg v = p ∧ v ≤ t.view ∧
      (chi.map ChiEntry.n).Nodup ∧ (∀ e ∈ chi, e.reqDigest ≠ nullDigest → e.data ≠ none) ∧
      (v = t.view → ∃ m ∈ t.msgLogNewView, m.v = v) := by
  intro v nu chi said
  have le := step.view_le
  rcases journal.mem_sent step said with old | new
  · obtain ⟨own, below, distinct, bound, live⟩ := proposer.newView v nu chi old
    refine ⟨own, by omega, distinct, bound, fun current => ?_⟩
    obtain ⟨m, logged, view⟩ := live (by omega)
    have keeps := step.keepsView_of_same (by omega)
    rcases step.tables.keepsNewView m logged with kept | dropped
    · exact ⟨m, kept, view⟩
    · rw [view, show v = x.state.view by omega, keeps] at dropped
      cases dropped
  · obtain ⟨rfl, rfl⟩ := Action.putsOut_of_mem new
    obtain ⟨own, -, solved, -⟩ := step.pre
    refine ⟨own, le, (correctChi_range solved).1, correctChi_bound journal.log solved, fun _ => ?_⟩
    cases step.apply
    rcases assertzOnceBy_cases NewView.unifies ⟨x.state.view, nu, chi, sigOwnReplica⟩
      x.state.msgLogNewView with ⟨-, m, logged, unifies⟩ | ⟨appended, -⟩
    · refine ⟨m, mem_assertzOnceBy_of_mem logged, ?_⟩
      simp only [NewView.unifies, Bool.and_eq_true, decide_eq_true_eq] at unifies
      exact unifies.1.1.symm
    · exact ⟨⟨x.state.view, nu, chi, sigOwnReplica⟩,
        by simp [applySendNewView, msgOutAdd, msgLogAddNewView, appended], rfl⟩

private theorem step_oneNewView (proposer : Proposer cfg p x) (journal : Journal cfg p x)
    (step : Step cfg p x.state (now, a) t) :
    ∀ v nu chi nu' chi', .newView v nu chi ∈ (x.record t).sent →
      .newView v nu' chi' ∈ (x.record t).sent → chi = chi' := by
  have clash : ∀ v nu chi nu' chi', .newView v nu chi ∈ x.sent →
      a = .sendNewView nu' chi' → v ≠ x.state.view := by
    rintro v nu chi nu' chi' old rfl rfl
    exact step.pre.2.2.2 ((proposer.newView _ _ _ old).2.2.2.2 rfl)
  intro v nu chi nu' chi' said said'
  rcases journal.mem_sent step said with old | new
  · rcases journal.mem_sent step said' with old' | new'
    · exact proposer.oneNewView v nu chi nu' chi' old old'
    · obtain ⟨acts, view⟩ := Action.putsOut_of_mem new'
      exact absurd view (clash _ _ _ _ _ old acts)
  · obtain ⟨acts, view⟩ := Action.putsOut_of_mem new
    rcases journal.mem_sent step said' with old' | new'
    · exact absurd view (clash _ _ _ _ _ old' acts)
    · obtain ⟨acts', -⟩ := Action.putsOut_of_mem new'
      rw [acts] at acts'
      cases acts'
      rfl

/-- After PROCESS_NEW_VIEW the next number is above the Chi that was sent. -/
private theorem processed_of_processNewView (journal : Journal cfg p x)
    (ownNewViews : OwnNewViews cfg p x)
    (step : Step cfg p x.state (now, .processNewView hi nu chi) t)
    (own : primary cfg x.state.view = p) :
    ∃ nu chi, .newView x.state.view nu chi ∈ x.sent ∧ ∀ e ∈ chi, e.n ≤ t.seqno := by
  obtain ⟨m, logged, view, -, -, computed, -, unified⟩ := correctNewView_spec step.pre.2.1
  obtain ⟨sentChi, said, read⟩ := ownNewViews m logged (by rwa [view])
  have numbers : chi.map ChiEntry.n = sentChi.map ChiEntry.n :=
    (unifyChi_numbers_left unified).trans (numbers_of_readAs read)
  refine ⟨m.nu, sentChi, view ▸ said, fun e inside => ?_⟩
  have listed : e.n ∈ chi.map ChiEntry.n := by
    rw [numbers]
    exact List.mem_map_of_mem inside
  obtain ⟨e', inside', number⟩ := List.mem_map.mp listed
  have inv := journal.state.step step
  have same : t.view = x.state.view := step.tables.view
  rw [← number]
  apply inv.proposed (by rwa [same])
    ⟨x.state.view, e'.n, e'.reqDigest, e'.data, primary cfg x.state.view, sigInNewView⟩
  rw [step.processNewView_log journal.state]
  exact List.mem_map.mpr ⟨e', inside', rfl⟩

private theorem step_processed (proposer : Proposer cfg p x) (journal : Journal cfg p x)
    (ownNewViews : OwnNewViews cfg p x) (notRecovered : ∀ v, a = .recoverView v → primary cfg v ≠ p)
    (step : Step cfg p x.state (now, a) t) :
    t.activeView = true → 0 < t.view → primary cfg t.view = p →
      ∃ nu chi, .newView t.view nu chi ∈ (x.record t).sent ∧ ∀ e ∈ chi, e.n ≤ t.seqno := by
  intro active positive own
  have tables := step.tables
  have view := tables.view
  have seqno := tables.seqno
  rw [tables.activeView] at active
  have kept : ∀ s' : ℕ, x.state.seqno ≤ s' → x.state.activeView = true → t.view = x.state.view →
      ∃ nu chi, .newView t.view nu chi ∈ (x.record t).sent ∧ ∀ e ∈ chi, e.n ≤ s' := by
    intro s' grown live same
    rw [same] at positive own ⊢
    obtain ⟨nu, chi, said, bound⟩ := proposer.processed live positive own
    exact ⟨nu, chi, Node.mem_record_sent.mpr (Or.inl said), fun e inside =>
      (bound e inside).trans grown⟩
  cases a with
  | recoverView v => exact absurd own (by rw [view]; exact notRecovered v rfl)
  | sendViewChange v => cases active
  | processNewView hi nu chi =>
    have same : t.view = x.state.view := view
    obtain ⟨nu', chi', said, bound⟩ :=
      processed_of_processNewView journal ownNewViews step (same ▸ own)
    exact ⟨nu', chi', same ▸ Node.mem_record_sent.mpr (Or.inl said), bound⟩
  | sendPrePrepare d block v n =>
    have next : x.state.seqno + 1 = n := step.pre.2.2.1
    rw [seqno]
    exact kept n (by omega) active view
  | _ =>
    rw [seqno]
    exact kept _ (le_refl _) active view

private theorem step_oneProposal (proposer : Proposer cfg p x) (journal : Journal cfg p x)
    (step : Step cfg p x.state (now, a) t) :
    ∀ v n d d' data data', (x.record t).Proposes v n d data →
      (x.record t).Proposes v n d' data' → d = d' ∧ data = data' := by
  have pre := step.pre
  have numbered : ∀ v n d d' data block, x.Proposes v n d data →
      a ≠ .sendPrePrepare d' block v n := by
    rintro v n d d' data block old rfl
    obtain ⟨active, own, next, window, -⟩ := pre
    rw [window.2] at old
    have bound := proposer.number_le active own old
    omega
  have fresh : ∀ v n d data nu chi, x.Proposes v n d data → a = .sendNewView nu chi →
      v = x.state.view → 0 < v → False := by
    rintro v n d data nu chi old rfl rfl positive
    exact proposer.no_proposal pre.1 positive pre.2.2.2 old
  intro v n d d' data data' proposes proposes'
  rcases new_proposal journal step proposes with old | ⟨block, acts, rfl⟩ |
    ⟨nu, chi, acts, view, positive, inside⟩
  · rcases new_proposal journal step proposes' with old' | ⟨block', acts', -⟩ |
      ⟨nu', chi', acts', view', positive', -⟩
    · exact proposer.oneProposal v n d d' data data' old old'
    · exact absurd acts' (numbered _ _ _ _ _ _ old)
    · exact (fresh _ _ _ _ _ _ old acts' view' positive').elim
  · rcases new_proposal journal step proposes' with old' | ⟨block', acts', rfl⟩ |
      ⟨nu', chi', acts', -⟩
    · exact absurd acts (numbered _ _ _ _ _ _ old')
    · rw [acts] at acts'
      cases acts'
      exact ⟨rfl, rfl⟩
    · rw [acts] at acts'
      cases acts'
  · rcases new_proposal journal step proposes' with old' | ⟨block', acts', -⟩ |
      ⟨nu', chi', acts', -, -, inside'⟩
    · exact (fresh _ _ _ _ _ _ old' acts view positive).elim
    · rw [acts] at acts'
      cases acts'
    · rw [acts] at acts'
      cases acts'
      subst acts
      have distinct := (correctChi_range pre.2.2.1).1
      have same := List.inj_on_of_nodup_map distinct inside inside' rfl
      cases same
      exact ⟨rfl, rfl⟩

theorem step (proposer : Proposer cfg p x) (journal : Journal cfg p x)
    (ownNewViews : OwnNewViews cfg p x) (notRecovered : ∀ v, a = .recoverView v → primary cfg v ≠ p)
    (step : Step cfg p x.state (now, a) t) : Proposer cfg p (x.record t) where
  started := step_started proposer step
  prePrepare := step_prePrepare proposer journal step
  newView := step_newView proposer journal step
  oneNewView := step_oneNewView proposer journal step
  processed := step_processed proposer journal ownNewViews notRecovered step
  oneProposal := step_oneProposal proposer journal step

end Proposer

end Fbft
