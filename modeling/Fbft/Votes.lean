import Fbft.Journal
import Fbft.Counting

/-! What a replica puts into its output tables in the course of a run. Its guards look at the
present log only; that it never votes twice follows from the view, the checkpoint and the
sequence number moving one way. -/
namespace Fbft

open Database LabelledPath

variable {cfg : Config} {i : ℕ} {now : ℚ} {s t u : Replica} {a : Action}
  {labels : List (ℚ × Action)} {out : List Message}

def outputs (cfg : Config) (i : ℕ) : List (ℚ × Action) → Replica → List Message
  | [], _ => []
  | (_, a) :: labels, s =>
    a.newMessages cfg i s ++ ((a.apply cfg i s).map (outputs cfg i labels)).getD []

def Message.isCommit (v n : ℕ) : Message → Bool
  | .commit v' n' _ => v' = v ∧ n' = n
  | _ => false

def Message.isPrePrepare (v n : ℕ) : Message → Bool
  | .prePrepare v' n' _ _ => v' = v ∧ n' = n
  | _ => false

/-- One vote of each kind for each view and sequence number, and the COMMIT only for what is
prepared. -/
structure VotesOnce (cfg : Config) (i : ℕ) (s : Replica) (labels : List (ℚ × Action)) : Prop where
  onePrepare : ∀ v n d d', .prepare v n d ∈ outputs cfg i labels s →
    .prepare v n d' ∈ outputs cfg i labels s → d = d'
  oneCommit : ∀ v n, ((outputs cfg i labels s).filter (Message.isCommit v n)).length ≤ 1
  onePrePrepare : ∀ v n, ((outputs cfg i labels s).filter (Message.isPrePrepare v n)).length ≤ 1
  prepared : ∀ before l after u, labels = before ++ l :: after → Path (Step cfg i) s before u →
    ∀ v n data, .commit v n data ∈ l.2.newMessages cfg i u →
      ∃ d, prepared cfg d v n u ∧ ∀ d', .prepare v n d' ∈ outputs cfg i labels s → d' = d

theorem outputs_append (run : Path (Step cfg i) s labels t) (more : List (ℚ × Action)) :
    outputs cfg i (labels ++ more) s = outputs cfg i labels s ++ outputs cfg i more t := by
  induction run with
  | nil => rfl
  | @cons s l t labels u head _ ih =>
    obtain ⟨now, a⟩ := l
    have applied : a.apply cfg i s = some t := head.apply
    simp [outputs, applied, ih]

theorem outputs_snoc (run : Path (Step cfg i) s labels t) (step : Step cfg i t (now, a) u) :
    outputs cfg i (labels ++ [(now, a)]) s =
      outputs cfg i labels s ++ a.newMessages cfg i t := by
  have applied : a.apply cfg i t = some u := step.apply
  rw [outputs_append run]
  simp [outputs, applied]

/-- What holds of the votes put out so far. -/
structure VoteLog (cfg : Config) (i : ℕ) (s : Replica) (out : List Message) : Prop where
  prePrepare : ∀ v n d data, .prePrepare v n d data ∈ out →
    v ≤ s.view ∧ (v = s.view → s.activeView = true ∧ n ≤ s.seqno)
  commit : ∀ v n data, .commit v n data ∈ out →
    v ≤ s.view ∧ (v = s.view → lowWatermark s < n → ∃ m ∈ commitsFor v n s, m.senderId = i)
  onePrePrepare : ∀ v n, (out.filter (Message.isPrePrepare v n)).length ≤ 1
  oneCommit : ∀ v n, (out.filter (Message.isCommit v n)).length ≤ 1

theorem filter_append_le_one {l l' : List α} {p : α → Bool} (before : (l.filter p).length ≤ 1)
    (single : l'.length ≤ 1) (fresh : ∀ x ∈ l', p x = true → l.filter p = []) :
    ((l ++ l').filter p).length ≤ 1 := by
  rw [List.filter_append, List.length_append]
  cases found : l'.filter p with
  | nil => simpa using before
  | cons x rest =>
    have inside : x ∈ l'.filter p := found ▸ List.mem_cons_self
    obtain ⟨member, holds⟩ := List.mem_filter.mp inside
    rw [fresh x member holds, ← found]
    have bound := List.length_filter_le p l'
    simp only [List.length_nil]
    omega

theorem isCommit_iff {m : Message} : m.isCommit v n = true ↔ ∃ data, m = .commit v n data := by
  cases m <;> simp [Message.isCommit]

theorem isPrePrepare_iff {m : Message} :
    m.isPrePrepare v n = true ↔ ∃ d data, m = .prePrepare v n d data := by
  cases m <;> simp [Message.isPrePrepare]

/-- A step that puts out a COMMIT or a PRE_PREPARE puts out nothing else. -/
theorem Action.newMessages_single {m : Message} (new : m ∈ a.newMessages cfg i s)
    (vote : m.isCommit v n = true ∨ m.isPrePrepare v n = true) :
    a.newMessages cfg i s = [m] := by
  rcases vote with commit | prePrepare
  · obtain ⟨data, rfl⟩ := isCommit_iff.mp commit
    obtain ⟨d, rfl⟩ := Action.putsOut_of_mem new
    rfl
  · obtain ⟨d, data, rfl⟩ := isPrePrepare_iff.mp prePrepare
    cases Action.putsOut_of_mem new
    rfl

namespace VoteLog

theorem initial (cfg : Config) (i : ℕ) (s : Replica) : VoteLog cfg i s [] where
  prePrepare := by simp
  commit := by simp
  onePrePrepare := by simp
  oneCommit := by simp

private theorem step_prePrepare (log : VoteLog cfg i s out) (step : Step cfg i s (now, a) t) :
    ∀ v n d data, .prePrepare v n d data ∈ out ++ a.newMessages cfg i s →
      v ≤ t.view ∧ (v = t.view → t.activeView = true ∧ n ≤ t.seqno) := by
  intro v n d data said
  have tables := step.tables
  have le := step.view_le
  rcases List.mem_append.mp said with old | new
  · obtain ⟨below, live⟩ := log.prePrepare v n d data old
    refine ⟨by omega, fun current => ?_⟩
    have same : v = s.view := by omega
    obtain ⟨active, bound⟩ := live same
    have view := tables.view
    rw [tables.activeView, tables.seqno]
    cases a with
    | sendViewChange w =>
      have raised := step.sendViewChange_raises
      simp only [Action.nextView] at view
      omega
    | recoverView w =>
      have raised := step.recoverView_raises
      simp only [Action.nextView] at view
      omega
    | processNewView hi nu chi =>
      rw [step.pre.1] at active
      cases active
    | sendPrePrepare d' data' v' n' =>
      have next : s.seqno + 1 = n' := step.pre.2.2.1
      exact ⟨active, by simp only [Action.nextSeqno]; omega⟩
    | _ => exact ⟨active, bound⟩
  · cases Action.putsOut_of_mem new
    obtain ⟨active, -, -, window, -⟩ := step.pre
    rw [tables.activeView, tables.seqno]
    exact ⟨window.2.le.trans le, fun _ => ⟨active, le_refl _⟩⟩

private theorem step_commit (log : VoteLog cfg i s out) (single : ∃ c, s.checkpoint = [c])
    (step : Step cfg i s (now, a) t) :
    ∀ v n data, .commit v n data ∈ out ++ a.newMessages cfg i s →
      v ≤ t.view ∧ (v = t.view → lowWatermark t < n → ∃ m ∈ commitsFor v n t, m.senderId = i) := by
  intro v n data said
  have le := step.view_le
  have grown := step.lowWatermark_le single
  rcases List.mem_append.mp said with old | new
  · obtain ⟨below, live⟩ := log.commit v n data old
    refine ⟨by omega, fun current above => ?_⟩
    obtain ⟨m, inside, sender⟩ := live (by omega) (by omega)
    obtain ⟨logged, view, number⟩ := mem_commitsFor.mp inside
    refine ⟨m, mem_commitsFor.mpr ⟨step.mem_commit.mpr ⟨Or.inl logged, ?_⟩, view, number⟩, sender⟩
    exact step.keeps_current single (view.trans current) (by rw [number]; exact above)
  · obtain ⟨d, rfl⟩ := Action.putsOut_of_mem new
    obtain ⟨window, -⟩ := step.pre
    refine ⟨window.2.le.trans le, fun _ _ => ?_⟩
    have logged : ⟨v, n, data, i, sigOwnReplica⟩ ∈ t.msgLogCommit :=
      step.mem_commit.mpr ⟨Or.inr (List.mem_singleton.mpr rfl), rfl⟩
    exact ⟨_, mem_commitsFor.mpr ⟨logged, rfl, rfl⟩, rfl⟩

/-- The number of a PRE_PREPARE is above all that the primary has proposed in the view. -/
private theorem step_onePrePrepare (log : VoteLog cfg i s out) (step : Step cfg i s (now, a) t) :
    ∀ v n, ((out ++ a.newMessages cfg i s).filter (Message.isPrePrepare v n)).length ≤ 1 := by
  intro v n
  by_cases some : ∃ m ∈ a.newMessages cfg i s, m.isPrePrepare v n = true
  · obtain ⟨m, new, vote⟩ := some
    have only := Action.newMessages_single new (Or.inr vote)
    refine filter_append_le_one (log.onePrePrepare v n) (by rw [only]; rfl) fun _ _ _ => ?_
    obtain ⟨d, data, rfl⟩ := isPrePrepare_iff.mp vote
    cases Action.putsOut_of_mem new
    obtain ⟨-, -, next, window, -⟩ := step.pre
    apply List.filter_eq_nil_iff.mpr
    intro m' old vote'
    obtain ⟨d', data', rfl⟩ := isPrePrepare_iff.mp vote'
    have bound := ((log.prePrepare v n d' data' old).2 window.2).2
    omega
  · rw [List.filter_append, List.filter_eq_nil_iff.mpr fun m new vote => some ⟨m, new, vote⟩,
      List.append_nil]
    exact log.onePrePrepare v n

/-- A COMMIT needs a number above the checkpoint without an own COMMIT in the log. -/
private theorem step_oneCommit (log : VoteLog cfg i s out) (single : ∃ c, s.checkpoint = [c])
    (step : Step cfg i s (now, a) t) :
    ∀ v n, ((out ++ a.newMessages cfg i s).filter (Message.isCommit v n)).length ≤ 1 := by
  intro v n
  by_cases some : ∃ m ∈ a.newMessages cfg i s, m.isCommit v n = true
  · obtain ⟨m, new, vote⟩ := some
    have only := Action.newMessages_single new (Or.inl vote)
    refine filter_append_le_one (log.oneCommit v n) (by rw [only]; rfl) fun _ _ _ => ?_
    obtain ⟨data, rfl⟩ := isCommit_iff.mp vote
    obtain ⟨d, rfl⟩ := Action.putsOut_of_mem new
    obtain ⟨window, -, none⟩ := step.pre
    obtain ⟨view, number⟩ := (inWv_iff single).mp window
    apply List.filter_eq_nil_iff.mpr
    intro m' old vote'
    obtain ⟨data', rfl⟩ := isCommit_iff.mp vote'
    exact none ((log.commit v n data' old).2 view (by omega))
  · rw [List.filter_append, List.filter_eq_nil_iff.mpr fun m new vote => some ⟨m, new, vote⟩,
      List.append_nil]
    exact log.oneCommit v n

theorem step (log : VoteLog cfg i s out) (single : ∃ c, s.checkpoint = [c])
    (step : Step cfg i s (now, a) t) : VoteLog cfg i t (out ++ a.newMessages cfg i s) where
  prePrepare := step_prePrepare log step
  commit := step_commit log single step
  onePrePrepare := step_onePrePrepare log step
  oneCommit := step_oneCommit log single step

end VoteLog

/-- After a run: the votes, and the digests that were logged when they were cast. -/
structure Voted (cfg : Config) (i : ℕ) (s : Replica) (labels : List (ℚ × Action)) (t : Replica) :
    Prop where
  votes : VoteLog cfg i t (outputs cfg i labels s)
  journal : ∃ x : Node, x.state = t ∧ Journal cfg i x ∧
    (∀ m ∈ outputs cfg i labels s, m ∈ x.sent) ∧
    ∀ now d v n data, (now, Action.sendCommit d v n data) ∈ labels → x.Logged v n d

theorem Voted.run (start : Initial cfg s) (run : Path (Step cfg i) s labels t) :
    Voted cfg i s labels t := by
  refine run.snoc_induction ?_ ?_
  · exact ⟨VoteLog.initial cfg i s, ⟨s, [], []⟩, rfl, Journal.initial start, by simp [outputs],
      by simp⟩
  rintro labels t ⟨now, a⟩ u reached ⟨votes, x, rfl, journal, sent, committed⟩ step
  have out := outputs_snoc reached step
  refine ⟨out ▸ votes.step journal.state.checkpoint step, x.record u, rfl, journal.step step, ?_, ?_⟩
  · intro m said
    rw [out] at said
    rcases List.mem_append.mp said with old | new
    · exact Node.mem_record_sent.mpr (Or.inl (sent m old))
    · exact Journal.new_sent step new
  · intro now' d v n data inside
    rcases List.mem_append.mp inside with old | last
    · exact (committed now' d v n data old).record
    · cases List.mem_singleton.mp last
      obtain ⟨window, certificate, -⟩ := step.pre
      obtain ⟨⟨-, m, logged, view, number, digest, -⟩, -⟩ :=
        prepared_current journal.state certificate window.2
      exact ⟨m, Node.mem_record_logged.mpr (Or.inl (journal.logged m logged)), view, number, digest⟩

/-- A replica votes once, along every run. -/
theorem votesOnce (start : Initial cfg s) (run : Path (Step cfg i) s labels t) :
    VotesOnce cfg i s labels := by
  obtain ⟨votes, x, rfl, journal, sent, committed⟩ := Voted.run start run
  have one : ∀ v n d d', x.Logged v n d → x.Logged v n d' → d = d' := by
    rintro v n d d' ⟨m, inside, rfl, rfl, rfl⟩ ⟨m', inside', view, number, rfl⟩
    exact journal.oneDigest m inside m' inside' view.symm number.symm
  refine ⟨fun v n d d' said said' => ?_, votes.oneCommit, votes.onePrePrepare, ?_⟩
  · exact one v n d d' (journal.prepare v n d (sent _ said)) (journal.prepare v n d' (sent _ said'))
  · rintro before ⟨now, a⟩ after u rfl reached v n data new
    obtain ⟨d, rfl⟩ := Action.putsOut_of_mem new
    obtain ⟨u', reached', rest⟩ := run.split
    cases rest with
    | cons step _ =>
      cases reached'.unique (fun _ _ _ _ step step' => step.functional step') reached
      refine ⟨d, step.pre.2.1, fun d' said => ?_⟩
      exact one v n d' d (journal.prepare v n d' (sent _ said))
        (committed now d v n data (List.mem_append.mpr (Or.inr List.mem_cons_self)))

def commitsOnce : List (ℚ × Action) :=
  preparedByTwo ++ [(60, .sendCommit "(H=1, T=60)" 0 1 "share")]

theorem votesOnce_commitsOnce :
    VotesOnce fourReplicas 1 genesis commitsOnce ∧
      .commit 0 1 "share" ∈ outputs fourReplicas 1 commitsOnce genesis := by
  have runs : (exec fourReplicas 1 Always commitsOnce genesis).isSome ∧
      .commit 0 1 "share" ∈ outputs fourReplicas 1 commitsOnce genesis := by
    decide +kernel
  obtain ⟨t, ran⟩ := Option.isSome_iff_exists.mp runs.1
  exact ⟨votesOnce genesis_initial (exec_path ran).unguard, runs.2⟩

end Fbft
