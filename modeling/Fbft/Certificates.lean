import Fbft.Counting

/-! What becomes of a prepared certificate. SEND_VIEW_CHANGE empties Pi before it asks
for the prepared certificates, so Pi is rebuilt from the log of the view that is left;
RECOVER_VIEW leaves Pi alone and clears that log. -/
namespace Fbft

open Database LabelledPath

variable {cfg : Config} {i : ℕ} {now : ℚ} {s t mid : Replica} {a : Action}
  {labels : List (ℚ × Action)}

/-- The log holds a certificate for number `n`. -/
def PreparedInLog (cfg : Config) (n : ℕ) (s : Replica) : Prop :=
  ∃ m ∈ s.msgLogPrePrepare, m.n = n ∧ LoggedPrepared cfg s ⟨m.n, m.reqDigest, m.v⟩

instance : Decidable (LoggedPrepared cfg s e) :=
  haveI : Decidable (LoggedPrePrepared cfg s e) := inferInstanceAs (Decidable (_ ∧ _))
  inferInstanceAs (Decidable (_ ∧ _))

instance : Decidable (PreparedInLog cfg n s) := inferInstanceAs (Decidable (∃ _ ∈ _, _))

/-- A view is left only when each number in Pi was prepared again in it, and RECOVER_VIEW
finds no certificate in the log. -/
def RenewsCertificates (cfg : Config) (s : Replica) (l : ℚ × Action) : Prop :=
  match l.2 with
  | .sendViewChange _ => ∀ e ∈ s.viewChangePi, PreparedInLog cfg e.n s
  | .recoverView _ => ∀ m ∈ s.msgLogPrePrepare, ¬ LoggedPrepared cfg s ⟨m.n, m.reqDigest, m.v⟩
  | _ => True

instance : Decidable (RenewsCertificates cfg s l) := by
  obtain ⟨now, a⟩ := l
  apply a.casesOn (motive := fun a => Decidable (RenewsCertificates cfg s (now, a))) <;> intros <;>
    dsimp only [RenewsCertificates] <;> infer_instance

def PreparedAlong (cfg : Config) (i : ℕ) (mid : Replica) (labels : List (ℚ × Action))
    (s : Replica) (e : PiEntry) : Prop :=
  ∃ before after u, labels = before ++ after ∧ Path (Step cfg i) mid before u ∧
    Path (Step cfg i) u after s ∧ prepared cfg e.reqDigest e.v e.n u

/-- `e'` may stand in for `e`: the same request, or one prepared since in a later view. -/
def Succeeds (cfg : Config) (i : ℕ) (mid : Replica) (labels : List (ℚ × Action)) (s : Replica)
    (e e' : PiEntry) : Prop :=
  e'.n = e.n ∧ e.v ≤ e'.v ∧
    (e'.reqDigest = e.reqDigest ∨ e.v < e'.v ∧ PreparedAlong cfg i mid labels s e')

/-- What a VIEW_CHANGE owes to a certificate. -/
def Carries (cfg : Config) (i : ℕ) (mid : Replica) (labels : List (ℚ × Action)) (s : Replica)
    (e : PiEntry) (m : ViewChange) : Prop :=
  ∃ e' ∈ m.pi, Succeeds cfg i mid labels s e e' ∧
    ∃ q ∈ m.qi, q.n = e'.n ∧ q.reqDigest = e'.reqDigest ∧ e'.v ≤ q.v

theorem two_le_quorumPrepare (large : 4 ≤ cfg.clusterSize) : 2 ≤ quorumPrepare cfg := by
  simp only [quorumPrepare, quorum, maxFaulty]
  omega

/-- Qi speaks for earlier views than the logged PREPAREs, so it never completes a
certificate. -/
theorem prepared_cases (inv : Invariant cfg i s) (large : 4 ≤ cfg.clusterSize) :
    prepared cfg d v n s ↔ ⟨n, d, v⟩ ∈ s.viewChangePi ∨ LoggedPrepared cfg s ⟨n, d, v⟩ := by
  rw [prepared_iff]
  constructor
  · rintro (listed | ⟨prePrepared, enough⟩)
    · exact Or.inl listed
    · refine Or.inr ⟨?_, enough⟩
      rcases prePrepared_iff.mp prePrepared with ⟨q, old, -, -, same⟩ | logged
      · have below := inv.qi q old
        have two := two_le_quorumPrepare large
        obtain ⟨m, inside⟩ := List.exists_mem_of_length_pos (by omega :
          0 < (preparesFor d v n s).length)
        obtain ⟨logged, view, -⟩ := mem_preparesFor.mp inside
        have current := (inv.prepare m logged).1
        omega
      · exact logged
  · rintro (listed | ⟨logged, enough⟩)
    · exact Or.inl listed
    · exact Or.inr ⟨prePrepared_iff.mpr (Or.inr logged), enough⟩

theorem LoggedPrepared.window (inv : Invariant cfg i s) (nodup : s.msgLogPrepare.Nodup)
    (large : 4 ≤ cfg.clusterSize) (certificate : LoggedPrepared cfg s e) :
    e.n = lowWatermark s + 1 := by
  by_contra outside
  have two := (two_le_quorumPrepare large).trans certificate.2
  have own : ∀ m ∈ preparesFor e.reqDigest e.v e.n s,
      m = ⟨e.v, e.n, e.reqDigest, i, sigOwnReplica⟩ := by
    intro m inside
    obtain ⟨logged, view, number, digest⟩ := mem_preparesFor.mp inside
    obtain ⟨-, -, -, next⟩ := inv.prepare m logged
    have sender : m.senderId = i := next.resolve_left (by omega)
    have signature := inv.ownPrepare m logged sender
    rw [← view, ← number, ← digest, ← sender, ← signature]
  have single : (preparesFor e.reqDigest e.v e.n s).length ≤ 1 := by
    have nodup' : (preparesFor e.reqDigest e.v e.n s).Nodup := nodup.filter _
    rw [List.eq_replicate_of_mem own] at nodup'
    exact List.nodup_replicate.mp nodup'
  omega

theorem PreparedInLog.of_entry (certificate : LoggedPrepared cfg s e) :
    ∃ m ∈ s.msgLogPrePrepare, LoggedPrepared cfg s ⟨m.n, m.reqDigest, m.v⟩ := by
  obtain ⟨-, m, inside, view, number, digest, -⟩ := certificate.1
  exact ⟨m, inside, by rw [view, number, digest]; exact certificate⟩

/-- No certificate that Pi could list is of a later view than the logged ones. -/
theorem LoggedPrepared.mem_pi (inv : Invariant cfg i s) (certificate : LoggedPrepared cfg s e) :
    e ∈ (updateViewChangePi cfg s).viewChangePi := by
  have listed := mem_prePreparedSolutions.mpr (Or.inr certificate.1)
  refine mem_updateViewChangePi.mpr ⟨⟨listed, certificate.2⟩, fun e' listed' _ _ => ?_⟩
  have view := certificate.1.view inv
  have view' := mem_prePreparedSolutions_view inv listed'
  omega

/-- The Pi that SEND_VIEW_CHANGE computes: the certificates of the log. -/
theorem mem_updateViewChangePi_iff (inv : Invariant cfg i s) (large : 4 ≤ cfg.clusterSize) :
    e ∈ (updateViewChangePi cfg s).viewChangePi ↔ LoggedPrepared cfg s e := by
  constructor
  · intro entry
    obtain ⟨⟨listed, enough⟩, -⟩ := mem_updateViewChangePi.mp entry
    rcases (prepared_cases inv large).mp
      (prepared_iff.mpr (Or.inr ⟨listed, enough⟩)) with old | logged
    · have below := inv.pi _ old
      have two := two_le_quorumPrepare large
      obtain ⟨m, inside⟩ := List.exists_mem_of_length_pos (by omega :
        0 < (preparesFor e.reqDigest e.v e.n s).length)
      obtain ⟨logged, view, -⟩ := mem_preparesFor.mp inside
      have current := (inv.prepare m logged).1
      simp only at below
      omega
    · exact logged
  · exact LoggedPrepared.mem_pi inv

/-- The Qi that SEND_VIEW_CHANGE computes has the block of each certificate of the log. -/
theorem updateViewChangeQi_covers (inv : Invariant cfg i s) (certificate : LoggedPrepared cfg s e) :
    ∃ q ∈ (updateViewChangeQi cfg s).viewChangeQi,
      q.n = e.n ∧ q.reqDigest = e.reqDigest ∧ e.v ≤ q.v := by
  have view := certificate.1.view inv
  obtain ⟨known, m, inside, viewM, number, digest, sender⟩ := certificate.1
  refine ⟨⟨e.n, e.reqDigest, m.data, e.v⟩, mem_updateViewChangeQi.mpr
    ⟨certificate.1, fun e' logged' _ _ => ?_, m, inside, viewM, number, digest, sender, rfl⟩,
    rfl, rfl, le_refl _⟩
  have view' := logged'.view inv
  simp only
  omega

theorem ownViewChange_pi : (ownViewChange cfg v i c s).pi = (updateViewChangePi cfg s).viewChangePi :=
  rfl

theorem ownViewChange_qi : (ownViewChange cfg v i c s).qi = (updateViewChangeQi cfg s).viewChangeQi :=
  rfl

theorem Step.keeps_preparesFor (step : Step cfg i s (now, a) t) (keeps : a.keeps v n = true) :
    (preparesFor d v n s).length ≤ (preparesFor d v n t).length := by
  have kept : (preparesFor d v n t) =
      (assertzAll (a.newPrepares cfg i s) s.msgLogPrepare).filter
        fun m => m.v = v ∧ m.n = n ∧ m.reqDigest = d := by
    rw [preparesFor, step.tables.prepare, List.filter_filter]
    apply List.filter_congr
    intro m _
    by_cases match' : m.v = v ∧ m.n = n ∧ m.reqDigest = d
    · obtain ⟨rfl, rfl, rfl⟩ := match'
      simp [keeps]
    · simp [match']
  rw [kept]
  exact ((sublist_assertzAllBy _ _ _).filter _).length_le

theorem Step.keeps_certificate (step : Step cfg i s (now, a) t)
    (certificate : LoggedPrepared cfg s e) (keeps : a.keeps e.v e.n = true)
    (noBlock : ∀ height time hash, a ≠ .receiveBlock height time hash) :
    LoggedPrepared cfg t e := by
  obtain ⟨⟨⟨r, known, digest⟩, m, inside, view, number, digest', sender⟩, enough⟩ := certificate
  have known' : r ∈ t.msgLogRequest := by
    rcases step.tables.keepsRequest r known with kept | ⟨height, time, hash, block⟩
    · exact kept
    · exact absurd block (noBlock height time hash)
  refine ⟨⟨⟨r, known', digest⟩, m, ?_, view, number, digest', sender⟩,
    enough.trans (step.keeps_preparesFor keeps)⟩
  rw [step.tables.prePrepare]
  exact List.mem_filter.mpr ⟨mem_assertzAllBy_of_mem inside, by rw [view, number, keeps]⟩

/-- Facts about PREPAREs and Pi that hold in every run. -/
structure CertificateLog (s : Replica) : Prop where
  prepareNodup : s.msgLogPrepare.Nodup
  pi : ∀ e ∈ s.viewChangePi, e.n ≤ lowWatermark s + 1

namespace CertificateLog

theorem initial (start : Initial cfg s) : CertificateLog s := by
  obtain ⟨height, blockHash, timestamp, view, rfl⟩ := start
  constructor <;> simp [initNotx, setView]

theorem step (log : CertificateLog s) (inv : Invariant cfg i s) (large : 4 ≤ cfg.clusterSize)
    (step : Step cfg i s (now, a) t) : CertificateLog t where
  prepareNodup := step.prepare_nodup log.prepareNodup
  pi := by
    intro e listed
    have grown := step.lowWatermark_le inv.checkpoint
    rw [step.tables.viewChangePi] at listed
    cases a with
    | sendViewChange v =>
      have window := ((mem_updateViewChangePi_iff inv large).mp listed).window inv
        log.prepareNodup large
      omega
    | receiveBlock height time hash =>
      have bound := log.pi e (List.mem_filter.mp listed).1
      omega
    | _ =>
      have bound := log.pi e listed
      omega

theorem reachable (large : 4 ≤ cfg.clusterSize)
    (run : Reachable (Initial cfg) (Step cfg i) s) : Invariant cfg i s ∧ CertificateLog s := by
  apply run.invariant (fun _ start => ⟨Invariant.initial start, initial start⟩)
  rintro u l w ⟨inv, log⟩ next
  exact ⟨inv.step next, log.step inv large next⟩

end CertificateLog

theorem PreparedAlong.snoc (along : PreparedAlong cfg i mid labels s e)
    (step : Step cfg i s l t) : PreparedAlong cfg i mid (labels ++ [l]) t e := by
  obtain ⟨before, after, u, rfl, first, second, certificate⟩ := along
  exact ⟨before, after ++ [l], u, by simp, first, second.snoc step, certificate⟩

theorem Succeeds.snoc (succeeds : Succeeds cfg i mid labels s e e') (step : Step cfg i s l t) :
    Succeeds cfg i mid (labels ++ [l]) t e e' := by
  obtain ⟨number, view, digest⟩ := succeeds
  exact ⟨number, view, digest.imp_right fun later => ⟨later.1, later.2.snoc step⟩⟩

theorem Succeeds.renew (inv : Invariant cfg i s) (large : 4 ≤ cfg.clusterSize)
    (run : Path (Step cfg i) mid labels s) (succeeds : Succeeds cfg i mid labels s e e')
    (listed : e' ∈ s.viewChangePi) (certificate : LoggedPrepared cfg s e'') (number : e''.n = e'.n) :
    Succeeds cfg i mid labels s e e'' := by
  have below := inv.pi e' listed
  have current := certificate.1.view inv
  have view := succeeds.2.1
  refine ⟨number.trans succeeds.1, by omega, Or.inr ⟨by omega, labels, [], s, by simp, run, .nil, ?_⟩⟩
  exact (prepared_cases inv large).mpr (Or.inr certificate)

/-- The certificate, or one that may stand in for it, is held in Pi or in the log. -/
def Held (cfg : Config) (i : ℕ) (mid : Replica) (labels : List (ℚ × Action)) (s : Replica)
    (e : PiEntry) : Prop :=
  ∃ e', Succeeds cfg i mid labels s e e' ∧ (e' ∈ s.viewChangePi ∨ LoggedPrepared cfg s e')

namespace Held

theorem logged (held : Held cfg i mid labels s e) (inv : Invariant cfg i s)
    (large : 4 ≤ cfg.clusterSize) (run : Path (Step cfg i) mid labels s)
    (renews : ∀ e ∈ s.viewChangePi, PreparedInLog cfg e.n s) :
    ∃ e', Succeeds cfg i mid labels s e e' ∧ LoggedPrepared cfg s e' := by
  obtain ⟨e', succeeds, listed | certificate⟩ := held
  · obtain ⟨m, -, number, certificate⟩ := renews e' listed
    exact ⟨_, succeeds.renew inv large run listed certificate number, certificate⟩
  · exact ⟨e', succeeds, certificate⟩

theorem number_le (held : Held cfg i mid labels s e) (inv : Invariant cfg i s)
    (log : CertificateLog s) (large : 4 ≤ cfg.clusterSize) : e.n ≤ lowWatermark s + 1 := by
  obtain ⟨e', ⟨number, -⟩, listed | certificate⟩ := held
  · have bound := log.pi e' listed
    omega
  · have window := certificate.window inv log.prepareNodup large
    omega

theorem noBlock (held : Held cfg i mid labels s e) (inv : Invariant cfg i s)
    (log : CertificateLog s) (large : 4 ≤ cfg.clusterSize) (step : Step cfg i s (now, a) t)
    (below : ∀ height time hash, a = .receiveBlock height time hash → height < e.n) :
    ∀ height time hash, a ≠ .receiveBlock height time hash := by
  rintro height time hash rfl
  have bound := held.number_le inv log large
  have grown := (step.block_checkpoint inv.checkpoint).1
  have low := below height time hash rfl
  omega

theorem step (held : Held cfg i mid labels s e) (inv : Invariant cfg i s)
    (log : CertificateLog s) (large : 4 ≤ cfg.clusterSize) (run : Path (Step cfg i) mid labels s)
    (step : Step cfg i s (now, a) t) (renews : RenewsCertificates cfg s (now, a))
    (below : ∀ height time hash, a = .receiveBlock height time hash → height < e.n) :
    Held cfg i mid (labels ++ [(now, a)]) t e := by
  have noBlock := held.noBlock inv log large step below
  have table := step.tables.viewChangePi
  cases a with
  | sendViewChange v =>
    obtain ⟨e', succeeds, certificate⟩ := held.logged inv large run renews
    refine ⟨e', succeeds.snoc step, Or.inl ?_⟩
    rw [table]
    exact (mem_updateViewChangePi_iff inv large).mpr certificate
  | recoverView v =>
    obtain ⟨e', succeeds, listed | certificate⟩ := held
    · exact ⟨e', succeeds.snoc step, Or.inl (by rwa [table])⟩
    · obtain ⟨m, inside, logged⟩ := PreparedInLog.of_entry certificate
      exact absurd logged (renews m inside)
  | receiveBlock height time hash => exact absurd rfl (noBlock height time hash)
  | _ =>
    obtain ⟨e', succeeds, listed | certificate⟩ := held
    · exact ⟨e', succeeds.snoc step, Or.inl (by rwa [table])⟩
    · exact ⟨e', succeeds.snoc step, Or.inr (step.keeps_certificate certificate rfl noBlock)⟩

theorem run (start : Reachable (Initial cfg) (Step cfg i) mid) (large : 4 ≤ cfg.clusterSize)
    (certificate : prepared cfg e.reqDigest e.v e.n mid)
    (run : Path (Guarded (Step cfg i) (RenewsCertificates cfg)) mid labels s)
    (below : ∀ l ∈ labels, ∀ height time hash, l.2 = .receiveBlock height time hash →
      height < e.n) :
    Held cfg i mid labels s e := by
  refine run.snoc_induction (motive := fun labels s =>
    (∀ l ∈ labels, ∀ height time hash, l.2 = .receiveBlock height time hash → height < e.n) →
      Held cfg i mid labels s e) ?_ ?_ below
  · intro _
    obtain ⟨inv, -⟩ := CertificateLog.reachable large start
    exact ⟨e, ⟨rfl, le_refl _, Or.inl rfl⟩, (prepared_cases inv large).mp certificate⟩
  · intro labels u l w before ih next below
    obtain ⟨inv, log⟩ := CertificateLog.reachable large (start.extend before.unguard)
    have held := ih fun l inside => below l (List.mem_append_left _ inside)
    exact held.step inv log large before.unguard next.1 next.2 (below l (by simp))

end Held

/-- Along the runs that renew their certificates, a VIEW_CHANGE carries every certificate
held since the last block that could settle it. -/
theorem viewChange_carries (reached : Reachable (Initial cfg) (Step cfg i) mid)
    (large : 4 ≤ cfg.clusterSize) (certificate : prepared cfg e.reqDigest e.v e.n mid)
    (run : Path (Guarded (Step cfg i) (RenewsCertificates cfg)) mid labels s)
    (below : ∀ l ∈ labels, ∀ height time hash, l.2 = .receiveBlock height time hash →
      height < e.n)
    (sends : Guarded (Step cfg i) (RenewsCertificates cfg) s (now, .sendViewChange v) t) :
    ∃ m ∈ t.msgLogViewChange, m.senderId = i ∧ m.v = v ∧
      (∀ message, message ∈ t.msgOut ↔ message ∈ s.msgOut ∨ message = m.message) ∧
      Carries cfg i mid labels s e m := by
  have held := Held.run reached large certificate run below
  obtain ⟨inv, -⟩ := CertificateLog.reachable large (reached.extend run.unguard)
  obtain ⟨e', succeeds, certificate'⟩ := held.logged inv large run.unguard sends.2
  obtain ⟨c, -, rfl⟩ := applySendViewChange_spec sends.1.apply
  refine ⟨ownViewChange cfg v i c s, ?_, rfl, rfl, fun message => ?_, e', ?_, succeeds, ?_⟩
  · simp [msgLogClearWhereViewLessThan, msgLogAddViewChange, ownViewChange]
  · simp [msgLogClearWhereViewLessThan, msgLogAddViewChange, msgOutAdd, enterViewChange_eq]
  · rw [ownViewChange_pi]
    exact (mem_updateViewChangePi_iff inv large).mpr certificate'
  · rw [ownViewChange_qi]
    exact updateViewChangeQi_covers inv certificate'

/-- In view 1 the request is prepared again, so the second VIEW_CHANGE carries it too. -/
def preparesAgain : List (ℚ × Action) :=
  [(1000, .sendViewChange 1),
    (1000, .receiveViewChange 1 0 "H0" [⟨1, "(H=1, T=60)", 0⟩]
      [⟨1, "(H=1, T=60)", some "B60", 0⟩] 0 "S0"),
    (1000, .receiveViewChange 1 0 "H0" [⟨1, "(H=1, T=60)", 0⟩]
      [⟨1, "(H=1, T=60)", some "B60", 0⟩] 2 "S2"),
    (1000, .sendNewView [⟨0, "1/0"⟩, ⟨1, "1/1"⟩, ⟨2, "1/2"⟩] [⟨1, "(H=1, T=60)", some "B60"⟩]),
    (1000, .processNewView 0 [⟨0, "1/0"⟩, ⟨1, "1/1"⟩, ⟨2, "1/2"⟩]
      [⟨1, "(H=1, T=60)", some "B60"⟩]),
    (1000, .receivePrepare 1 1 "(H=1, T=60)" 0 "S0"),
    (1000, .receivePrepare 1 1 "(H=1, T=60)" 2 "S2")]

theorem viewChange_carries_preparesAgain : ∃ mid s t m,
    exec fourReplicas 1 (RenewsCertificates fourReplicas) preparedByTwo genesis = some mid ∧
    exec fourReplicas 1 (RenewsCertificates fourReplicas) preparesAgain mid = some s ∧
    Step fourReplicas 1 s (1000, .sendViewChange 2) t ∧ m ∈ t.msgLogViewChange ∧
    Carries fourReplicas 1 mid preparesAgain s ⟨1, "(H=1, T=60)", 0⟩ m := by
  have runs : ∃ mid,
      exec fourReplicas 1 (RenewsCertificates fourReplicas) preparedByTwo genesis = some mid ∧
      prepared fourReplicas "(H=1, T=60)" 0 1 mid ∧
      ∃ s, exec fourReplicas 1 (RenewsCertificates fourReplicas) preparesAgain mid = some s ∧
      (exec fourReplicas 1 (RenewsCertificates fourReplicas)
        [(1000, .sendViewChange 2)] s).isSome := by
    decide +kernel
  obtain ⟨mid, ran, certificate, s, again, sends⟩ := runs
  obtain ⟨t, sent⟩ := Option.isSome_iff_exists.mp sends
  have reached := exec_reachable genesis_initial ran
  have noBlock : ∀ l ∈ preparesAgain, ∀ height time hash,
      l.2 = .receiveBlock height time hash → height < 1 := by
    simp [preparesAgain]
  cases exec_path sent with
  | cons head rest =>
    cases rest
    obtain ⟨m, logged, -, -, -, carries⟩ := viewChange_carries reached (by decide)
      (e := ⟨1, "(H=1, T=60)", 0⟩) certificate (exec_path again) noBlock head
    exact ⟨mid, s, t, m, ran, again, head.1, logged, carries⟩

/-- A certificate was prepared, the labels led on from there, and the VIEW_CHANGE that
follows does not carry it. -/
def LosesCertificate (labels : List (ℚ × Action)) : Prop :=
  ∃ mid s t m, Reachable (Initial fourReplicas) (Step fourReplicas 1) mid ∧
    prepared fourReplicas "(H=1, T=60)" 0 1 mid ∧ Path (Step fourReplicas 1) mid labels s ∧
    Step fourReplicas 1 s (1000, .sendViewChange 2) t ∧
    m ∈ t.msgLogViewChange ∧ m.senderId = 1 ∧ m.v = 2 ∧ m.message ∈ t.msgOut ∧
    ¬ Carries fourReplicas 1 mid labels s ⟨1, "(H=1, T=60)", 0⟩ m

theorem losesCertificate_of_empty (runs : ∃ mid,
    exec fourReplicas 1 Always preparedByTwo genesis = some mid ∧
    prepared fourReplicas "(H=1, T=60)" 0 1 mid ∧
    ∃ s, exec fourReplicas 1 Always labels mid = some s ∧
    ∃ t, exec fourReplicas 1 Always [(1000, .sendViewChange 2)] s = some t ∧
    ∃ m ∈ t.msgLogViewChange, m.senderId = 1 ∧ m.v = 2 ∧ m.message ∈ t.msgOut ∧ m.pi = []) :
    LosesCertificate labels := by
  obtain ⟨mid, ran, certificate, s, again, t, sent, m, logged, sender, view, emitted, empty⟩ := runs
  refine ⟨mid, s, t, m, exec_reachable genesis_initial ran, certificate, (exec_path again).unguard,
    ?_, logged, sender, view, emitted, ?_⟩
  · cases exec_path sent with
    | cons head rest =>
      cases rest
      exact head.1
  · rintro ⟨e', listed, -⟩
    simp [empty] at listed

/-- The certificate of view 0 is in the first VIEW_CHANGE and no longer in the second, and
is in none after a recovery. -/
theorem viewChange_not_carries :
    LosesCertificate [(1000, .sendViewChange 1)] ∧
    LosesCertificate [(60, .receiveCommit 1 0 "q0" 0 "S0"), (60, .receiveCommit 1 0 "q2" 2 "S2"),
      (60, .receiveCommit 1 0 "q3" 3 "S3"), (60, .recoverView 1)] :=
  ⟨losesCertificate_of_empty (by decide +kernel), losesCertificate_of_empty (by decide +kernel)⟩

end Fbft
