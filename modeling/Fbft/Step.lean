import Fbft.Actions
import Fbft.Path

/-! Steps and runs of one replica, and what a step can do to each table: a table is
changed by dropping facts and asserting facts, both determined by the action. -/
namespace Fbft

open Database LabelledPath

variable {cfg : Config} {i : ℕ} {now : ℚ} {s t u : Replica} {a : Action}

/-- One engine action of replica `i`; the label also carries the system time. -/
structure Step (cfg : Config) (i : ℕ) (s : Replica) (l : ℚ × Action) (t : Replica) : Prop where
  admissible : l.2.admissible s
  pre : l.2.pre cfg i l.1 s
  apply : l.2.apply cfg i s = some t

theorem Step.functional {l : ℚ × Action} (step : Step cfg i s l t) (other : Step cfg i s l u) :
    t = u :=
  Option.some.inj (step.apply.symm.trans other.apply)

/-- A freshly started replica, with or without a view kept on disk. -/
def Initial (cfg : Config) (s : Replica) : Prop :=
  ∃ height hash timestamp persistedView,
    s = initNotx cfg height hash timestamp persistedView

def exec (cfg : Config) (i : ℕ) (cond : Replica → ℚ × Action → Prop)
    [∀ s l, Decidable (cond s l)] : List (ℚ × Action) → Replica → Option Replica
  | [], s => some s
  | l :: labels, s =>
    if l.2.admissible s ∧ l.2.pre cfg i l.1 s ∧ cond s l then
      (l.2.apply cfg i s).bind (exec cfg i cond labels)
    else none

def Always (_s : Replica) (_l : ℚ × Action) : Prop := True

instance : Decidable (Always s l) := inferInstanceAs (Decidable True)

theorem exec_path {cond : Replica → ℚ × Action → Prop} [∀ s l, Decidable (cond s l)]
    {labels : List (ℚ × Action)} (h : exec cfg i cond labels s = some t) :
    Path (Guarded (Step cfg i) cond) s labels t := by
  induction labels generalizing s with
  | nil =>
    cases h
    exact .nil
  | cons l labels ih =>
    simp only [exec] at h
    split at h
    · rename_i allowed
      obtain ⟨u, applied, rest⟩ := Option.bind_eq_some_iff.mp h
      exact .cons ⟨⟨allowed.1, allowed.2.1, applied⟩, allowed.2.2⟩ (ih rest)
    · cases h

theorem exec_reachable {cond : Replica → ℚ × Action → Prop} [∀ s l, Decidable (cond s l)]
    {labels : List (ℚ × Action)} (start : Initial cfg s) (h : exec cfg i cond labels s = some t) :
    Reachable (Initial cfg) (Step cfg i) t :=
  ⟨s, labels, start, (exec_path h).unguard⟩

/-- A cluster of four that tolerates one faulty replica. Its VIEW_CHANGE digests name the
view and the sender, enough to tell apart the messages of one run. -/
def fourReplicas : Config where
  clusterSize := 4
  clusterSize_pos := by decide
  targetBlockTime := 60
  digestViewChange := fun v _ _ _ _ senderId => Nat.repr v ++ "/" ++ Nat.repr senderId

def genesis : Replica := initNotx fourReplicas 0 "H0" 0 none

theorem genesis_initial : Initial fourReplicas genesis := ⟨0, "H0", 0, none, rfl⟩

theorem applyReceivePrePrepare_spec
    (h : applyReceivePrePrepare cfg v n d data j sig i s = some t) :
    j ≠ i ∧ primary cfg s.view = j ∧ inWv v n s ∧ s.activeView = true ∧
    ((¬ ∃ m ∈ s.msgLogPrePrepare, m.v = v ∧ m.n = n ∧ m.senderId = j) ∨
      ∃ m ∈ s.msgLogPrePrepare, m.v = v ∧ m.n = n ∧ m.reqDigest = d ∧ m.senderId = j) ∧
    t = msgLogAddPrePrepare ⟨v, n, d, some data, j, sig⟩ s := by
  unfold applyReceivePrePrepare at h
  split at h
  · rename_i cond
    obtain ⟨other, sender, window, active, unique⟩ := cond
    exact ⟨other, sender, window, active, unique, (Option.some.inj h).symm⟩
  · cases h

theorem applyReceivePrepare_spec (h : applyReceivePrepare cfg v n d j sig i s = some t) :
    j ≠ i ∧ primary cfg s.view ≠ j ∧ inWv v n s ∧
    t = msgLogAddPrepare ⟨v, n, d, j, sig⟩ s := by
  unfold applyReceivePrepare at h
  split at h
  · rename_i cond
    obtain ⟨other, sender, window⟩ := cond
    exact ⟨other, sender, window, (Option.some.inj h).symm⟩
  · cases h

/-- A COMMIT is either logged in the window, and may then feed ROAST, or counts as
evidence for a higher view. -/
theorem applyReceiveCommit_spec (h : applyReceiveCommit cfg v n data j sig i s = some t) :
    j ≠ i ∧
    ((inWv v n s ∧ ∃ r,
        (¬ commitFeedsRoast cfg v n i s.roast ∧ r = s.roast ∨
          commitFeedsRoast cfg v n i s.roast ∧
            applyReceiveSigShare cfg j none data i s.roast = some r) ∧
        t = { msgLogAddCommit ⟨v, n, data, j, sig⟩ s with roast := r }) ∨
      (¬ inWv v n s ∧ s.view < v ∧ t = msgLogAddCommitViewRecovery ⟨v, n, j⟩ s)) := by
  unfold applyReceiveCommit at h
  split at h
  · cases h
  rename_i other
  refine ⟨other, ?_⟩
  split at h
  · rename_i window
    refine Or.inl ⟨window, ?_⟩
    dsimp only at h
    split at h
    · rename_i feeds
      obtain ⟨r, shared, rfl⟩ := Option.map_eq_some_iff.mp h
      exact ⟨r, Or.inr ⟨feeds, shared⟩, rfl⟩
    · rename_i feeds
      exact ⟨s.roast, Or.inl ⟨feeds, rfl⟩, (Option.some.inj h).symm⟩
  · rename_i window
    split at h
    · rename_i higher
      exact Or.inr ⟨window, higher, (Option.some.inj h).symm⟩
    · cases h

theorem applyReceiveBlock_spec (h : applyReceiveBlock height time blockHash s = some t) :
    ∃ r ∈ s.msgLogRequest, r.reqTimestamp = time ∧
      t = collectGarbage height
        (addCheckpoint ⟨height, blockHash, time⟩
          (applyExecute r.reqDigest height blockHash s)) := by
  unfold applyReceiveBlock at h
  obtain ⟨r, found, rfl⟩ := Option.map_eq_some_iff.mp h
  exact ⟨r, List.mem_of_find?_eq_some found, by simpa using List.find?_some found, rfl⟩

def ownViewChange (cfg : Config) (v i : ℕ) (c : Checkpoint) (s : Replica) : ViewChange :=
  let e := enterViewChange cfg v s
  ⟨cfg.digestViewChange v c.n c.stateVal e.viewChangePi e.viewChangeQi i, v, c.n, c.stateVal,
    e.viewChangePi, e.viewChangeQi, i, sigOwnReplica⟩

def ViewChange.message (m : ViewChange) : Message := .viewChange m.v m.hi m.c m.pi m.qi

/-- The first checkpoint at the low watermark, the one a VIEW_CHANGE reports. -/
def reportedCheckpoint (s : Replica) : Option Checkpoint :=
  (getH s).bind fun hi => s.checkpoint.find? fun c => c.n = hi

theorem reportedCheckpoint_spec (h : reportedCheckpoint s = some c) :
    c ∈ s.checkpoint ∧ getH s = some c.n := by
  obtain ⟨hi, height, found⟩ := Option.bind_eq_some_iff.mp h
  have same : c.n = hi := by simpa using List.find?_some found
  exact ⟨List.mem_of_find?_eq_some found, same ▸ height⟩

theorem enterViewChange_eq (cfg : Config) (v : ℕ) (s : Replica) :
    enterViewChange cfg v s =
      { s with
        view := v
        timeout := viewTimeout cfg v
        activeView := false
        roast := setRoastActive none s.roast
        viewChangePi := (updateViewChangePi cfg s).viewChangePi
        viewChangeQi := (updateViewChangeQi cfg s).viewChangeQi } := rfl

theorem applySendViewChange_spec (h : applySendViewChange cfg v i s = some t) :
    ∃ c, reportedCheckpoint s = some c ∧
      t = msgLogClearWhereViewLessThan v
        (msgLogAddViewChange (ownViewChange cfg v i c s)
          (msgOutAdd (ownViewChange cfg v i c s).message (enterViewChange cfg v s))) := by
  unfold applySendViewChange at h
  obtain ⟨hi, height, rest⟩ := Option.bind_eq_some_iff.mp h
  obtain ⟨c, found, rfl⟩ := Option.map_eq_some_iff.mp rest
  have reported : reportedCheckpoint s = some c := Option.bind_eq_some_iff.mpr ⟨hi, height, found⟩
  have same : c.n = hi := by simpa using List.find?_some found
  subst same
  exact ⟨c, reported, rfl⟩

theorem applyReceiveViewChange_spec
    (h : applyReceiveViewChange cfg v hi c pi qi j sig i s = some t) :
    j ≠ i ∧ s.view ≤ v ∧ correctViewChange v hi pi qi ∧
    (¬ ∃ m ∈ s.msgLogViewChange, m.v = v ∧ m.senderId = j) ∧
    t = msgLogAddViewChange
      ⟨cfg.digestViewChange v hi c pi qi j, v, hi, c, pi, qi, j, sig⟩ s := by
  unfold applyReceiveViewChange at h
  split at h
  · rename_i cond
    obtain ⟨other, higher, correct, unique⟩ := cond
    exact ⟨other, higher, correct, unique, (Option.some.inj h).symm⟩
  · cases h

theorem applyReceiveNewView_spec (h : applyReceiveNewView cfg v nu chi j sig i s = some t) :
    j ≠ i ∧ 0 < v ∧ v ≤ s.view ∧ j = primary cfg v ∧
    (t = s ∨ t = msgLogAddNewView ⟨v, nu, chi, sig⟩ s) := by
  unfold applyReceiveNewView at h
  split at h
  · rename_i cond
    obtain ⟨other, positive, low, sender⟩ := cond
    refine ⟨other, positive, low, sender, ?_⟩
    split at h
    · exact Or.inl (Option.some.inj h).symm
    · exact Or.inr (Option.some.inj h).symm
  · cases h

theorem updateRoast_spec {f : Roast → Option Roast} (h : updateRoast f s = some t) :
    ∃ r, f s.roast = some r ∧ t = { s with roast := r } := by
  obtain ⟨r, shared, rfl⟩ := Option.map_eq_some_iff.mp h
  exact ⟨r, shared, rfl⟩

theorem foldl_msgLogAddPrePrepare (ms : List PrePrepare) (s : Replica) :
    ms.foldl (fun s m => msgLogAddPrePrepare m s) s =
      { s with msgLogPrePrepare := assertzAllBy PrePrepare.unifies ms s.msgLogPrePrepare } := by
  induction ms generalizing s with
  | nil => rfl
  | cons m ms ih => rw [List.foldl_cons, ih]; rfl

def ownPrepares (v i : ℕ) (chi : List ChiEntry) : List Prepare :=
  chi.map fun e => ⟨v, e.n, e.reqDigest, i, sigOwnReplica⟩

theorem foldl_applySendPrepare (v i : ℕ) (chi : List ChiEntry) (s : Replica) :
    chi.foldl (fun s e => applySendPrepare e.reqDigest v e.n i s) s =
      { s with
        msgLogPrepare := assertzAll (ownPrepares v i chi) s.msgLogPrepare
        msgOut := assertzAll (chi.map fun e => .prepare v e.n e.reqDigest) s.msgOut } := by
  induction chi generalizing s with
  | nil => rfl
  | cons e chi ih => rw [List.foldl_cons, ih]; rfl

/-- The pre-prepare table after `apply_PROCESS_NEW_VIEW`. -/
def populatedPrePrepares (cfg : Config) (chi : List ChiEntry) (s : Replica) : List PrePrepare :=
  assertzAllBy PrePrepare.unifies (prePreparesOfChi cfg s.view chi) s.msgLogPrePrepare

/-- The greatest sequence number logged for the view, or the low watermark. -/
def processedSeqno (cfg : Config) (hi : ℕ) (chi : List ChiEntry) (s : Replica) : ℕ :=
  (((populatedPrePrepares cfg chi s).filter fun m => m.v = s.view).map PrePrepare.n).max?.getD hi

theorem applyProcessNewView_eq (hi : ℕ) (chi : List ChiEntry) (s : Replica) :
    applyProcessNewView cfg hi chi i s =
      { s with
        activeView := true
        msgLogPrePrepare := populatedPrePrepares cfg chi s
        seqno := processedSeqno cfg hi chi s
        msgLogPrepare := assertzAll
          (if primary cfg s.view = i then [] else ownPrepares s.view i chi) s.msgLogPrepare
        msgOut := assertzAll
          (if primary cfg s.view = i then []
           else chi.map fun e => .prepare s.view e.n e.reqDigest) s.msgOut } := by
  unfold applyProcessNewView
  simp only [foldl_msgLogAddPrePrepare, foldl_applySendPrepare]
  split <;> rfl

theorem applyExecute_eq (d : String) (n : ℕ) (val : String) (s : Replica) :
    ∃ lastExec lastRep val', applyExecute d n val s =
      { s with lastExec := lastExec, lastRep := lastRep, val := val' } ∧
      s.lastRep ≤ lastRep ∧ (lastExec = n ∨ lastExec = s.lastExec) := by
  unfold applyExecute
  split
  · rename_i r found
    have later := List.find?_some found
    simp only [decide_eq_true_eq] at later
    exact ⟨_, _, _, rfl, later.2.le, Or.inl rfl⟩
  · exact ⟨_, _, _, rfl, le_refl _, Or.inr rfl⟩

end Fbft
