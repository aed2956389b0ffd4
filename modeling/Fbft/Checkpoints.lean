import Fbft.Invariant
import Fbft.RoastStart

/-! What a received block does to the replica that receives it: the facts it removes,
the execution state it leaves behind, and the heights the two of them stand at. -/
namespace Fbft

open Database LabelledPath

variable {cfg : Config} {i j : ℕ} {now : ℚ} {s t : Replica} {a : Action}
  {labels : List (ℚ × Action)}
  {height time : ℕ} {blockHash : String}

/-- Every fact of the engine carries the replica it belongs to. -/
abbrev Engine := ℕ → Replica

namespace Engine

variable {e e' : Engine} {l : ℚ × Action} {labels : List (ℚ × Action)}

/-- One action of one of the replicas. -/
structure Step (cfg : Config) (e : Engine) (l : ℕ × ℚ × Action) (e' : Engine) : Prop where
  step : Fbft.Step cfg l.1 (e l.1) l.2 (e' l.1)
  others : ∀ j, j ≠ l.1 → e' j = e j

def Initial (cfg : Config) (e : Engine) : Prop := ∀ i, Fbft.Initial cfg (e i)

theorem reachable_at (reached : Reachable (Initial cfg) (Step cfg) e) (i : ℕ) :
    Reachable (Fbft.Initial cfg) (Fbft.Step cfg i) (e i) := by
  apply reached.invariant
  · intro e start
    exact .of_init (start i)
  · rintro e ⟨j, l⟩ e' before step
    by_cases own : i = j
    · subst own
      exact before.extend (.single step.step)
    · rw [step.others i own]
      exact before

theorem Step.update (step : Fbft.Step cfg i (e i) l t) :
    Step cfg e (i, l) (Function.update e i t) where
  step := by simpa using step
  others j other := by simp [other]

theorem run_update (run : Path (Fbft.Step cfg i) s labels t) :
    Path (Step cfg) (Function.update e i s) (labels.map fun l => (i, l))
      (Function.update e i t) := by
  induction run with
  | nil => exact .nil
  | @cons s l t _ _ first _ ih =>
    have single : Step cfg (Function.update e i s) (i, l)
        (Function.update (Function.update e i s) i t) := Step.update (by simpa using first)
    rw [Function.update_idem] at single
    exact .cons single ih

theorem reachable_exec (start : Fbft.Initial cfg s) (ran : exec cfg i Always labels s = some t) :
    Reachable (Initial cfg) (Step cfg) (Function.update (fun _ => s) i t) := by
  have run := run_update (e := fun _ => s) (i := i) (exec_path ran).unguard
  rw [Function.update_eq_self] at run
  exact ⟨_, _, fun _ => start, run⟩

end Engine

variable {e e' : Engine}

/-- The past of a block is removed, and nothing else: `e` is the database before, `e'` the
one after replica `i` has received the block. -/
structure RemovesPast (i height : ℕ) (e e' : Engine) : Prop where
  prePrepare : (e' i).msgLogPrePrepare = (e i).msgLogPrePrepare.filter fun m => height < m.n
  prepare : (e' i).msgLogPrepare = (e i).msgLogPrepare.filter fun m => height < m.n
  commit : (e' i).msgLogCommit = (e i).msgLogCommit.filter fun m => height < m.n
  pi : (e' i).viewChangePi = (e i).viewChangePi.filter fun p => height < p.n
  qi : (e' i).viewChangeQi = (e i).viewChangeQi.filter fun q => height < q.n
  checkpoint : ∀ c ∈ (e' i).checkpoint, height ≤ c.n
  request : (e' i).msgLogRequest =
    (e i).msgLogRequest.filter fun r => (e' i).lastRep < r.reqTimestamp
  roast : (e' i).roast = roastCollectGarbage
  others : ∀ j, j ≠ i → e' j = e j

theorem applyReceiveBlock_frame (h : applyReceiveBlock height time blockHash s = some t) :
    t.msgLogPrePrepare = s.msgLogPrePrepare.filter (fun m => height < m.n) ∧
    t.msgLogPrepare = s.msgLogPrepare.filter (fun m => height < m.n) ∧
    t.msgLogCommit = s.msgLogCommit.filter (fun m => height < m.n) ∧
    t.viewChangePi = s.viewChangePi.filter (fun p => p.n ≠ height) ∧
    t.viewChangeQi = s.viewChangeQi.filter (fun q => q.n ≠ height) ∧
    t.msgLogRequest = s.msgLogRequest.filter (fun r => t.lastRep < r.reqTimestamp) ∧
    t.roast = roastCollectGarbage := by
  obtain ⟨r, -, -, rfl⟩ := applyReceiveBlock_spec h
  obtain ⟨lastExec, lastRep, val, same, -, -⟩ := applyExecute_eq r.reqDigest height blockHash s
  rw [same]
  simp [collectGarbage, addCheckpoint]

/-- Without facts below a height, dropping that height drops everything up to it. -/
theorem filter_ne_eq_filter_lt_iff {α : Type} (number : α → ℕ) (table : List α) (n : ℕ) :
    table.filter (fun x => number x ≠ n) = table.filter (fun x => n < number x) ↔
      ∀ x ∈ table, n ≤ number x := by
  constructor
  · intro same x inside
    by_contra below
    have kept : x ∈ table.filter fun x => number x ≠ n := by
      simp only [List.mem_filter, decide_eq_true_eq]
      exact ⟨inside, by omega⟩
    rw [same] at kept
    have above := of_decide_eq_true (List.mem_filter.mp kept).2
    omega
  · intro above
    apply List.filter_congr
    intro x inside
    have bound := above x inside
    simp only [decide_eq_decide]
    omega

/-- Garbage collection removes exactly the past when neither Pi nor Qi reaches below the
block: the goals for the lower heights name tables that do not exist. -/
theorem removesPast_iff (reached : Reachable (Engine.Initial cfg) (Engine.Step cfg) e)
    (block : Engine.Step cfg e (i, now, .receiveBlock height time blockHash) e') :
    RemovesPast i height e e' ↔
      (∀ p ∈ (e i).viewChangePi, height ≤ p.n) ∧ ∀ q ∈ (e i).viewChangeQi, height ≤ q.n := by
  obtain ⟨prePrepare, prepare, commit, pi, qi, request, roast⟩ :=
    applyReceiveBlock_frame block.step.apply
  rw [← filter_ne_eq_filter_lt_iff PiEntry.n, ← filter_ne_eq_filter_lt_iff QiEntry.n]
  constructor
  · intro removed
    exact ⟨pi.symm.trans removed.pi, qi.symm.trans removed.qi⟩
  · rintro ⟨samePi, sameQi⟩
    have inv := Invariant.reachable (Engine.reachable_at reached i)
    have next := (block.step.block_checkpoint inv.checkpoint).2
    refine ⟨prePrepare, prepare, commit, pi.trans samePi, qi.trans sameQi, ?_, request, roast,
      block.others⟩
    intro c listed
    rw [next] at listed
    rw [List.mem_singleton.mp listed]

/-- Replica 2 is one block ahead. Replica 0 takes numbers 1 and 2 into its tables in views 1 and 2,
and its commit for number 1 is the last step before the block at height 1. -/
def hearsOfTwoNumbers : List (ℚ × Action) :=
  let d := "(H=1, T=60)"
  let d' := "(H=2, T=120)"
  let chi := [⟨1, d, some "B60"⟩, ⟨2, d', some "B120"⟩]
  let nu := [⟨0, "1/0"⟩, ⟨1, "1/1"⟩, ⟨2, "1/2"⟩]
  let nu' := [⟨0, "2/0"⟩, ⟨1, "2/1"⟩, ⟨2, "2/2"⟩]
  [(60, .receiveRequest d 60), (60, .receiveRequest d' 120), (1000, .sendViewChange 1),
    (1000, .receiveViewChange 1 0 "H0" [⟨1, d, 0⟩] [⟨1, d, some "B60", 0⟩] 1 "S1"),
    (1000, .receiveViewChange 1 1 "H1" [⟨2, d', 0⟩] [⟨2, d', some "B120", 0⟩] 2 "S2"),
    (1000, .receiveNewView 1 nu chi 1 "S1"), (1000, .processNewView 0 nu chi),
    (1000, .receivePrepare 1 1 d 2 "S2"), (1000, .sendViewChange 2),
    (1000, .receiveViewChange 2 0 "H0" [] [] 1 "S1"),
    (1000, .receiveViewChange 2 1 "H1" [⟨2, d', 0⟩] [⟨2, d', some "B120", 0⟩] 2 "S2"),
    (1000, .receiveNewView 2 nu' chi 2 "S2"), (1000, .processNewView 0 nu' chi),
    (1000, .receivePrepare 2 1 d 3 "S3"), (1000, .sendCommit d 2 1 "p0")]

/-- The block at height 1 finds entries for it in all the tables, and some above it. -/
theorem removesPast_block : ∃ e e',
    Reachable (Engine.Initial fourReplicas) (Engine.Step fourReplicas) e ∧
    (e 0).msgLogPrePrepare.map PrePrepare.n = [1, 2] ∧
    (e 0).msgLogPrepare.map Prepare.n = [1, 2, 1] ∧ (e 0).msgLogCommit.map Commit.n = [1] ∧
    (e 0).viewChangePi.map PiEntry.n = [1] ∧ (e 0).viewChangeQi.map QiEntry.n = [1, 2] ∧
    Engine.Step fourReplicas e (0, 1000, .receiveBlock 1 60 "H1") e' ∧ RemovesPast 0 1 e e' := by
  have runs : ∃ s, exec fourReplicas 0 Always hearsOfTwoNumbers genesis = some s ∧
      s.msgLogPrePrepare.map PrePrepare.n = [1, 2] ∧
      s.msgLogPrepare.map Prepare.n = [1, 2, 1] ∧ s.msgLogCommit.map Commit.n = [1] ∧
      s.viewChangePi.map PiEntry.n = [1] ∧ s.viewChangeQi.map QiEntry.n = [1, 2] ∧
      ((∀ p ∈ s.viewChangePi, 1 ≤ p.n) ∧ ∀ q ∈ s.viewChangeQi, 1 ≤ q.n) ∧
      (exec fourReplicas 0 Always [(1000, .receiveBlock 1 60 "H1")] s).isSome := by
    decide +kernel
  obtain ⟨s, ran, prePrepare, prepare, commit, pi, qi, above, runs⟩ := runs
  obtain ⟨t, ran'⟩ := Option.isSome_iff_exists.mp runs
  have reached := Engine.reachable_exec genesis_initial ran
  cases exec_path ran' with
  | cons step rest =>
    cases rest
    have block := Engine.Step.update (e := Function.update (fun _ => genesis) 0 s) (i := 0)
      (by simpa using step.1)
    have same : Function.update (fun _ => genesis) 0 s 0 = s := Function.update_self ..
    have removes := (removesPast_iff reached block).mpr (same.symm ▸ above)
    refine ⟨_, _, reached, ?_, ?_, ?_, ?_, ?_, block, removes⟩ <;> rwa [same]

/-- Replica 1 leaves view 0 with a proposal for height 1; the chain goes on at height 2. -/
def skipsHeight : List (ℚ × Action) :=
  [(60, .receiveRequest "(H=1, T=60)" 60),
    (60, .receivePrePrepare 0 1 "(H=1, T=60)" "B60" 0 "S0"), (1000, .sendViewChange 1)]

/-- The proposal for height 1 stays in Qi when the checkpoint is at height 2. -/
theorem skipsHeight_keepsPast : ∃ e e',
    Reachable (Engine.Initial fourReplicas) (Engine.Step fourReplicas) e ∧
    Engine.Step fourReplicas e (1, 1000, .receiveBlock 2 60 "H2") e' ∧
    (e' 1).viewChangeQi = [⟨1, "(H=1, T=60)", some "B60", 0⟩] ∧ ¬ RemovesPast 1 2 e e' := by
  have runs : ∃ s, exec fourReplicas 1 Always skipsHeight genesis = some s ∧
      ∃ t, Step fourReplicas 1 s (1000, .receiveBlock 2 60 "H2") t ∧
        t.viewChangeQi = [⟨1, "(H=1, T=60)", some "B60", 0⟩] := by
    have ends : ∃ s, exec fourReplicas 1 Always skipsHeight genesis = some s ∧
        (∃ t, applyReceiveBlock 2 60 "H2" s = some t ∧
          t.viewChangeQi = [⟨1, "(H=1, T=60)", some "B60", 0⟩]) ∧
        Action.admissible s (.receiveBlock 2 60 "H2") := by
      decide +kernel
    obtain ⟨s, ran, ⟨t, applied, left⟩, admissible⟩ := ends
    exact ⟨s, ran, t, ⟨admissible, trivial, applied⟩, left⟩
  obtain ⟨s, ran, t, step, left⟩ := runs
  have reached := Engine.reachable_exec genesis_initial ran
  have block := Engine.Step.update (e := Function.update (fun _ => genesis) 1 s) (i := 1)
    (by simpa using step)
  refine ⟨_, _, reached, block, by simpa using left, fun removed => ?_⟩
  have kept := removed.qi
  rw [Function.update_self, left] at kept
  have inside : (⟨1, "(H=1, T=60)", some "B60", 0⟩ : QiEntry) ∈
      [(⟨1, "(H=1, T=60)", some "B60", 0⟩ : QiEntry)] := List.mem_singleton_self _
  rw [kept] at inside
  simp at inside

/-- The request that `apply_EXECUTE` picks when a block with this timestamp arrives: a
newer one with the digest of the first request of that timestamp. -/
def executedRequest (time : ℕ) (s : Replica) : Option Request :=
  (s.msgLogRequest.find? fun r => r.reqTimestamp = time).bind fun r =>
    s.msgLogRequest.find? fun r' => r'.reqDigest = r.reqDigest ∧ s.lastRep < r'.reqTimestamp

/-- The block is executed as it is, or nothing is and the replica stands there already. -/
def ExecutesBlock (height time : ℕ) (blockHash : String) (s : Replica) : Prop :=
  match executedRequest time s with
  | some r => r.reqTimestamp = time
  | none => s.lastExec = height ∧ s.val = blockHash ∧ s.lastRep = time

instance : Decidable (ExecutesBlock height time blockHash s) := by
  unfold ExecutesBlock; cases executedRequest time s <;> infer_instance

/-- What a received block says about the replica's execution state. -/
structure Determined (height time : ℕ) (blockHash : String) (t : Replica) : Prop where
  checkpoint : t.checkpoint = [⟨height, blockHash, time⟩]
  lastExec : t.lastExec = height
  val : t.val = blockHash
  lastRep : t.lastRep = time

/-- The execution state stays between the checkpoint and the next height. -/
def NearCheckpoint (s : Replica) : Prop :=
  lowWatermark s ≤ s.lastExec ∧ s.lastExec ≤ lowWatermark s + 1

theorem applyReceiveBlock_execution
    (h : applyReceiveBlock height time blockHash s = some t) :
    (∃ r, executedRequest time s = some r ∧
      t.lastExec = height ∧ t.lastRep = r.reqTimestamp ∧ t.val = blockHash) ∨
    (executedRequest time s = none ∧
      t.lastExec = s.lastExec ∧ t.lastRep = s.lastRep ∧ t.val = s.val) := by
  obtain ⟨r, found, rfl⟩ := Option.map_eq_some_iff.mp h
  simp only [executedRequest, found, Option.bind_some, applyExecute, collectGarbage, addCheckpoint]
  split
  · rename_i r' found'
    exact Or.inl ⟨r', found', rfl, rfl, rfl⟩
  · rename_i none
    exact Or.inr ⟨none, rfl, rfl, rfl⟩

theorem Step.determined_iff (step : Step cfg i s (now, .receiveBlock height time blockHash) t)
    (single : ∃ c, s.checkpoint = [c]) :
    Determined height time blockHash t ↔ ExecutesBlock height time blockHash s := by
  have checkpoint := (step.block_checkpoint single).2
  unfold ExecutesBlock
  rcases applyReceiveBlock_execution step.apply with
    ⟨r, found, lastExec, lastRep, val⟩ | ⟨none, lastExec, lastRep, val⟩
  · rw [found]
    constructor
    · intro determined
      exact lastRep.symm.trans determined.lastRep
    · intro same
      exact ⟨checkpoint, lastExec, val, lastRep.trans same⟩
  · rw [none]
    constructor
    · intro determined
      exact ⟨lastExec.symm.trans determined.lastExec, val.symm.trans determined.val,
        lastRep.symm.trans determined.lastRep⟩
    · rintro ⟨sameExec, sameVal, sameRep⟩
      exact ⟨checkpoint, lastExec.trans sameExec, val.trans sameVal, lastRep.trans sameRep⟩

/-- Only EXECUTE and RECEIVE_BLOCK move the execution state. -/
def Action.executes : Action → Bool
  | execute .. => true
  | receiveBlock .. => true
  | _ => false

def Action.nextTimeout (cfg : Config) (s : Replica) : Action → ℚ
  | recoverView v => viewTimeout cfg v
  | sendViewChange v => viewTimeout cfg v
  | _ => s.timeout

section

attribute [local simp] Action.nextTimeout msgLogAddPrePrepare msgLogAddPrepare msgLogAddCommit
  msgLogAddCommitViewRecovery msgLogAddViewChange msgLogAddNewView msgOutAdd setView
  msgLogClearWhereViewLessThan

theorem Step.scalars (step : Step cfg i s (now, a) t) : t.timeout = a.nextTimeout cfg s ∧
    (a.executes = false → t.lastExec = s.lastExec ∧ t.lastRep = s.lastRep ∧ t.val = s.val) := by
  have h := step.apply
  cases a with
  | execute d v n val =>
    cases h
    obtain ⟨lastExec, lastRep, val', same, -, -⟩ := applyExecute_eq d n val s
    rw [same]
    exact ⟨rfl, nofun⟩
  | receiveBlock height time blockHash =>
    obtain ⟨r, -, -, rfl⟩ := applyReceiveBlock_spec h
    obtain ⟨lastExec, lastRep, val', same, -, -⟩ := applyExecute_eq r.reqDigest height blockHash s
    rw [same]
    exact ⟨rfl, nofun⟩
  | setSyntheticTime _ | msgOutClearAll | sendPrePrepare _ _ _ _ | sendPrepare _ _ _
  | sendCommit _ _ _ _ | recoverView _ | sendNewView _ _ =>
    cases h
    exact ⟨rfl, fun _ => ⟨rfl, rfl, rfl⟩⟩
  | receiveRequest d time =>
    cases h
    unfold applyReceiveRequest
    split <;> simp
  | receivePrePrepare v n d data j sig =>
    obtain ⟨-, -, -, -, -, rfl⟩ := applyReceivePrePrepare_spec h
    simp
  | receivePrepare v n d j sig =>
    obtain ⟨-, -, -, rfl⟩ := applyReceivePrepare_spec h
    simp
  | receiveCommit v n data j sig =>
    obtain ⟨-, ⟨-, r, -, rfl⟩ | ⟨-, -, rfl⟩⟩ := applyReceiveCommit_spec h <;> simp
  | sendViewChange v =>
    obtain ⟨c, -, rfl⟩ := applySendViewChange_spec h
    simp [enterViewChange_eq]
  | receiveViewChange v hi c pi qi j sig =>
    obtain ⟨-, -, -, -, rfl⟩ := applyReceiveViewChange_spec h
    simp
  | receiveNewView v nu chi j sig =>
    obtain ⟨-, -, -, -, rfl | rfl⟩ := applyReceiveNewView_spec h <;> simp
  | processNewView hi nu chi =>
    cases h
    rw [applyProcessNewView_eq]
    exact ⟨rfl, fun _ => ⟨rfl, rfl, rfl⟩⟩
  | roastInit _ _ _ | receivePreSignature _ _ _ _ | receiveSigShare _ _ _ =>
    obtain ⟨r, -, rfl⟩ := updateRoast_spec h
    exact ⟨rfl, fun _ => ⟨rfl, rfl, rfl⟩⟩

end

theorem Step.execution_same (step : Step cfg i s (now, a) t) (other : a.executes = false) :
    t.lastExec = s.lastExec ∧ t.lastRep = s.lastRep ∧ t.val = s.val :=
  step.scalars.2 other

theorem Step.lowWatermark_same (step : Step cfg i s (now, a) t) (inv : Invariant cfg i s)
    (other : ∀ height time blockHash, a ≠ .receiveBlock height time blockHash) :
    lowWatermark t = lowWatermark s := by
  rcases step.lowWatermark_cases inv.checkpoint with same | ⟨-, time, blockHash, block⟩
  · exact same
  · exact absurd block (other _ time blockHash)

/-- EXECUTE is enabled only at the next height: a commit certificate needs COMMITs, and
these stand right above the checkpoint. -/
theorem preExecute_number (inv : Invariant cfg i s) (pre : preExecute cfg d v n i s) :
    n = lowWatermark s + 1 :=
  (committed_logged inv pre.2.1).2.1

def BlocksExecute (s : Replica) (l : ℚ × Action) : Prop :=
  match l.2 with
  | .receiveBlock height time blockHash => ExecutesBlock height time blockHash s
  | _ => True

instance : Decidable (BlocksExecute s l) := by
  obtain ⟨now, a⟩ := l
  apply a.casesOn (motive := fun a => Decidable (BlocksExecute s (now, a))) <;> intros <;>
    dsimp only [BlocksExecute] <;> infer_instance

theorem NearCheckpoint.step (near : NearCheckpoint s) (inv : Invariant cfg i s)
    (step : Step cfg i s (now, a) t) (executes : BlocksExecute s (now, a)) :
    NearCheckpoint t := by
  unfold NearCheckpoint at near ⊢
  by_cases moves : a.executes
  · cases a with
    | execute d v n val =>
      have number := preExecute_number inv step.pre
      have height := step.lowWatermark_same inv (by simp)
      have applied : applyExecute d n val s = t := Option.some.inj step.apply
      obtain ⟨lastExec, lastRep, val', same, -, which⟩ := applyExecute_eq d n val s
      have next : t.lastExec = lastExec := by rw [← applied, same]
      omega
    | receiveBlock height time blockHash =>
      have determined := (step.determined_iff inv.checkpoint).mpr executes
      rw [lowWatermark_eq determined.checkpoint, determined.lastExec]
      simp
    | _ => cases moves
  · have lastExec := (step.execution_same (by simpa using moves)).1
    have height : lowWatermark t = lowWatermark s := by
      apply step.lowWatermark_same inv
      rintro height time blockHash rfl
      exact moves rfl
    rw [lastExec, height]
    exact near

/-- A block determines the execution state when it is executed as it is; in a run where
that holds of every block the execution state keeps close to the checkpoint. -/
theorem block_determines (start : Initial cfg s) (run : Path (Step cfg i) s labels t) :
    (∀ now height time blockHash u, Step cfg i t (now, .receiveBlock height time blockHash) u →
      (Determined height time blockHash u ↔ ExecutesBlock height time blockHash t)) ∧
    (Path (Guarded (Step cfg i) BlocksExecute) s labels t → NearCheckpoint t) := by
  have reached : Reachable (Initial cfg) (Step cfg i) t := ⟨s, labels, start, run⟩
  have inv := Invariant.reachable reached
  constructor
  · intro now height time blockHash u step
    exact step.determined_iff inv.checkpoint
  · intro executed
    have both : Invariant cfg i t ∧ NearCheckpoint t := by
      apply executed.invariant
      · rintro s ⟨now, a⟩ t ⟨inv, near⟩ ⟨step, executes⟩
        exact ⟨inv.step step, near.step inv step executes⟩
      · refine ⟨Invariant.initial start, ?_⟩
        obtain ⟨height, blockHash, timestamp, view, rfl⟩ := start
        simp [NearCheckpoint, lowWatermark, getH, initNotx, setView]
    exact both.2

/-- Replica 0 sees the first block of the chain. -/
theorem block_determines_first : ∃ s t,
    exec fourReplicas 0 BlocksExecute [(60, .receiveRequest "(H=1, T=60)" 60)] genesis = some s ∧
    Step fourReplicas 0 s (60, .receiveBlock 1 60 "H1") t ∧
    Determined 1 60 "H1" t ∧ NearCheckpoint s := by
  have runs : ∃ s, exec fourReplicas 0 BlocksExecute
      [(60, .receiveRequest "(H=1, T=60)" 60)] genesis = some s ∧
      ∃ t, Step fourReplicas 0 s (60, .receiveBlock 1 60 "H1") t ∧ ExecutesBlock 1 60 "H1" s :=
    ⟨_, rfl, _, ⟨by decide, trivial, rfl⟩, by decide⟩
  obtain ⟨s, ran, t, step, executes⟩ := runs
  obtain ⟨determines, near⟩ := block_determines genesis_initial (exec_path ran).unguard
  exact ⟨s, t, ran, step, (determines _ _ _ _ _ step).mpr executes, near (exec_path ran)⟩

def executesOwn : List (ℚ × Action) :=
  commitsInViewZero ++
    [(60, .roastInit "(H=1, T=60)" 0 1), (60, .receiveSigShare 1 "s1" "n1"),
      (60, .receiveSigShare 0 "s0" "n0"), (60, .execute "(H=1, T=60)" 0 1 "H1")]

/-- Another block of that height reaches the chain: the checkpoint holds its hash, `val`
the hash of the block that was executed. -/
theorem otherBlock_not_determined : ∃ s t,
    Reachable (Initial fourReplicas) (Step fourReplicas 0) s ∧
    Step fourReplicas 0 s (60, .receiveBlock 1 60 "H1b") t ∧
    t.checkpoint = [⟨1, "H1b", 60⟩] ∧ t.val = "H1" ∧ ¬ Determined 1 60 "H1b" t := by
  have runs : ∃ s, exec fourReplicas 0 Always executesOwn genesis = some s ∧
      (∃ t, applyReceiveBlock 1 60 "H1b" s = some t ∧
        t.checkpoint = [⟨1, "H1b", 60⟩] ∧ t.val = "H1") ∧
      Action.admissible s (.receiveBlock 1 60 "H1b") := by
    decide +kernel
  obtain ⟨s, ran, ⟨t, applied, checkpoint, val⟩, admissible⟩ := runs
  refine ⟨s, t, exec_reachable genesis_initial ran, ⟨admissible, trivial, applied⟩, checkpoint,
    val, fun determined => ?_⟩
  have other := val.symm.trans determined.val
  revert other
  decide

end Fbft
