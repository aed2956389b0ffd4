import Fbft.Authentic
import Fbft.Checkpoints
import Fbft.RoastActive

/-! Where the texts in an engine come from. Every request digest, block hash, block and commitment
in its tables was handed to it by a caller, so what the callers promise of the texts holds of all
that it puts out. The digests of VIEW_CHANGEs and the aggregates of ROAST are made by the engine. -/
namespace Fbft

open Database LabelledPath

variable {cfg : Config} {i : ℕ} {now : ℚ} {s t : Replica} {a : Action} {m : Message}
  {text block : String → Prop} {d : String} {v n : ℕ}

section

variable (text block : String → Prop)

/-- Digests and hashes are texts of one kind, the blocks of Qi and Chi of another. -/
def QiEntry.Carries (e : QiEntry) : Prop := text e.reqDigest ∧ ∀ b ∈ e.data, block b

def ChiEntry.Carries (e : ChiEntry) : Prop := text e.reqDigest ∧ ∀ b ∈ e.data, block b

def PrePrepare.Carries (m : PrePrepare) : Prop := text m.reqDigest ∧ ∀ b ∈ m.data, block b

/-- The digests in Nu are made by the engine, and ROAST is left out. -/
def Message.Carries : Message → Prop
  | prePrepare _ _ d data => text d ∧ block data
  | prepare _ _ d => text d
  | commit _ _ data => text data
  | viewChange _ _ c pi qi =>
    text c ∧ (∀ e ∈ pi, text e.reqDigest) ∧ ∀ e ∈ qi, e.Carries text block
  | newView _ _ chi => ∀ e ∈ chi, e.Carries text block
  | roastPreSignature .. | roastSignatureShare .. => True

/-- The texts that an action hands to the engine. -/
def Action.Brings : Action → Prop
  | receiveRequest d _ => text d
  | sendPrePrepare _ data _ _ => block data
  | sendCommit _ _ _ data => text data
  | receiveBlock _ _ blockHash => text blockHash
  | a => ∀ x ∈ a.received, x.2.1.Carries text block

def Action.stateVal : Action → Option String
  | execute _ _ _ stateVal => some stateVal
  | _ => none

/-- The texts in the tables of the engine. -/
structure Replica.Carries (s : Replica) : Prop where
  request : ∀ r ∈ s.msgLogRequest, text r.reqDigest
  prePrepare : ∀ m ∈ s.msgLogPrePrepare, m.Carries text block
  prepare : ∀ m ∈ s.msgLogPrepare, text m.reqDigest
  commit : ∀ m ∈ s.msgLogCommit, text m.data
  checkpoint : ∀ c ∈ s.checkpoint, text c.stateVal
  viewChange : ∀ m ∈ s.msgLogViewChange, m.message.Carries text block
  newView : ∀ m ∈ s.msgLogNewView, ∀ e ∈ m.chi, e.Carries text block
  pi : ∀ e ∈ s.viewChangePi, text e.reqDigest
  qi : ∀ e ∈ s.viewChangeQi, e.Carries text block
  msgOut : ∀ m ∈ s.msgOut, m.Carries text block
  roastActive : ∀ x ∈ s.roast.active, text x.reqDigest

end

section

variable [DecidablePred text] [DecidablePred block]

instance (e : QiEntry) : Decidable (e.Carries text block) := inferInstanceAs (Decidable (_ ∧ _))

instance (e : ChiEntry) : Decidable (e.Carries text block) := inferInstanceAs (Decidable (_ ∧ _))

instance (m : Message) : Decidable (m.Carries text block) := by
  apply m.casesOn (motive := fun m => Decidable (m.Carries text block)) <;> intros <;>
    dsimp only [Message.Carries] <;> infer_instance

instance (a : Action) : Decidable (a.Brings text block) := by
  apply a.casesOn (motive := fun a => Decidable (a.Brings text block)) <;> intros <;>
    dsimp only [Action.Brings] <;> infer_instance

end

namespace Replica.Carries

variable (carries : s.Carries text block)
include carries

theorem prePrepared {e : PiEntry} (solution : e ∈ prePreparedSolutions cfg s) :
    text e.reqDigest := by
  rcases mem_prePreparedSolutions.mp solution with ⟨q, listed, rfl⟩ | ⟨⟨r, known, digest⟩, -⟩
  · exact (carries.qi q listed).1
  · exact digest ▸ carries.request r known

theorem prepared {d : String} {v n : ℕ} (certificate : Fbft.prepared cfg d v n s) : text d := by
  rcases prepared_iff.mp certificate with old | ⟨listed, -⟩
  · exact carries.pi _ old
  · exact carries.prePrepared listed

theorem updatedPi {e : PiEntry} (listed : e ∈ (updateViewChangePi cfg s).viewChangePi) :
    text e.reqDigest :=
  carries.prePrepared (mem_updateViewChangePi.mp listed).1.1

theorem updatedQi {e : QiEntry} (listed : e ∈ (updateViewChangeQi cfg s).viewChangeQi) :
    e.Carries text block := by
  obtain ⟨-, -, m, logged, -, -, digest, -, data⟩ := mem_updateViewChangeQi.mp listed
  have carried := carries.prePrepare m logged
  exact ⟨digest ▸ carried.1, data ▸ carried.2⟩

theorem ownViewChange {c : Checkpoint} (reported : reportedCheckpoint s = some c) :
    (ownViewChange cfg v i c s).message.Carries text block :=
  ⟨carries.checkpoint c (reportedCheckpoint_spec reported).1, fun _ => carries.updatedPi,
    fun _ => carries.updatedQi⟩

/-- An entry of Chi is null, or it joins the digest of a Pi to the block of a Qi. -/
theorem chi (null : text nullDigest) {nu : List NuEntry} {chi : List ChiEntry}
    (computed : correctChi cfg nu s = some chi) {e : ChiEntry} (inside : e ∈ chi) :
    e.Carries text block := by
  obtain ⟨-, -, entries⟩ := correctChi_range computed
  rw [entries e inside]
  rcases chiEntry_cases (nuVset nu s) e.n with ⟨m, p, q, first, head, same⟩ | ⟨same, -⟩
  · rw [same]
    obtain ⟨listed, -⟩ := List.mem_filter.mp (List.mem_of_head? head)
    obtain ⟨m', chosen, certified⟩ := List.mem_flatMap.mp listed
    obtain ⟨before, after, split, -⟩ := first.first
    have taken : m ∈ nuVset nu s := split ▸ List.mem_append_right before List.mem_cons_self
    exact ⟨(carries.viewChange m (mem_nuVset.mp taken).1).2.1 p first.eligible.listed,
      ((carries.viewChange m' (mem_nuVset.mp chosen).1).2.2 q certified).2⟩
  · rw [same]
    exact ⟨null, nofun⟩

/-- A processed Chi is the logged one, unified with the computed one. -/
theorem processedChi (null : text nullDigest) {hi : ℕ} {nu : List NuEntry} {chi : List ChiEntry}
    (pre : preProcessNewView cfg hi nu chi i s) {e : ChiEntry} (inside : e ∈ chi) :
    e.Carries text block := by
  obtain ⟨x, logged, -, -, -, computed, solved, unified⟩ := correctNewView_spec pre.2.1
  obtain ⟨a, inChi, b, inComputed, same⟩ := mem_unifyChi unified inside
  obtain ⟨-, digest, -, -, data⟩ := ChiEntry.unify_spec same
  have fromLog := carries.newView x logged a inChi
  have fromComputed := carries.chi null solved inComputed
  refine ⟨digest ▸ fromComputed.1, fun text' written => ?_⟩
  cases bound : a.data with
  | some text =>
    have kept := Data.unify_some data bound
    rw [kept] at written
    cases written
    exact fromLog.2 _ bound
  | none =>
    rw [bound] at data
    have kept : b.data = e.data := Option.some.inj data
    exact fromComputed.2 _ (kept.trans written)

end Replica.Carries

namespace Replica.Carries

theorem initial {height timestamp : ℕ} {hash : String} {view : Option ℕ} (brought : text hash) :
    (initNotx cfg height hash timestamp view).Carries text block := by
  constructor <;> simp [initNotx, setView, roastCollectGarbage, brought]

variable (carries : s.Carries text block) (null : text nullDigest)
  (acts : Step cfg i s (now, a) t) (brings : a.Brings text block)

include carries null acts brings in
private theorem new_prePrepare {m : PrePrepare} (new : m ∈ a.newPrePrepares cfg i s) :
    m.Carries text block := by
  cases a with
  | sendPrePrepare d data v n =>
    obtain ⟨-, -, -, -, ⟨r, known, digest, -⟩, -⟩ := acts.pre
    rw [List.mem_singleton.mp new]
    exact ⟨digest ▸ carries.request r known, by rintro _ ⟨⟩; exact brings⟩
  | receivePrePrepare v n d data j sig =>
    obtain ⟨digest, written⟩ := brings _ rfl
    rw [List.mem_singleton.mp new]
    exact ⟨digest, by rintro _ ⟨⟩; exact written⟩
  | processNewView hi nu chi =>
    obtain ⟨e, inside, rfl⟩ := List.mem_map.mp new
    exact carries.processedChi null acts.pre inside
  | _ => cases new

include carries null acts brings in
private theorem new_prepare {m : Prepare} (new : m ∈ a.newPrepares cfg i s) : text m.reqDigest := by
  cases a with
  | sendPrepare d v n =>
    rw [List.mem_singleton.mp new]
    exact carries.prePrepared acts.pre.2.2.1
  | receivePrepare v n d j sig =>
    rw [List.mem_singleton.mp new]
    exact brings _ rfl
  | processNewView hi nu chi =>
    simp only [Action.newPrepares] at new
    split at new
    · cases new
    · obtain ⟨e, inside, rfl⟩ := List.mem_map.mp new
      exact (carries.processedChi null acts.pre inside).1
  | _ => cases new

include brings in
private theorem new_commit {m : Commit} (new : m ∈ a.newCommits i s) : text m.data := by
  cases a with
  | sendCommit d v n data =>
    rw [List.mem_singleton.mp new]
    exact brings
  | receiveCommit v n data j sig =>
    simp only [Action.newCommits] at new
    split at new
    · rw [List.mem_singleton.mp new]
      exact brings _ rfl
    · cases new
  | _ => cases new

include carries brings in
private theorem new_viewChange {m : ViewChange} (new : m ∈ a.newViewChanges cfg i s) :
    m.message.Carries text block := by
  cases a with
  | sendViewChange v =>
    obtain ⟨c, reported, rfl⟩ := List.mem_map.mp new
    exact carries.ownViewChange (Option.mem_toList.mp reported)
  | receiveViewChange v hi c pi qi j sig =>
    rw [List.mem_singleton.mp new]
    exact brings _ rfl
  | _ => cases new

include carries null acts brings in
private theorem new_newView {m : NewView} (new : m ∈ a.newNewViews s) :
    ∀ e ∈ m.chi, e.Carries text block := by
  cases a with
  | sendNewView nu chi =>
    obtain ⟨-, -, computed, -⟩ := acts.pre
    rw [List.mem_singleton.mp new]
    exact fun e => carries.chi null computed
  | receiveNewView v nu chi j sig =>
    rw [List.mem_singleton.mp new]
    exact brings _ rfl
  | _ => cases new

include carries null acts brings in
private theorem new_message (new : m ∈ a.newMessages cfg i s) : m.Carries text block := by
  cases a with
  | sendPrePrepare d data v n =>
    obtain ⟨-, -, -, -, ⟨r, known, digest, -⟩, -⟩ := acts.pre
    rw [List.mem_singleton.mp new]
    exact ⟨digest ▸ carries.request r known, brings⟩
  | sendPrepare d v n =>
    rw [List.mem_singleton.mp new]
    exact carries.prePrepared acts.pre.2.2.1
  | sendCommit d v n data =>
    rw [List.mem_singleton.mp new]
    exact brings
  | sendViewChange v =>
    obtain ⟨c, reported, rfl⟩ := List.mem_map.mp new
    exact carries.ownViewChange (Option.mem_toList.mp reported)
  | sendNewView nu chi =>
    obtain ⟨-, -, computed, -⟩ := acts.pre
    rw [List.mem_singleton.mp new]
    exact fun e => carries.chi null computed
  | processNewView hi nu chi =>
    simp only [Action.newMessages] at new
    split at new
    · cases new
    · obtain ⟨e, inside, rfl⟩ := List.mem_map.mp new
      exact (carries.processedChi null acts.pre inside).1
  | _ => cases new

include brings in
private theorem new_request {r : Request} (new : r ∈ a.newRequests s) : text r.reqDigest := by
  cases a with
  | receiveRequest d time =>
    simp only [Action.newRequests] at new
    split at new
    · cases new
    · rw [List.mem_singleton.mp new]
      exact brings
  | _ => cases new

include carries brings in
private theorem next_checkpoint {c : Checkpoint} (inside : c ∈ a.nextCheckpoint s) :
    text c.stateVal := by
  cases a with
  | receiveBlock height time blockHash =>
    rcases mem_assertzOnce.mp (List.mem_filter.mp inside).1 with old | rfl
    · exact carries.checkpoint c old
    · exact brings
  | _ => exact carries.checkpoint c inside

include carries in
private theorem next_pi {e : PiEntry} (listed : e ∈ a.nextViewChangePi cfg s) :
    text e.reqDigest := by
  cases a with
  | sendViewChange v => exact carries.updatedPi listed
  | receiveBlock height time blockHash => exact carries.pi e (List.mem_filter.mp listed).1
  | _ => exact carries.pi e listed

include carries in
private theorem next_qi {e : QiEntry} (listed : e ∈ a.nextViewChangeQi cfg s) :
    e.Carries text block := by
  cases a with
  | sendViewChange v => exact carries.updatedQi listed
  | receiveBlock height time blockHash => exact carries.qi e (List.mem_filter.mp listed).1
  | _ => exact carries.qi e listed

include carries acts in
private theorem next_active {x : RoastActive} (running : x ∈ t.roast.active) : text x.reqDigest := by
  rcases acts.active_some running with before | starts
  · exact carries.roastActive x before
  · subst starts
    exact carries.prepared (committed_iff.mp acts.pre.2.1).1

include carries null acts brings in
theorem step : t.Carries text block where
  request r inside := (acts.tables.request r inside).elim (carries.request r)
    (new_request brings)
  prePrepare m inside := (acts.mem_prePrepare inside).1.elim (carries.prePrepare m)
    (carries.new_prePrepare null acts brings)
  prepare m inside := (acts.mem_prepare.mp inside).1.elim (carries.prepare m)
    (carries.new_prepare null acts brings)
  commit m inside := (acts.mem_commit.mp inside).1.elim (carries.commit m) (new_commit brings)
  checkpoint _ inside := carries.next_checkpoint brings (acts.tables.checkpoint ▸ inside)
  viewChange m inside := (acts.mem_viewChange.mp inside).1.elim (carries.viewChange m)
    (carries.new_viewChange brings)
  newView m inside := (acts.tables.newView m inside).elim (carries.newView m)
    (carries.new_newView null acts brings)
  pi _ listed := carries.next_pi (acts.tables.viewChangePi ▸ listed)
  qi _ listed := carries.next_qi (acts.tables.viewChangeQi ▸ listed)
  msgOut m inside := (acts.tables.msgOut m inside).elim (carries.msgOut m)
    (carries.new_message null acts brings)
  roastActive _ running := carries.next_active acts running

end Replica.Carries

theorem Step.val_text (step : Step cfg i s (now, a) t) (brings : a.Brings text block)
    (executes : ∀ d ∈ a.stateVal, text d) (before : text s.val) : text t.val := by
  have kept : ∀ d n val, text val → text (applyExecute d n val s).val := by
    intro d n val handed
    unfold applyExecute
    split
    · exact handed
    · exact before
  have applied := step.apply
  cases a with
  | execute d v n val =>
    cases applied
    exact kept d n val (executes val rfl)
  | receiveBlock height time blockHash =>
    obtain ⟨r, -, -, rfl⟩ := applyReceiveBlock_spec applied
    exact kept r.reqDigest height blockHash brings
  | _ => exact (step.execution_same rfl).2.2 ▸ before

/-- The engine makes up no text: along a run from a block hash of the kind asked for, in which every
action hands over such texts only, all that is in the tables and all that was put out is of that
kind, "null" aside. -/
theorem carries_of_brings (null : text nullDigest) {height timestamp : ℕ} {hash : String}
    {view : Option ℕ} (brought : text hash) {labels : List (ℚ × Action)}
    (run : Path (Guarded (Step cfg i) fun _ l => l.2.Brings text block ∧
        ∀ d ∈ l.2.stateVal, text d)
      (initNotx cfg height hash timestamp view) labels t) : t.Carries text block ∧ text t.val := by
  have preserved : ∀ r l u, r.Carries text block ∧ text r.val →
      Guarded (Step cfg i) (fun _ l => l.2.Brings text block ∧ ∀ d ∈ l.2.stateVal, text d) r l u →
      u.Carries text block ∧ text u.val := by
    rintro r ⟨now, a⟩ u ⟨carries, val⟩ ⟨step, brings, executes⟩
    exact ⟨carries.step null step brings, step.val_text brings executes val⟩
  have whole := run.invariant preserved
  exact whole ⟨.initial brought, brought⟩

/-- The texts around block 1. -/
def AroundBlockOne (d : String) : Prop := d ∈ [nullDigest, "H0", "(H=1, T=60)", "p0", "p1", "p2"]

instance : DecidablePred AroundBlockOne := fun _ => inferInstanceAs (Decidable (_ ∈ _))

def joinsInViewZero : List (ℚ × Action) := commitsInViewZero ++ [(60, .roastInit "(H=1, T=60)" 0 1)]

theorem carries_of_brings_joinsInViewZero : ∃ t,
    exec fourReplicas 0 (fun _ l => l.2.Brings AroundBlockOne (· = "B60") ∧
      ∀ d ∈ l.2.stateVal, AroundBlockOne d) joinsInViewZero genesis = some t ∧
    t.msgOut ≠ [] ∧ t.msgLogCommit ≠ [] ∧ t.roast.active ≠ none ∧
    t.Carries AroundBlockOne (· = "B60") ∧ AroundBlockOne t.val := by
  have runs : ∃ t, exec fourReplicas 0 (fun _ l => l.2.Brings AroundBlockOne (· = "B60") ∧
      ∀ d ∈ l.2.stateVal, AroundBlockOne d) joinsInViewZero genesis = some t ∧
      t.msgOut ≠ [] ∧ t.msgLogCommit ≠ [] ∧ t.roast.active ≠ none := by
    decide +kernel
  obtain ⟨t, ran, sent, logged, running⟩ := runs
  exact ⟨t, ran, sent, logged, running,
    carries_of_brings (by decide) (by decide) (exec_path ran)⟩

end Fbft
