import Fbft.Outgoing
import Fbft.Process
import Fbft.RoastTables

/-! The facts in the output tables: what an action adds, each fact once, and the ROAST messages
in tables of their own. -/
namespace Fbft

open Database

variable {cfg : Config} {i : ℕ} {s t : Replica} {a : Action} {r r' : Roast}

section

attribute [local simp] Action.newMessages msgLogAddPrePrepare msgLogAddPrepare msgLogAddCommit
  msgLogAddCommitViewRecovery msgLogAddViewChange msgLogAddNewView msgOutAdd setView
  msgLogClearWhereViewLessThan

theorem Action.msgOut_eq (h : a.apply cfg i s = some t) (other : a ≠ .msgOutClearAll) :
    t.msgOut = assertzAll (a.newMessages cfg i s) s.msgOut := by
  cases a with
  | msgOutClearAll => exact absurd rfl other
  | setSyntheticTime _ | sendPrePrepare _ _ _ _ | sendPrepare _ _ _ | sendCommit _ _ _ _
  | recoverView _ | sendNewView _ _ =>
    cases h
    rfl
  | receiveRequest d time =>
    cases h
    unfold applyReceiveRequest
    split <;> rfl
  | receivePrePrepare v n d data j sig =>
    obtain ⟨-, -, -, -, -, rfl⟩ := applyReceivePrePrepare_spec h
    simp
  | receivePrepare v n d j sig =>
    obtain ⟨-, -, -, rfl⟩ := applyReceivePrepare_spec h
    simp
  | receiveCommit v n data j sig =>
    obtain ⟨-, ⟨-, r, -, rfl⟩ | ⟨-, -, rfl⟩⟩ := applyReceiveCommit_spec h <;> simp
  | execute d v n val =>
    cases h
    obtain ⟨lastExec, lastRep, val', same, -, -⟩ := applyExecute_eq d n val s
    rw [same]
    rfl
  | receiveBlock height time blockHash =>
    obtain ⟨r, -, -, rfl⟩ := applyReceiveBlock_spec h
    obtain ⟨lastExec, lastRep, val', same, -, -⟩ := applyExecute_eq r.reqDigest height blockHash s
    rw [same]
    rfl
  | sendViewChange v =>
    obtain ⟨c, reported, rfl⟩ := applySendViewChange_spec h
    simp [reported, enterViewChange_eq]
  | receiveViewChange v hi c pi qi j sig =>
    obtain ⟨-, -, -, -, rfl⟩ := applyReceiveViewChange_spec h
    simp
  | receiveNewView v nu chi j sig =>
    obtain ⟨-, -, -, -, rfl | rfl⟩ := applyReceiveNewView_spec h <;> simp
  | processNewView hi nu chi =>
    cases h
    rw [applyProcessNewView_eq]
    rfl
  | roastInit _ _ _ | receivePreSignature _ _ _ _ | receiveSigShare _ _ _ =>
    obtain ⟨r, -, rfl⟩ := updateRoast_spec h
    rfl

end

def Message.isRoast : Message → Bool
  | roastPreSignature .. => true
  | roastSignatureShare .. => true
  | _ => false

theorem Action.newMessages_isRoast {m : Message} (new : m ∈ a.newMessages cfg i s) :
    m.isRoast = false := by
  cases a with
  | sendPrePrepare _ _ _ _ | sendPrepare _ _ _ | sendCommit _ _ _ _ | sendNewView _ _ =>
    rw [List.mem_singleton.mp new]
    rfl
  | sendViewChange v =>
    obtain ⟨c, -, rfl⟩ := List.mem_map.mp new
    rfl
  | processNewView hi nu chi =>
    simp only [newMessages] at new
    split at new
    · cases new
    · obtain ⟨e, -, rfl⟩ := List.mem_map.mp new
      rfl
  | _ => cases new

/-- Each fact once, and none but ROAST messages. -/
structure RoastOutput (r : Roast) : Prop where
  once : r.msgOut.Nodup
  roast : ∀ m ∈ r.msgOut, m.isRoast = true

theorem RoastOutput.add {m : Message} (output : RoastOutput r) (roast : m.isRoast = true)
    (same : r'.msgOut = assertzOnce m r.msgOut) : RoastOutput r' := by
  refine ⟨same ▸ nodup_assertzOnce output.once, fun m' inside => ?_⟩
  rw [same] at inside
  rcases mem_assertzOnce.mp inside with old | rfl
  · exact output.roast m' old
  · exact roast

theorem RoastOutput.of_eq (output : RoastOutput r) (same : r'.msgOut = r.msgOut) :
    RoastOutput r' :=
  ⟨same ▸ output.once, same ▸ output.roast⟩

theorem roastOutput_nil (none : r.msgOut = []) : RoastOutput r := by
  constructor <;> simp [none]

theorem storeSignatureShare_msgOut {j : ℕ} {share : Option String}
    (h : storeSignatureShare j share r = some r') : r'.msgOut = r.msgOut := by
  rcases storeSignatureShare_spec h with ⟨-, rfl⟩ | ⟨session, -, -, rfl⟩ <;> rfl

theorem RoastOutput.initiateSession (output : RoastOutput r)
    (h : Fbft.initiateSession cfg r = some r') : RoastOutput r' := by
  simp only [Fbft.initiateSession] at h
  split at h
  · obtain ⟨counter, -, rfl⟩ := Option.map_eq_some_iff.mp h
    obtain ⟨-, -, -, -, -, -, out⟩ :=
      assignSignersSid_frame r.responsiveSigner (counter + 1) (setRoastSessionCounter (counter + 1) r)
    refine output.add rfl (m := .roastPreSignature r.responsiveSigner
      (roastCryptoPreSigAggregate (lookupPreSignatureShares r.responsiveSigner r))) ?_
    simp only [roastClearResponsiveSigners, setRoastSignatureSession, roastMsgOutAdd, out]
    rfl
  · exact Option.some.inj h ▸ output

theorem RoastOutput.receiveSigShare {j : ℕ} {share : Option String} {next : String}
    (output : RoastOutput r) (h : applyReceiveSigShare cfg j share next i r = some r') :
    RoastOutput r' := by
  obtain ⟨-, -, -, -, stored, store, ends⟩ := applyReceiveSigShare_spec h
  have kept : stored.msgOut = r.msgOut := by
    obtain ⟨malicious, marked, -⟩ := markUnsolicited_frame j r
    rw [storeSignatureShare_msgOut store, marked]
  have output' := output.of_eq kept
  rcases ends with ⟨-, rfl⟩ | ⟨-, opens⟩
  · exact output'
  · have marked : RoastOutput (roastMarkResponsive j (setLatestPreSignatureShare j next stored)) :=
      output'.of_eq rfl
    exact marked.initiateSession opens

theorem RoastOutput.receiveCommitShares {commits : List Commit} (output : RoastOutput r)
    (h : Fbft.receiveCommitShares cfg i commits r = some r') : RoastOutput r' := by
  induction commits generalizing r with
  | nil => exact Option.some.inj h ▸ output
  | cons m commits ih =>
    obtain ⟨next, first, rest⟩ := Option.bind_eq_some_iff.mp h
    exact ih (output.receiveSigShare first) rest

structure OutputTables (s : Replica) : Prop where
  once : s.msgOut.Nodup
  plain : ∀ m ∈ s.msgOut, m.isRoast = false
  roast : RoastOutput s.roast

theorem OutputTables.nodup (tables : OutputTables s) : (outFacts s).Nodup := by
  refine List.nodup_append.mpr ⟨tables.once, tables.roast.once, fun m inside m' roast same => ?_⟩
  have different := tables.roast.roast m' roast
  rw [← same, tables.plain m inside] at different
  cases different

theorem outputTables_of_nil (none : outFacts s = []) : OutputTables s := by
  obtain ⟨plain, roast⟩ := List.append_eq_nil_iff.mp none
  exact ⟨by simp [plain], by simp [plain], roastOutput_nil roast⟩

theorem RoastOutput.nextRoast (output : RoastOutput s.roast)
    (h : a.nextRoast cfg i s = some r') : RoastOutput r' := by
  cases a with
  | msgOutClearAll | receiveBlock _ _ _ =>
    cases h
    exact roastOutput_nil rfl
  | receiveCommit v n data j sig =>
    simp only [Action.nextRoast] at h
    split at h
    · exact output.receiveSigShare h
    · exact Option.some.inj h ▸ output
  | sendViewChange v =>
    cases h
    exact output.of_eq rfl
  | roastInit d v n =>
    simp only [Action.nextRoast, applyRoastInit] at h
    split at h
    · have started : RoastOutput (setRoastSessionCounter 0
          (setRoastActive (some ⟨v, n, d⟩) s.roast)) := output.of_eq rfl
      exact started.receiveCommitShares h
    · cases h
      exact output.of_eq rfl
  | receivePreSignature signers preSignature share next =>
    simp only [Action.nextRoast, applyReceivePreSignature] at h
    split at h
    · exact Option.some.inj h ▸ output.add rfl rfl
    · cases h
  | receiveSigShare j share next => exact output.receiveSigShare h
  | _ => exact Option.some.inj h ▸ output

theorem OutputTables.apply (tables : OutputTables s) (h : a.apply cfg i s = some t) :
    OutputTables t := by
  have roast := tables.roast.nextRoast (Action.tables h).roast
  by_cases clears : a = .msgOutClearAll
  · subst clears
    cases h
    exact ⟨List.nodup_nil, nofun, roast⟩
  · have same := Action.msgOut_eq h clears
    refine ⟨same ▸ nodup_assertzAll tables.once, fun m inside => ?_, roast⟩
    rw [same] at inside
    rcases mem_assertzAll.mp inside with old | new
    · exact tables.plain m old
    · exact Action.newMessages_isRoast new

/-- What an action adds to the output tables. -/
def addedFacts (s t : Replica) : List Message := (outFacts t).filter fun m => m ∉ outFacts s

theorem addedFacts_of_nil (none : outFacts s = []) : addedFacts s t = outFacts t := by
  simp [addedFacts, none]

theorem nodup_addedFacts (none : outFacts s = []) (h : t = s ∨ ∃ a : Action, a.apply cfg i s = some t) :
    (addedFacts s t).Nodup := by
  rw [addedFacts_of_nil none]
  rcases h with rfl | ⟨a, h⟩
  · rw [none]
    exact List.nodup_nil
  · exact ((outputTables_of_nil none).apply h).nodup

theorem outFacts_receiveRequest {d : String} {time : ℕ}
    (h : (Action.receiveRequest d time).apply cfg i s = some t) : outFacts t = outFacts s := by
  cases h
  unfold applyReceiveRequest
  split <;> rfl

theorem outFacts_receiveBlock {height time : ℕ} {blockHash : String}
    (h : (Action.receiveBlock height time blockHash).apply cfg i s = some t)
    (none : outFacts s = []) : outFacts t = [] := by
  have plain : t.msgOut = s.msgOut := Action.msgOut_eq h nofun
  have roast : roastCollectGarbage = t.roast := Option.some.inj (Action.tables h).roast
  rw [outFacts, plain, (List.append_eq_nil_iff.mp none).1, ← roast]
  rfl

theorem flatMap_filter_perm {α κ : Type} [DecidableEq κ] (key : α → κ) (l : List α) {keys : List κ}
    (distinct : keys.Nodup) :
    (keys.flatMap fun k => l.filter fun a => key a = k).Perm (l.filter fun a => key a ∈ keys) := by
  induction keys with
  | nil => simp
  | cons k keys ih =>
    obtain ⟨absent, rest⟩ := List.nodup_cons.mp distinct
    rw [List.flatMap_cons]
    refine ((ih rest).append_left _).trans ?_
    have split := List.filter_append_perm (fun a => decide (key a = k))
      (l.filter fun a => key a ∈ k :: keys)
    refine (List.Perm.of_eq ?_).trans split
    rw [List.filter_filter, List.filter_filter]
    congr 1
    · refine List.filter_congr fun a _ => ?_
      by_cases same : key a = k <;> simp [same]
    · refine List.filter_congr fun a _ => ?_
      by_cases same : key a = k
      · simp [same, absent]
      · simp [same]

theorem outTables_perm (s : Replica) :
    (outTables.flatMap fun table => (outFacts s).filter fun m => m.msgType = table).Perm
      (outFacts s) := by
  have distinct : outTables.Nodup := by decide
  refine (flatMap_filter_perm Message.msgType (outFacts s) distinct).trans ?_
  rw [List.filter_eq_self.mpr]
  intro m _
  cases m <;> simp [Message.msgType, outTables]

end Fbft
