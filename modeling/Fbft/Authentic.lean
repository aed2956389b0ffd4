import Fbft.Journal

/-! Where the facts in the tables of a correct replica come from: each of them was said by
the replica named in it, or that replica is faulty. -/
namespace Fbft

open Database LabelledPath

variable {c : Cluster} {w w' : World} {l : ClusterLabel} {i j k : ℕ}

/-- What a primary has proposed for a view and number: in a PRE_PREPARE, or in the Chi of
a NEW_VIEW, which no replica accepts for view 0. -/
def Node.Proposes (x : Node) (v n : ℕ) (d : String) (data : Data) : Prop :=
  (∃ block, data = some block ∧ .prePrepare v n d block ∈ x.sent) ∨
  (0 < v ∧ ∃ nu chi, .newView v nu chi ∈ x.sent ∧ ⟨n, d, data⟩ ∈ chi)

/-- The primary of the entry has proposed it, block and all, or is faulty. -/
def Cluster.Proposed (c : Cluster) (w : World) (m : PrePrepare) : Prop :=
  primary c.cfg m.v ∈ c.faulty ∨
  ∃ data, (w (primary c.cfg m.v)).Proposes m.v m.n m.reqDigest data ∧
    (data = none ∨ m.data = data)

/-- The tables of replica `i` hold what was said. -/
structure Genuine (c : Cluster) (w : World) (i : ℕ) : Prop where
  prePrepare : ∀ m ∈ (w i).logged, c.Proposed w m
  prepare : ∀ m ∈ (w i).state.msgLogPrepare,
    c.Authentic w m.senderId (.prepare m.v m.n m.reqDigest)
  prepareSig : ∀ m ∈ (w i).state.msgLogPrepare, m.senderId ≠ i →
    c.verify m.senderId (.prepare m.v m.n m.reqDigest) m.senderSig = true
  commit : ∀ m ∈ (w i).state.msgLogCommit, c.Authentic w m.senderId (.commit m.v m.n m.data)
  commitViewRecovery : ∀ m ∈ (w i).state.msgLogCommitViewRecovery, ∃ data,
    c.Authentic w m.senderId (.commit m.v m.n data)
  viewChange : ∀ m ∈ (w i).state.msgLogViewChange, c.Authentic w m.senderId m.message
  newView : ∀ m ∈ (w i).state.msgLogNewView,
    c.Authentic w (primary c.cfg m.v) (.newView m.v m.nu m.chi)

theorem primary_lt (cfg : Config) (v : ℕ) : primary cfg v < cfg.clusterSize :=
  Nat.mod_lt _ cfg.clusterSize_pos

@[simp] theorem Message.readAs_refl (m : Message) : m.readAs m := by
  cases m with
  | newView v nu chi => exact ⟨rfl, rfl, List.forall₂_same.mpr fun _ _ => ⟨rfl, rfl, Or.inr rfl⟩⟩
  | _ => rfl

theorem exists_sent_entry {sent received : List ChiEntry} {e : ChiEntry}
    (read : List.Forall₂ ChiEntry.readAs sent received) (inside : e ∈ received) :
    ∃ e' ∈ sent, e'.readAs e := by
  induction read with
  | nil => cases inside
  | cons head _ ih =>
    rcases List.mem_cons.mp inside with rfl | later
    · exact ⟨_, List.mem_cons_self, head⟩
    · obtain ⟨e', member, same⟩ := ih later
      exact ⟨e', List.mem_cons_of_mem _ member, same⟩

/-- Histories only grow. -/
structure Grows (w w' : World) : Prop where
  sent : ∀ k, ∀ m ∈ (w k).sent, m ∈ (w' k).sent
  logged : ∀ k, ∀ m ∈ (w k).logged, m ∈ (w' k).logged

theorem Grows.refl (w : World) : Grows w w := ⟨fun _ _ h => h, fun _ _ h => h⟩

theorem Grows.trans (first : Grows w w') (second : Grows w' w'') : Grows w w'' :=
  ⟨fun k m h => second.sent k m (first.sent k m h),
    fun k m h => second.logged k m (first.logged k m h)⟩

theorem Cluster.Authentic.mono (grows : Grows w w') (said : c.Authentic w j m) :
    c.Authentic w' j m := by
  obtain ⟨member, faulty | ⟨said, inside, read⟩⟩ := said
  · exact ⟨member, Or.inl faulty⟩
  · exact ⟨member, Or.inr ⟨said, grows.sent j said inside, read⟩⟩

theorem Node.Proposes.mono (grows : Grows w w') (proposes : (w k).Proposes v n d data) :
    (w' k).Proposes v n d data := by
  rcases proposes with ⟨block, same, said⟩ | ⟨positive, nu, chi, said, inside⟩
  · exact Or.inl ⟨block, same, grows.sent k _ said⟩
  · exact Or.inr ⟨positive, nu, chi, grows.sent k _ said, inside⟩

theorem Cluster.Proposed.mono (grows : Grows w w') (proposed : c.Proposed w m) :
    c.Proposed w' m := by
  rcases proposed with faulty | ⟨data, proposes, same⟩
  · exact Or.inl faulty
  · exact Or.inr ⟨data, proposes.mono grows, same⟩

theorem Node.Logged.mono (grows : Grows w w') (logged : (w k).Logged v n d) :
    (w' k).Logged v n d := by
  obtain ⟨m, inside, entry⟩ := logged
  exact ⟨m, grows.logged k m inside, entry⟩

theorem Cluster.Authentic.sent (said : c.Authentic w j m) (correct : j ∉ c.faulty) :
    ∃ said ∈ (w j).sent, said.readAs m :=
  said.2.resolve_left correct

theorem Cluster.Authentic.of_sent (member : j < c.cfg.clusterSize) (said : m ∈ (w j).sent) :
    c.Authentic w j m :=
  ⟨member, Or.inr ⟨m, said, m.readAs_refl⟩⟩

theorem Message.readAs_prePrepare {m : Message} (read : m.readAs (.prePrepare v n d data)) :
    m = .prePrepare v n d data := by
  cases m <;> cases read
  rfl

theorem Message.readAs_prepare {m : Message} (read : m.readAs (.prepare v n d)) :
    m = .prepare v n d := by
  cases m <;> cases read
  rfl

theorem Message.readAs_commit {m : Message} (read : m.readAs (.commit v n data)) :
    m = .commit v n data := by
  cases m <;> cases read
  rfl

theorem Message.readAs_viewChange {m : Message} (read : m.readAs (.viewChange v hi digest pi qi)) :
    m = .viewChange v hi digest pi qi := by
  cases m <;> cases read
  rfl

theorem Message.readAs_newView {m : Message} (read : m.readAs (.newView v nu chi)) :
    ∃ chi', m = .newView v nu chi' ∧ List.Forall₂ ChiEntry.readAs chi' chi := by
  cases m with
  | newView v' nu' chi' =>
    obtain ⟨rfl, rfl, entries⟩ := read
    exact ⟨chi', rfl, entries⟩
  | _ => cases read

namespace Cluster.Step

theorem at_self (step : c.Step w l w') : w' l.1 = (w l.1).record (w' l.1).state := by
  conv_lhs => rw [step.recorded]
  simp

theorem at_other (step : c.Step w l w') (other : k ≠ l.1) : w' k = w k := by
  rw [step.recorded, Function.update_of_ne other]

theorem grows (step : c.Step w l w') : Grows w w' := by
  constructor
  · intro k m inside
    by_cases self : k = l.1
    · subst self
      rw [step.at_self]
      exact Node.mem_record_sent.mpr (Or.inl inside)
    · rwa [step.at_other self]
  · intro k m inside
    by_cases self : k = l.1
    · subst self
      rw [step.at_self]
      exact Node.mem_record_logged.mpr (Or.inl inside)
    · rwa [step.at_other self]

theorem authentic_new (step : c.Step w l w')
    (new : m ∈ l.2.2.newMessages c.cfg l.1 (w l.1).state) : c.Authentic w' l.1 m := by
  refine Authentic.of_sent step.correct.1 ?_
  rw [step.at_self]
  exact Journal.new_sent step.step new

theorem authentic_received (step : c.Step w l w') (received : l.2.2.received = some (j, m, sig)) :
    c.Authentic w' j m :=
  (step.delivered _ received).2.mono step.grows

end Cluster.Step

theorem Data.unify_some {a b data : Data} (h : Data.unify a b = some data) (bound : a = some x) :
    data = some x := by
  subst bound
  cases b with
  | none => exact (Option.some.inj h).symm
  | some y =>
    simp only [Data.unify] at h
    split at h
    · exact (Option.some.inj h).symm
    · cases h

theorem proposed_of_processNewView (genuine : Genuine c w i) (started : 0 < (w i).state.view)
    (pre : preProcessNewView c.cfg hi nu chi i (w i).state)
    (inside : m ∈ prePreparesOfChi c.cfg (w i).state.view chi) : c.Proposed w m := by
  obtain ⟨e, entry, rfl⟩ := List.mem_map.mp inside
  obtain ⟨x, logged, view, -, -, computed, -, unified⟩ := correctNewView_spec pre.2.1
  have said := genuine.newView x logged
  rw [view] at said
  by_cases faulty : primary c.cfg (w i).state.view ∈ c.faulty
  · exact Or.inl faulty
  obtain ⟨message, sent, read⟩ := said.sent faulty
  obtain ⟨sentChi, rfl, entries⟩ := Message.readAs_newView read
  obtain ⟨a, inChi, b, -, same⟩ := mem_unifyChi unified entry
  obtain ⟨e', inSent, number, digest, data⟩ := exists_sent_entry entries inChi
  obtain ⟨numberB, digestB, numberA, digestA, unifies⟩ := ChiEntry.unify_spec same
  refine Or.inr ⟨e'.data, Or.inr ⟨started, x.nu, sentChi, sent, ?_⟩, ?_⟩
  · have entry' : e' = ⟨e.n, e.reqDigest, e'.data⟩ := by
      rw [show e.n = e'.n by omega, digestB, ← digestA, digest]
    exact entry' ▸ inSent
  · rcases data with unbound | same
    · exact Or.inl unbound
    · cases bound : e'.data with
      | none => exact Or.inl rfl
      | some block => exact Or.inr (Data.unify_some unifies (same.trans bound))

namespace Genuine

theorem initial (start : c.Initial w) (correct : c.Correct i) : Genuine c w i := by
  obtain ⟨height, hash, timestamp, fresh⟩ := start i correct
  constructor <;> simp [fresh, initNotx, setView]

theorem mono (genuine : Genuine c w i) (grows : Grows w w') (same : w' i = w i) :
    Genuine c w' i where
  prePrepare := by
    rw [same]
    exact fun m inside => (genuine.prePrepare m inside).mono grows
  prepare := by
    rw [same]
    exact fun m inside => (genuine.prepare m inside).mono grows
  prepareSig := by
    rw [same]
    exact genuine.prepareSig
  commit := by
    rw [same]
    exact fun m inside => (genuine.commit m inside).mono grows
  commitViewRecovery := by
    rw [same]
    intro m inside
    obtain ⟨data, said⟩ := genuine.commitViewRecovery m inside
    exact ⟨data, said.mono grows⟩
  viewChange := by
    rw [same]
    exact fun m inside => (genuine.viewChange m inside).mono grows
  newView := by
    rw [same]
    exact fun m inside => (genuine.newView m inside).mono grows

private theorem new_prePrepare (step : c.Step w (i, now, a) w') (genuine : Genuine c w i)
    (started : (w i).state.activeView = false → 0 < (w i).state.view)
    (new : m ∈ a.newPrePrepares c.cfg i (w i).state) : c.Proposed w' m := by
  have acts := step.step
  cases a with
  | sendPrePrepare d data v n =>
    have sender : primary c.cfg v = i := by
      obtain ⟨-, sender, -, window, -⟩ := acts.pre
      rw [window.2, sender]
    have said : .prePrepare v n d data ∈ (w' i).sent := by
      rw [step.at_self]
      exact Journal.new_sent acts (List.mem_singleton.mpr rfl)
    rw [List.mem_singleton.mp new]
    exact Or.inr ⟨some data, Or.inl ⟨data, rfl, by rwa [sender]⟩, Or.inr rfl⟩
  | receivePrePrepare v n d data j sig =>
    obtain ⟨-, sender, window, -⟩ := applyReceivePrePrepare_spec acts.apply
    have said := step.authentic_received rfl
    rw [List.mem_singleton.mp new]
    by_cases faulty : j ∈ c.faulty
    · exact Or.inl (by rwa [window.2, sender])
    · obtain ⟨message, sent, read⟩ := said.sent faulty
      rw [Message.readAs_prePrepare read] at sent
      exact Or.inr ⟨some data, Or.inl ⟨data, rfl, by rwa [window.2, sender, ← window.2]⟩,
        Or.inr rfl⟩
  | processNewView hi nu chi =>
    exact (proposed_of_processNewView genuine (started acts.pre.1) acts.pre new).mono step.grows
  | _ => cases new

private theorem new_prepare (step : c.Step w (i, now, a) w')
    (new : m ∈ a.newPrepares c.cfg i (w i).state) :
    c.Authentic w' m.senderId (.prepare m.v m.n m.reqDigest) := by
  cases a with
  | sendPrepare d v n =>
    rw [List.mem_singleton.mp new]
    exact step.authentic_new (List.mem_singleton.mpr rfl)
  | receivePrepare v n d j sig =>
    rw [List.mem_singleton.mp new]
    exact step.authentic_received rfl
  | processNewView hi nu chi =>
    simp only [Action.newPrepares] at new
    split at new
    · cases new
    · rename_i backup
      obtain ⟨e, inside, rfl⟩ := List.mem_map.mp new
      refine step.authentic_new ?_
      simp only [Action.newMessages, if_neg backup]
      exact List.mem_map.mpr ⟨e, inside, rfl⟩
  | _ => cases new

private theorem new_prepareSig (step : c.Step w (i, now, a) w')
    (new : m ∈ a.newPrepares c.cfg i (w i).state) (other : m.senderId ≠ i) :
    c.verify m.senderId (.prepare m.v m.n m.reqDigest) m.senderSig = true := by
  cases a with
  | sendPrepare d v n =>
    rw [List.mem_singleton.mp new] at other
    exact absurd rfl other
  | receivePrepare v n d j sig =>
    rw [List.mem_singleton.mp new]
    exact (step.delivered _ rfl).1
  | processNewView hi nu chi =>
    simp only [Action.newPrepares] at new
    split at new
    · cases new
    · obtain ⟨e, -, rfl⟩ := List.mem_map.mp new
      exact absurd rfl other
  | _ => cases new

private theorem new_commit (step : c.Step w (i, now, a) w')
    (new : m ∈ a.newCommits i (w i).state) :
    c.Authentic w' m.senderId (.commit m.v m.n m.data) := by
  cases a with
  | sendCommit d v n data =>
    rw [List.mem_singleton.mp new]
    exact step.authentic_new (List.mem_singleton.mpr rfl)
  | receiveCommit v n data j sig =>
    simp only [Action.newCommits] at new
    split at new
    · rw [List.mem_singleton.mp new]
      exact step.authentic_received rfl
    · cases new
  | _ => cases new

private theorem new_commitViewRecovery (step : c.Step w (i, now, a) w')
    (new : m ∈ a.newCommitViewRecoveries (w i).state) :
    ∃ data, c.Authentic w' m.senderId (.commit m.v m.n data) := by
  cases a with
  | receiveCommit v n data j sig =>
    simp only [Action.newCommitViewRecoveries] at new
    split at new
    · cases new
    · rw [List.mem_singleton.mp new]
      exact ⟨data, step.authentic_received rfl⟩
  | _ => cases new

private theorem new_viewChange (step : c.Step w (i, now, a) w')
    (new : m ∈ a.newViewChanges c.cfg i (w i).state) : c.Authentic w' m.senderId m.message := by
  cases a with
  | sendViewChange v =>
    obtain ⟨checkpoint, reported, rfl⟩ := List.mem_map.mp new
    exact step.authentic_new (List.mem_map.mpr ⟨checkpoint, reported, rfl⟩)
  | receiveViewChange v hi digest pi qi j sig =>
    rw [List.mem_singleton.mp new]
    exact step.authentic_received rfl
  | _ => cases new

private theorem new_newView (step : c.Step w (i, now, a) w')
    (new : m ∈ a.newNewViews (w i).state) :
    c.Authentic w' (primary c.cfg m.v) (.newView m.v m.nu m.chi) := by
  cases a with
  | sendNewView nu chi =>
    have sender : primary c.cfg (w i).state.view = i := step.step.pre.1
    rw [List.mem_singleton.mp new]
    simp only [sender]
    exact step.authentic_new (List.mem_singleton.mpr rfl)
  | receiveNewView v nu chi j sig =>
    obtain ⟨-, -, -, sender, -⟩ := applyReceiveNewView_spec step.step.apply
    rw [List.mem_singleton.mp new]
    simp only [← sender]
    exact step.authentic_received rfl
  | _ => cases new

theorem step_self (genuine : Genuine c w i) (journal : Journal c.cfg i (w i))
    (started : (w i).state.activeView = false → 0 < (w i).state.view)
    (step : c.Step w (i, now, a) w') : Genuine c w' i := by
  have acts := step.step
  have grows := step.grows
  constructor
  · intro m logged
    rw [step.at_self] at logged
    rcases journal.mem_logged acts logged with old | new
    · exact (genuine.prePrepare m old).mono grows
    · exact new_prePrepare step genuine started new
  · intro m logged
    rcases (acts.mem_prepare.mp logged).1 with old | new
    · exact (genuine.prepare m old).mono grows
    · exact new_prepare step new
  · intro m logged
    rcases (acts.mem_prepare.mp logged).1 with old | new
    · exact genuine.prepareSig m old
    · exact new_prepareSig step new
  · intro m logged
    rcases (acts.mem_commit.mp logged).1 with old | new
    · exact (genuine.commit m old).mono grows
    · exact new_commit step new
  · intro m logged
    rw [acts.tables.commitViewRecovery, mem_assertzAll] at logged
    rcases logged with old | new
    · obtain ⟨data, said⟩ := genuine.commitViewRecovery m old
      exact ⟨data, said.mono grows⟩
    · exact new_commitViewRecovery step new
  · intro m logged
    rcases (acts.mem_viewChange.mp logged).1 with old | new
    · exact (genuine.viewChange m old).mono grows
    · exact new_viewChange step new
  · intro m logged
    rcases acts.tables.newView m logged with old | new
    · exact (genuine.newView m old).mono grows
    · exact new_newView step new

end Genuine

end Fbft
