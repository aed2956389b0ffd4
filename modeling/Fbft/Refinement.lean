import Fbft.Deployment

/-! The processes of the replicas refine the cluster of engines. What the engines are handed was
said by the replica that it names, unless that one is faulty, and nothing is cut on the way: along
each run of the processes the engines go through a run of the cluster. -/
namespace Fbft

open Throwing LabelledPath

/-- Some run of the cluster leads there in which only replica `i` acts. -/
def Cluster.ActsAt (c : Cluster) (i : ℕ) (w w' : World) : Prop :=
  ∃ shown, Path c.Step w shown w' ∧ ∀ k, k ≠ i → w' k = w k

namespace Cluster.ActsAt

variable {c : Cluster} {i : ℕ} {w w' w'' : World} {now : ℚ} {a : Action} {t : Replica}

theorem refl (c : Cluster) (i : ℕ) (w : World) : c.ActsAt i w w := ⟨[], .nil, fun _ _ => rfl⟩

theorem trans (first : c.ActsAt i w w') (second : c.ActsAt i w' w'') : c.ActsAt i w w'' := by
  obtain ⟨shown, run, others⟩ := first
  obtain ⟨shown', run', others'⟩ := second
  exact ⟨shown ++ shown', run.append run', fun k other => (others' k other).trans (others k other)⟩

theorem grows (acts : c.ActsAt i w w') : Grows w w' := by
  obtain ⟨shown, run, -⟩ := acts
  exact Grows.path run

theorem single (correct : c.Correct i) (delivered : c.Delivered w a)
    (step : Fbft.Step c.cfg i (w i).state (now, a) t) :
    c.ActsAt i w (Function.update w i ((w i).record t)) := by
  refine ⟨[(i, now, a)], .single ⟨correct, delivered, ?_, ?_⟩, fun k other => ?_⟩
  · simpa [Node.record] using step
  · simp [Node.record]
  · exact Function.update_of_ne other _ _

end Cluster.ActsAt

theorem Cluster.Delivered.mono {c : Cluster} {w w' : World} {a : Action} (grows : Grows w w')
    (delivered : c.Delivered w a) : c.Delivered w' a :=
  fun x received => ⟨(delivered x received).1, (delivered x received).2.mono grows⟩

section

variable {Nonce Block : Type} {host : Host Nonce Block} {cfg : Config} {i : ℕ} {now : ℚ}
  {action : ActiveAction Nonce Block} {s t : Buffers Nonce Block}

def Buffers.Waits (s : Buffers Nonce Block) (m : BufferedMessage Block) : Prop :=
  some m ∈ s.inMsgBuffer ∨ some m ∈ s.inMsgAwaitingCheckpointBuffer

theorem waits_removeProcessed {getHash : Block → String} {success : Bool}
    {m processed : BufferedMessage Block}
    (removed : s.removeProcessed getHash success processed = .ok t) (waits : t.Waits m) :
    s.Waits m := by
  obtain ⟨place, -, rest⟩ := bind_eq_ok_iff.mp removed
  cases place with
  | none =>
    cases rest
    exact waits
  | some k =>
    obtain ⟨h, -, rest⟩ := bind_eq_ok_iff.mp rest
    split at rest
    · cases rest
      rcases waits with inside | inside
      · have kept := List.mem_of_mem_eraseIdx inside
        rcases List.mem_or_eq_of_mem_set kept with old | none
        · exact Or.inl old
        · cases none
      · rcases List.mem_append.mp inside with old | moved
        · exact Or.inr old
        · have located := Option.join_eq_some_iff.mp (List.mem_singleton.mp moved).symm
          exact Or.inl (List.mem_of_getElem? located)
    · cases rest
      exact waits.imp_left List.mem_of_mem_eraseIdx

theorem waits_apply (applied : s.apply host cfg i now action = .ok t)
    {m : BufferedMessage Block} (waits : t.Waits m) : s.Waits m := by
  cases action with
  | receive processed valid fresh =>
    obtain ⟨success, process, u, out, -, removed, -, rfl⟩ := Buffers.apply_receive_iff.mp applied
    have before := waits_removeProcessed removed waits
    unfold Buffers.retrieveAwaiting at before
    split at before
    · rcases before with inside | inside
      · exact List.mem_append.mp inside
      · cases inside
    · exact before
  | proceed e =>
    obtain ⟨⟨success, process⟩, -, rest⟩ := bind_eq_ok_iff.mp applied
    obtain ⟨_, unchanged, rest⟩ := bind_eq_ok_iff.mp rest
    cases unchanged
    obtain ⟨out, -, same⟩ := bind_eq_ok_iff.mp rest
    cases same
    exact waits

end

/-- The engine after `ClearOutMessageBuffer`. -/
def Replica.cleared (s : Replica) : Replica :=
  { s with msgOut := [], roast := { s.roast with msgOut := [] } }

theorem outputTables_of_reachable {cfg : Config} {i : ℕ} {s : Replica}
    (reached : Reachable (Initial cfg) (Step cfg i) s) : OutputTables s := by
  refine reached.invariant ?_ fun _ _ _ tables step => tables.apply step.apply
  rintro s ⟨height, hash, timestamp, view, rfl⟩
  exact outputTables_of_nil rfl

section

variable {Nonce Block : Type} {network : Network Block} {cfg : Config}
  {signmessage : String → String → Except Fault String} {i : ℕ} {now : ℚ}
  {s t : Replica2 Nonce Block}

theorem Sent.msgOut {host : Host Nonce Block} (sent : Sent host network cfg signmessage i s) :
    s.engine.msgOut = [] :=
  (List.append_eq_nil_iff.mp sent.tables).1

theorem Effect.pre_cleared {e : Effect Nonce Block} {p : Process Nonce Block} :
    e.pre cfg i now { p with engine := p.engine.cleared } ↔ e.pre cfg i now p := by
  cases e with
  | engine a => cases a <;> exact Iff.rfl
  | _ => exact Iff.rfl

theorem sent_for_facts {codec : BlockCodec Block} {s : Replica} {out sent : List (Incoming Block)}
    (built : updateOutMessageBuffer codec i s = .ok out)
    (signed : List.Forall₂ (fun msg m => Incoming.sign network cfg signmessage i msg = .ok m) out
      sent) :
    List.Forall₂ (fun fact m => ∃ msg signature, fact.toBeSent codec i s = .ok msg ∧
        m = Incoming.setSignature signature msg)
      (outTables.flatMap fun table => (outFacts s).filter fun m => m.msgType = table) sent := by
  refine (forall₂_comp (mapM_eq_ok_iff.mp built) signed).imp ?_
  rintro fact m ⟨msg, read, put⟩
  obtain ⟨signature, -, same⟩ := bind_eq_ok_iff.mp put
  exact ⟨msg, signature, read, (Except.ok.inj same).symm⟩

theorem exists_of_forall₂_right {α β : Type} {r : α → β → Prop} {l : List α} {l' : List β}
    (related : List.Forall₂ r l l') {b : β} (inside : b ∈ l') : ∃ a ∈ l, r a b := by
  induction related with
  | nil => cases inside
  | cons first _ ih =>
    rcases List.mem_cons.mp inside with rfl | later
    · exact ⟨_, List.mem_cons_self, first⟩
    · obtain ⟨a, member, same⟩ := ih later
      exact ⟨a, List.mem_cons_of_mem _ member, same⟩

theorem exists_of_forall₂_left {α β : Type} {r : α → β → Prop} {l : List α} {l' : List β}
    (related : List.Forall₂ r l l') {a : α} (inside : a ∈ l) : ∃ b ∈ l', r a b :=
  exists_of_forall₂_right related.flip inside

theorem mem_delivered {sent : List (Incoming Block)} {m : Incoming Block} :
    (.broadcast m : Event Nonce Block) ∈ sent.flatMap (delivered i) ↔ m ∈ sent := by
  rw [List.mem_flatMap]
  constructor
  · rintro ⟨m', inside, listed⟩
    rw [Replica2.delivered_eq] at listed
    split at listed
    · simp only [List.mem_cons, List.not_mem_nil, or_false, reduceCtorEq, false_or,
        Event.broadcast.injEq] at listed
      exact listed ▸ inside
    · simp only [List.mem_cons, List.not_mem_nil, or_false, Event.broadcast.injEq] at listed
      exact listed ▸ inside
  · intro inside
    refine ⟨m, inside, ?_⟩
    rw [Replica2.delivered_eq]
    split <;> simp

end

namespace Deployment

section

variable {Nonce Block : Type} (dep : Deployment Nonce Block)

/-- The engine may be called so: the call is active, its texts are plain, and its message was
said. -/
structure Allowed (w : World) (i : ℕ) (s : Replica) (a : Action) : Prop where
  admissible : a.admissible s
  pre : ∃ now, a.pre dep.cluster.cfg i now s
  brings : a.Brings Whole (Canonical dep.network.toBlockCodec)
  delivered : dep.cluster.Delivered w a

/-- Whatever the chain and the random generator answer, the message may be applied at any time. -/
def Admitted (w : World) (i : ℕ) (m : BufferedMessage Block) : Prop :=
  ∀ valid (fresh : Nonce) a,
    (m.receiveAction (dep.host i).toBlockCodec dep.cluster.cfg valid fresh).Calls (dep.host i) a →
    ∀ s, dep.Allowed w i s a

/-- The node of the cluster has the engine of the replica, and has sent what the replica has
broadcast or is about to broadcast; what the replica has put aside may be applied. -/
structure Tracks (w : World) (i : ℕ) (s : Replica2 Nonce Block) : Prop where
  state : (w i).state = s.engine
  reached : Reachable (Fbft.Initial dep.cluster.cfg) (Fbft.Step dep.cluster.cfg i) s.engine
  carries : s.engine.Carries Whole (Canonical dep.network.toBlockCodec)
  put : ∀ m ∈ s.engine.msgOut, m ∈ (w i).sent
  said : ∀ m, .broadcast m ∈ s.trace →
    (m.terms dep.network dep.cluster.cfg).isRoast = false →
    ∃ said ∈ (w i).sent, said.readAs (m.terms dep.network dep.cluster.cfg)
  heard : ∀ said ∈ (w i).sent, said ∈ s.engine.msgOut ∨ ∃ m, .broadcast m ∈ s.trace ∧
    said.readAs (m.terms dep.network dep.cluster.cfg)
  waiting : ∀ m, s.buffers.Waits m → dep.Admitted w i m

end

variable {Nonce Block : Type} {dep : Deployment Nonce Block} {w w' : World} {i : ℕ}
  {s t u : Replica2 Nonce Block} {now now' : ℚ} {action : ActiveAction Nonce Block}

theorem Allowed.mono {r : Replica} {a : Action} (grows : Grows w w')
    (allowed : dep.Allowed w i r a) : dep.Allowed w' i r a :=
  { allowed with delivered := allowed.delivered.mono grows }

theorem Admitted.mono {m : BufferedMessage Block} (grows : Grows w w')
    (admitted : dep.Admitted w i m) : dep.Admitted w' i m :=
  fun valid fresh a calls r => (admitted valid fresh a calls r).mono grows

theorem Tracks.mono (grows : Grows w w') (same : w' i = w i) (tracks : dep.Tracks w i s) :
    dep.Tracks w' i s where
  state := same ▸ tracks.state
  reached := tracks.reached
  carries := tracks.carries
  put m inside := grows.sent i m (tracks.put m inside)
  said m inside agreement := by
    obtain ⟨said, sent, reads⟩ := tracks.said m inside agreement
    exact ⟨said, grows.sent i said sent, reads⟩
  heard := same ▸ tracks.heard
  waiting m inside := (tracks.waiting m inside).mono grows

theorem Tracks.call (tracks : dep.Tracks w i s) (correct : dep.cluster.Correct i) {a : Action}
    {r : Replica} (allowed : dep.Allowed w i s.engine a)
    (applied : a.apply dep.cluster.cfg i s.engine = some r) :
    ∃ w', dep.cluster.ActsAt i w w' ∧ (w' i).state = r ∧
      Reachable (Fbft.Initial dep.cluster.cfg) (Fbft.Step dep.cluster.cfg i) r ∧
      r.Carries Whole (Canonical dep.network.toBlockCodec) ∧
      (∀ m, m ∈ (w' i).sent ↔ m ∈ (w i).sent ∨ m ∈ r.msgOut) ∧
      ∃ now, Fbft.Step dep.cluster.cfg i s.engine (now, a) r := by
  obtain ⟨now, pre⟩ := allowed.pre
  have step : Fbft.Step dep.cluster.cfg i s.engine (now, a) r := ⟨allowed.admissible, pre, applied⟩
  have null : Whole nullDigest := by decide
  refine ⟨Function.update w i ((w i).record r),
    .single correct allowed.delivered (tracks.state ▸ step), ?_,
    tracks.reached.extend (.single step), tracks.carries.step null step allowed.brings, ?_, now,
    step⟩
  · simp [Node.record]
  · intro m
    rw [Function.update_self]
    exact Node.mem_record_sent

theorem Tracks.apply (tracks : dep.Tracks w i s) (quiet : s.engine.msgOut = [])
    (correct : dep.cluster.Correct i)
    (applied : s.apply (dep.host i) dep.cluster.cfg i now now' action = .ok t)
    (allowed : ∀ a,
      (action.toEffect (dep.host i).toBlockCodec dep.cluster.cfg).Calls (dep.host i) a →
      dep.Allowed w i s.engine a) :
    ∃ w', dep.cluster.ActsAt i w w' ∧ dep.Tracks w' i t ∧
      (t.engine = s.engine ∨ ∃ now a, Fbft.Step dep.cluster.cfg i s.engine (now, a) t.engine) := by
  obtain ⟨buffers, ran, same⟩ := bind_eq_ok_iff.mp applied
  obtain ⟨called, -, trace⟩ := Replica2.apply_spec applied
  have waits : ∀ m, t.buffers.Waits m → s.buffers.Waits m := by
    cases same
    exact fun m => waits_apply ran
  have broadcast : ∀ m, .broadcast m ∈ t.trace ↔ .broadcast m ∈ s.trace := by
    intro m
    rw [trace]
    simp
  have heard : ∀ said ∈ (w i).sent, ∃ m, .broadcast m ∈ t.trace ∧
      said.readAs (m.terms dep.network dep.cluster.cfg) := by
    intro said sent
    rcases tracks.heard said sent with put | ⟨m, inside, reads⟩
    · rw [quiet] at put
      cases put
    · exact ⟨m, (broadcast m).mpr inside, reads⟩
  rcases called with unchanged | ⟨a, calls, engine⟩
  · refine ⟨w, .refl _ _ _, ⟨?_, ?_, ?_, ?_, ?_, ?_, ?_⟩, Or.inl unchanged⟩
    · rw [unchanged, tracks.state]
    · exact unchanged ▸ tracks.reached
    · exact unchanged ▸ tracks.carries
    · exact unchanged ▸ tracks.put
    · exact fun m inside => tracks.said m ((broadcast m).mp inside)
    · exact fun said sent => Or.inr (heard said sent)
    · exact fun m aside => tracks.waiting m (waits m aside)
  · obtain ⟨w', acts, state, reached, carries, sent, now, step⟩ :=
      tracks.call correct (allowed a calls) engine
    refine ⟨w', acts, ⟨state, reached, carries, fun m put => (sent m).mpr (Or.inr put), ?_, ?_, ?_⟩,
      Or.inr ⟨now, a, step⟩⟩
    · intro m inside agreement
      obtain ⟨said, old, reads⟩ := tracks.said m ((broadcast m).mp inside) agreement
      exact ⟨said, (sent said).mpr (Or.inl old), reads⟩
    · exact fun said new => ((sent said).mp new).symm.imp_right (heard said)
    · exact fun m aside => (tracks.waiting m (waits m aside)).mono acts.grows

theorem delivered_of_none {c : Cluster} {a : Action} (none : a.received = none) :
    c.Delivered w a := by
  intro x received
  rw [none] at received
  cases received

theorem brings_of_proceeds {e : Effect Nonce Block} {a : Action} (proceeds : e.Proceeds)
    (calls : e.Calls (dep.host i) a) :
    a.received = none ∧ a.Brings Whole (Canonical dep.network.toBlockCodec) := by
  cases e with
  | engine a' =>
    cases calls
    cases a <;> first | exact False.elim proceeds | exact ⟨rfl, nofun⟩
  | sendPrePrepare d v n generated =>
    obtain ⟨block, -, rfl⟩ := calls
    exact ⟨rfl, block, congrArg (fun codec => codec.getHex block) (dep.sameCodec i).symm⟩
  | sendCommit d v n fresh =>
    cases calls
    exact ⟨rfl, dep.wholeShare i fresh⟩
  | execute d v n =>
    obtain ⟨stateVal, rfl⟩ := calls
    exact ⟨rfl, nofun⟩
  | _ => cases proceeds

theorem admitted_roast {msg : Incoming Block}
    (roast : (msg.handed dep.network.toBlockCodec dep.cluster.cfg).isRoast = true) :
    dep.Admitted w i (.incoming msg) := by
  intro valid fresh a calls r
  have receives := Incoming.receives calls
  rw [dep.sameCodec] at receives
  refine ⟨receives.admissible r, ⟨0, receives.pre i 0 r⟩, receives.brings ?_, fun x received => ?_⟩
  · cases msg <;> first | exact trivial | cases roast
  · have agreement := (receives.received x received).1
    rw [roast] at agreement
    cases agreement

theorem admitted_of_verified {msg : Incoming Block}
    (plain : (msg.handed dep.network.toBlockCodec dep.cluster.cfg).Plain dep.network.toBlockCodec)
    (verified : msg.verifySignatures dep.network dep.cluster.cfg = .ok true)
    (origin : dep.cluster.Correct msg.senderId →
      (msg.terms dep.network dep.cluster.cfg).isRoast = false →
      ∃ said ∈ (w msg.senderId).sent, said.readAs (msg.terms dep.network dep.cluster.cfg)) :
    dep.Admitted w i (.incoming msg) := by
  obtain ⟨member, accepted⟩ := verifySignatures_eq_ok_iff.mp verified
  intro valid fresh a calls r
  have receives := Incoming.receives calls
  rw [dep.sameCodec] at receives
  refine ⟨receives.admissible r, ⟨0, receives.pre i 0 r⟩, receives.brings plain,
    fun x received => ?_⟩
  obtain ⟨agreement, rfl⟩ := receives.received x received
  have whole := Incoming.terms_eq_handed dep.wholeHex agreement plain
  refine ⟨?_, member, ?_⟩
  · rw [dep.hashes.digest_eq msg, whole] at accepted
    exact (dep.verifies _ _ _).mpr accepted
  · by_cases faulty : msg.senderId ∈ dep.cluster.faulty
    · exact Or.inl faulty
    · rw [← whole]
      exact Or.inr (origin ⟨member, faulty⟩ (Incoming.isRoast_terms.trans agreement))

/-- The active actions are those of an update of this state. -/
structure Ready (dep : Deployment Nonce Block) (i : ℕ) (s : Replica2 Nonce Block) : Prop where
  receives : ∀ m valid fresh, s.activeActions (.receive m valid fresh) →
    some m ∈ s.buffers.inMsgBuffer
  proceeds : ∃ now, ∀ e, s.activeActions (.proceed e) →
    e.Proceeds ∧ e.pre dep.cluster.cfg i now s.buffers.process

theorem Ready.updated : dep.Ready i (s.updateActiveActions dep.cluster.cfg i now) :=
  ⟨fun _ _ _ inside => inside, now, fun _ active => active⟩

theorem Ready.allowed (ready : dep.Ready i s) (tracks : dep.Tracks w i s)
    (active : s.activeActions action) {a : Action}
    (calls : (action.toEffect (dep.host i).toBlockCodec dep.cluster.cfg).Calls (dep.host i) a) :
    dep.Allowed w i s.engine a := by
  cases action with
  | receive m valid fresh =>
    exact tracks.waiting m (Or.inl (ready.receives m valid fresh active)) valid fresh a calls _
  | proceed e =>
    obtain ⟨now, proceeds⟩ := ready.proceeds
    obtain ⟨follows, pre⟩ := proceeds e active
    obtain ⟨none, brings⟩ := brings_of_proceeds follows calls
    obtain ⟨admissible, enabled⟩ := Effect.Calls.pre calls pre
    exact ⟨admissible, ⟨now, enabled⟩, brings, delivered_of_none none⟩

theorem Tracks.reads (tracks : dep.Tracks w i s) (correct : dep.cluster.Correct i)
    (numbers : Numbers32 s.engine) (fits : ∀ m ∈ s.engine.msgOut, m.Fits32) {fact : Message}
    {msg : Incoming Block} (put : fact ∈ s.engine.msgOut)
    (read : fact.toBeSent (dep.host i).toBlockCodec i s.engine = .ok msg) :
    fact.readAs (msg.terms dep.network dep.cluster.cfg) := by
  rw [dep.sameCodec] at read
  have agreement := (outputTables_of_reachable tracks.reached).plain fact put
  have plain := tracks.carries.msgOut fact put
  have reads := reads_of_toBeSent (correct.1.trans_le dep.small) (Digested.reachable tracks.reached)
    (PrePrepareLog.reachable tracks.reached).2 numbers (fits fact put) plain agreement read
  have ordinary : (msg.handed dep.network.toBlockCodec dep.cluster.cfg).isRoast = false :=
    (isRoast_of_toBeSent read).trans agreement
  rw [Incoming.terms_eq_handed dep.wholeHex ordinary (Message.Plain.read plain reads)]
  exact reads

/-- What is broadcast is a message for a fact in the tables, and each of these has one. -/
theorem Tracks.sends (tracks : dep.Tracks w i s) (correct : dep.cluster.Correct i)
    (numbers : Numbers32 s.engine) (fits : ∀ m ∈ s.engine.msgOut, m.Fits32)
    {out sent : List (Incoming Block)}
    (built : updateOutMessageBuffer (dep.host i).toBlockCodec i s.engine = .ok out)
    (signed : List.Forall₂ (fun msg m => Incoming.sign dep.network dep.cluster.cfg
      (dep.signmessage i) i msg = .ok m) out sent) :
    (∀ m ∈ sent, (m.terms dep.network dep.cluster.cfg).isRoast = false →
      ∃ fact ∈ s.engine.msgOut, fact.readAs (m.terms dep.network dep.cluster.cfg)) ∧
    ∀ fact ∈ s.engine.msgOut, ∃ m ∈ sent, fact.readAs (m.terms dep.network dep.cluster.cfg) := by
  have related := sent_for_facts built signed
  have tables := outputTables_of_reachable tracks.reached
  constructor
  · intro m inside agreement
    obtain ⟨fact, table, msg, signature, read, rfl⟩ := exists_of_forall₂_right related inside
    rw [Incoming.terms_setSignature] at agreement ⊢
    have built : (msg.handed dep.network.toBlockCodec dep.cluster.cfg).isRoast = fact.isRoast := by
      rw [← dep.sameCodec i]
      exact isRoast_of_toBeSent read
    have plain : fact.isRoast = false :=
      built.symm.trans (Incoming.isRoast_terms.symm.trans agreement)
    rcases List.mem_append.mp ((outTables_perm s.engine).mem_iff.mp table) with put | roast
    · exact ⟨fact, put, tracks.reads correct numbers fits put read⟩
    · have other := tables.roast.roast fact roast
      rw [plain] at other
      cases other
  · intro fact put
    have table := (outTables_perm s.engine).mem_iff.mpr (List.mem_append_left _ put)
    obtain ⟨m, inside, msg, signature, read, rfl⟩ := exists_of_forall₂_left related table
    refine ⟨_, inside, ?_⟩
    rw [Incoming.terms_setSignature]
    exact tracks.reads correct numbers fits put read

theorem mem_ownMessages {sent : List (Incoming Block)} {m : BufferedMessage Block}
    (inside : some m ∈ ownMessages (sent.flatMap (delivered i) : List (Event Nonce Block))) :
    ∃ msg, m = .incoming msg ∧ Replica2.Injects i msg := by
  obtain ⟨e, listed, taken⟩ := List.mem_filterMap.mp inside
  obtain ⟨msg, -, event⟩ := List.mem_flatMap.mp listed
  rw [Replica2.delivered_eq] at event
  split at event
  · rename_i injects
    rcases List.mem_pair.mp event with rfl | rfl
    · exact ⟨msg, (Option.some.inj (Option.some.inj taken)).symm, injects⟩
    · cases taken
  · rw [List.mem_singleton.mp event] at taken
    cases taken

theorem Tracks.broadcast (tracks : dep.Tracks w i s) (ready : dep.Ready i s)
    (correct : dep.cluster.Correct i) (numbers : Numbers32 s.engine)
    (fits : ∀ m ∈ s.engine.msgOut, m.Fits32)
    (built : updateOutMessageBuffer (dep.host i).toBlockCodec i s.engine =
      .ok s.buffers.outMsgBuffer)
    (done : s.broadcastMessages dep.network dep.cluster.cfg (dep.signmessage i) i = .ok t) :
    ∃ w', dep.cluster.ActsAt i w w' ∧ dep.Tracks w' i t ∧ dep.Ready i t := by
  obtain ⟨sent, signed, trace, own, -, -⟩ := Replica2.broadcastMessages_spec done
  rcases broadcastMessages_cases done with rfl | kept
  · exact ⟨w, .refl _ _ _, tracks, ready⟩
  have engine : t.engine = s.engine.cleared := congrArg Process.engine kept.process
  have allowed : dep.Allowed w i s.engine .msgOutClearAll :=
    ⟨trivial, ⟨0, trivial⟩, nofun, delivered_of_none rfl⟩
  obtain ⟨w', acts, state, reached, carries, mem_sent, -⟩ :=
    tracks.call correct allowed (r := s.engine.cleared) rfl
  have same : ∀ m, m ∈ (w' i).sent ↔ m ∈ (w i).sent := by
    intro m
    rw [mem_sent]
    exact or_iff_left (List.not_mem_nil (a := m))
  have broadcast : ∀ m, .broadcast m ∈ t.trace ↔ .broadcast m ∈ s.trace ∨ m ∈ sent := by
    intro m
    rw [trace, List.mem_append, mem_delivered]
  obtain ⟨origin, answers⟩ := tracks.sends correct numbers fits built signed
  refine ⟨w', acts, ⟨state.trans engine.symm, engine ▸ reached, engine ▸ carries, ?_,
    fun m inside agreement => ?_, fun said new => Or.inr ?_, fun m aside => ?_⟩,
    fun m valid fresh active => ?_, ?_⟩
  · rw [engine]
    nofun
  · rcases (broadcast m).mp inside with old | new
    · obtain ⟨said, before, reads⟩ := tracks.said m old agreement
      exact ⟨said, (same said).mpr before, reads⟩
    · obtain ⟨fact, put, reads⟩ := origin m new agreement
      exact ⟨fact, (same fact).mpr (tracks.put fact put), reads⟩
  · rcases tracks.heard said ((same said).mp new) with put | ⟨m, old, reads⟩
    · obtain ⟨m, inside, reads⟩ := answers said put
      exact ⟨m, (broadcast m).mpr (Or.inr inside), reads⟩
    · exact ⟨m, (broadcast m).mpr (Or.inl old), reads⟩
  · rcases aside with inside | inside
    · rw [own, List.mem_append] at inside
      rcases inside with old | injected
      · exact (tracks.waiting m (Or.inl old)).mono acts.grows
      · obtain ⟨msg, rfl, meant⟩ := mem_ownMessages injected
        refine admitted_roast ?_
        cases msg <;> first | rfl | cases meant
    · rw [kept.awaiting] at inside
      exact (tracks.waiting m (Or.inr inside)).mono acts.grows
  · rw [kept.activeActions] at active
    rw [own]
    exact List.mem_append_left _ (ready.receives m valid fresh active)
  · obtain ⟨now, proceeds⟩ := ready.proceeds
    refine ⟨now, fun e active => ?_⟩
    rw [kept.activeActions] at active
    obtain ⟨follows, pre⟩ := proceeds e active
    rw [kept.process]
    exact ⟨follows, Effect.pre_cleared.mpr pre⟩

theorem inBounds_of_append {more : List (Event Nonce Block)} (bounds : t.InBounds)
    (trace : t.trace = s.trace ++ more) : s.InBounds :=
  fun action before after inside =>
    bounds action before after (trace ▸ List.mem_append_left more inside)

theorem trace_applyAndBroadcast {host : Host Nonce Block} {network : Network Block} {cfg : Config}
    {signmessage : String → String → Except Fault String}
    (round : s.applyAndBroadcast host network cfg signmessage i now now' action = .ok t) :
    ∃ more, t.trace = s.trace ++ more := by
  obtain ⟨u, applied, rest⟩ := bind_eq_ok_iff.mp round
  obtain ⟨-, -, trace⟩ := Replica2.apply_spec applied
  obtain ⟨sent, -, trace', -⟩ := Replica2.broadcastMessages_spec rest
  exact ⟨_, by rw [trace', trace, List.append_assoc]⟩

theorem trace_loop {host : Host Nonce Block} {network : Network Block} {cfg : Config}
    {signmessage : String → String → Except Fault String} {n : ℕ}
    (loop : ApplyActiveActions host network cfg signmessage i n s t) :
    ∃ more, t.trace = s.trace ++ more := by
  induction loop with
  | stop => exact ⟨[], (List.append_nil _).symm⟩
  | apply _ round _ ih =>
    obtain ⟨more, trace⟩ := trace_applyAndBroadcast round
    obtain ⟨more', trace'⟩ := ih
    exact ⟨more ++ more', by rw [trace', trace, List.append_assoc]⟩

theorem Tracks.round (tracks : dep.Tracks w i s) (ready : dep.Ready i s)
    (sent : Sent (dep.host i) dep.network dep.cluster.cfg (dep.signmessage i) i s)
    (correct : dep.cluster.Correct i) (active : s.activeActions action)
    (round : s.applyAndBroadcast (dep.host i) dep.network dep.cluster.cfg (dep.signmessage i) i
      now now' action = .ok t) (bounds : t.InBounds) :
    ∃ w', dep.cluster.ActsAt i w w' ∧ dep.Tracks w' i t ∧ dep.Ready i t := by
  obtain ⟨u, applied, rest⟩ := bind_eq_ok_iff.mp round
  obtain ⟨-, built, trace⟩ := Replica2.apply_spec applied
  obtain ⟨msgs, -, trace', -⟩ := Replica2.broadcastMessages_spec rest
  obtain ⟨before, after⟩ := bounds action s.engine u.engine (by
    rw [trace', trace]
    simp)
  have empty := sent.msgOut
  obtain ⟨w', acts, tracks', engine⟩ :=
    tracks.apply empty correct applied fun a => ready.allowed tracks active
  have ready' : dep.Ready i u := by
    obtain ⟨buffers, -, same⟩ := bind_eq_ok_iff.mp applied
    cases same
    exact Ready.updated
  have fits : ∀ m ∈ u.engine.msgOut, m.Fits32 := by
    intro m put
    rcases engine with unchanged | ⟨now, a, step⟩
    · rw [unchanged, empty] at put
      cases put
    · rcases step.tables.msgOut m put with old | new
      · rw [empty] at old
        cases old
      · obtain ⟨inv, log⟩ := PrePrepareLog.reachable tracks.reached
        exact fits32_of_new inv log step before after new
  obtain ⟨w'', acts', tracks'', ready''⟩ :=
    tracks'.broadcast ready' correct after.numbers fits built rest
  exact ⟨w'', acts.trans acts', tracks'', ready''⟩

theorem Tracks.loop {n : ℕ} (loop : ApplyActiveActions (dep.host i) dep.network dep.cluster.cfg
      (dep.signmessage i) i n s t) (tracks : dep.Tracks w i s) (ready : dep.Ready i s)
    (sent : Sent (dep.host i) dep.network dep.cluster.cfg (dep.signmessage i) i s)
    (correct : dep.cluster.Correct i) (bounds : t.InBounds) :
    ∃ w', dep.cluster.ActsAt i w w' ∧ dep.Tracks w' i t := by
  induction loop generalizing w with
  | stop => exact ⟨w, .refl _ _ _, tracks⟩
  | apply active round rest ih =>
    obtain ⟨more, trace⟩ := trace_loop rest
    obtain ⟨w', acts, tracks', ready'⟩ :=
      tracks.round ready sent correct active round (inBounds_of_append bounds trace)
    obtain ⟨w'', acts', tracks''⟩ :=
      ih tracks' ready' (Replica2.sent_applyAndBroadcast sent round) bounds
    exact ⟨w'', acts.trans acts', tracks''⟩

theorem whole_requestDigest (genesis target timestamp : ℕ) :
    Whole (requestDigest genesis target timestamp) ∧
      requestDigest genesis target timestamp ≠ nullDigest := by
  have opening : (requestDigest genesis target timestamp).toList.head? = some '(' := by
    simp [requestDigest, String.toList_append]
  constructor
  · simp only [Whole, requestDigest, String.toList_append, List.mem_append, not_or]
    exact ⟨⟨⟨⟨by decide, whole_repr _⟩, by decide⟩, whole_repr _⟩, by decide⟩
  · intro same
    rw [same] at opening
    revert opening
    decide

theorem generateRequests_keeps {host : Host Nonce Block} {network : Network Block}
    {cfg : Config} {fresh : Nonce} {p : Replica2 Nonce Block → Prop}
    (keeps : ∀ r u genesis timestamp, p r →
      r.apply host cfg i now now (.receive (.request ⟨genesis, cfg.targetBlockTime, timestamp⟩)
        false fresh) = .ok u → p u)
    (generated : s.generateRequests host network cfg i now fresh = .ok t) (before : p s) :
    p t := by
  unfold Replica2.generateRequests at generated
  generalize maxNumGeneratedRequests = fuel at generated
  induction fuel generalizing s with
  | zero =>
    cases generated
    exact before
  | succ fuel ih =>
    unfold Replica2.generateRequestsLoop at generated
    split at generated
    · obtain ⟨next, applied, rest⟩ := bind_eq_ok_iff.mp generated
      exact ih (keeps _ _ _ _ before applied) rest
    · cases generated
      exact before

theorem Tracks.generateRequests {fresh : Nonce} (tracks : dep.Tracks w i s)
    (sent : Sent (dep.host i) dep.network dep.cluster.cfg (dep.signmessage i) i s)
    (correct : dep.cluster.Correct i)
    (generated : s.generateRequests (dep.host i) dep.network dep.cluster.cfg i now fresh = .ok t) :
    ∃ w', dep.cluster.ActsAt i w w' ∧ dep.Tracks w' i t ∧
      Sent (dep.host i) dep.network dep.cluster.cfg (dep.signmessage i) i t ∧
      t.engine.checkpoint = s.engine.checkpoint := by
  refine generateRequests_keeps (p := fun u => ∃ w', dep.cluster.ActsAt i w w' ∧
    dep.Tracks w' i u ∧ Sent (dep.host i) dep.network dep.cluster.cfg (dep.signmessage i) i u ∧
    u.engine.checkpoint = s.engine.checkpoint) ?_ generated ⟨w, .refl _ _ _, tracks, sent, rfl⟩
  rintro r u genesis timestamp ⟨w', acts, tracks', sent', checkpoint⟩ applied
  obtain ⟨w'', acts', tracks'', -⟩ := tracks'.apply sent'.msgOut correct applied (by
    rintro a rfl
    obtain ⟨whole, named⟩ := whole_requestDigest _ _ _
    exact ⟨named, ⟨0, trivial⟩, whole, delivered_of_none rfl⟩)
  refine ⟨w'', acts.trans acts', tracks'', Replica2.sent_apply sent' applied ?_, ?_⟩
  · rintro a rfl requested
    exact (outFacts_receiveRequest requested).trans sent'.tables
  · rcases (Replica2.apply_spec applied).1 with same | ⟨a, rfl, called⟩
    · rw [same, checkpoint]
    · exact (Action.tables called).checkpoint.trans checkpoint

theorem Tracks.updated (tracks : dep.Tracks w i s) :
    dep.Tracks w i (s.updateActiveActions dep.cluster.cfg i now) :=
  ⟨tracks.state, tracks.reached, tracks.carries, tracks.put, tracks.said, tracks.heard,
    tracks.waiting⟩

theorem Tracks.pushed {msg : Incoming Block} (tracks : dep.Tracks w i s)
    (admitted : dep.Admitted w i (.incoming msg)) :
    dep.Tracks w i (s.pushMessage dep.cluster.cfg i now msg) := by
  refine ⟨tracks.state, tracks.reached, tracks.carries, tracks.put, tracks.said, tracks.heard,
    fun m aside => ?_⟩
  rcases aside with inside | inside
  · rcases List.mem_append.mp inside with old | new
    · exact tracks.waiting m (Or.inl old)
    · cases List.mem_singleton.mp new
      exact admitted
  · exact tracks.waiting m (Or.inr inside)

/-- The nodes of the cluster track the correct replicas, and nothing waits to be sent. -/
structure Follows (dep : Deployment Nonce Block) (ps : Processes Nonce Block) (w : World) :
    Prop where
  tracks : ∀ k, dep.cluster.Correct k → dep.Tracks w k (ps k)
  sent : ∀ k, dep.cluster.Correct k →
    Sent (dep.host k) dep.network dep.cluster.cfg (dep.signmessage k) k (ps k)

variable {ps ps' : Processes Nonce Block} {l : ℕ × Operation Block}
  {labels : List (ℕ × Operation Block)}

theorem Follows.initial (start : dep.Initial ps) :
    dep.cluster.Initial (fun k => ⟨(ps k).engine, [], []⟩) ∧
      dep.Follows ps fun k => ⟨(ps k).engine, [], []⟩ := by
  refine ⟨fun k correct => ?_, fun k correct => ?_, fun k correct => (start k correct).1.sent⟩
  · obtain ⟨-, height, hash, timestamp, -, fresh⟩ := start k correct
    exact ⟨height, hash, timestamp, congrArg (fun s => (⟨s, [], []⟩ : Node)) fresh⟩
  · obtain ⟨process, height, hash, timestamp, whole, fresh⟩ := start k correct
    refine ⟨rfl, .of_init process.process.engine, fresh ▸ Replica.Carries.initial whole, ?_, ?_,
      nofun, ?_⟩
    · rw [fresh]
      nofun
    · rw [process.trace]
      nofun
    · rintro m (inside | inside)
      · rw [process.inMsgBuffer] at inside
        cases inside
      · rw [process.inMsgAwaitingCheckpointBuffer] at inside
        cases inside

/-- What a correct replica has signed it has said. -/
theorem Follows.origin (follows : dep.Follows ps w) {msg : Incoming Block}
    (correct : dep.cluster.Correct msg.senderId)
    (signed : (ps msg.senderId).Signed dep.network dep.cluster.cfg
      (msg.digest dep.network dep.cluster.cfg))
    (agreement : (msg.terms dep.network dep.cluster.cfg).isRoast = false) :
    ∃ said ∈ (w msg.senderId).sent, said.readAs (msg.terms dep.network dep.cluster.cfg) := by
  obtain ⟨m, broadcast, digest⟩ := signed
  obtain ⟨same, -⟩ := Message.dict_inj.mp (dep.hashes.inj dep.collisionFree dep.injective digest)
  rw [← same] at agreement ⊢
  exact (follows.tracks _ correct).said m broadcast agreement

/-- The operation of one replica is a run of its node. -/
theorem Follows.operation (follows : dep.Follows ps w) (step : dep.UncutStep ps l ps') :
    ∃ w', dep.cluster.ActsAt l.1 w w' ∧ dep.Tracks w' l.1 (ps' l.1) := by
  obtain ⟨i, op⟩ := l
  obtain ⟨⟨correct, promised, moves, -⟩, input, bounds⟩ := step
  have tracks := follows.tracks i correct
  have sent := follows.sent i correct
  generalize ended : ps' i = u at moves bounds ⊢
  cases moves with
  | checkTimedActions generated loop =>
    obtain ⟨w', acts, tracks', sent', -⟩ := tracks.generateRequests sent correct generated
    obtain ⟨w'', acts', tracks''⟩ := tracks'.updated.loop loop Ready.updated
      ⟨sent'.tables, sent'.buffer, sent'.trace⟩ correct bounds
    exact ⟨w'', acts.trans acts', tracks''⟩
  | receiveBlock generated applied =>
    obtain ⟨w', acts, tracks', sent', checkpoint⟩ := tracks.generateRequests sent correct generated
    obtain ⟨w'', acts', tracks'', -⟩ := tracks'.apply sent'.msgOut correct applied (by
      rintro a rfl
      refine ⟨?_, ⟨0, trivial⟩, input, delivered_of_none rfl⟩
      intro h low
      rw [getH, checkpoint] at low
      exact promised h low)
    exact ⟨w'', acts.trans acts', tracks''⟩
  | receiveSigned identified generated verified loop =>
    obtain ⟨w', acts, tracks', sent', -⟩ := tracks.generateRequests sent correct generated
    have admitted := admitted_of_verified (i := i) (input verified) verified fun honest agreement =>
      follows.origin honest (promised verified honest) agreement
    obtain ⟨w'', acts', tracks''⟩ := (tracks'.pushed (admitted.mono acts.grows)).loop loop
      Ready.updated ⟨sent'.tables, sent'.buffer, sent'.trace⟩ correct bounds
    exact ⟨w'', acts.trans acts', tracks''⟩
  | discard identified generated rejected =>
    obtain ⟨w', acts, tracks', -⟩ := tracks.generateRequests sent correct generated
    exact ⟨w', acts, tracks'⟩

theorem Follows.step (follows : dep.Follows ps w) (step : dep.UncutStep ps l ps') :
    ∃ shown w', Path dep.cluster.Step w shown w' ∧ dep.Follows ps' w' := by
  obtain ⟨w', acts, tracks⟩ := follows.operation step
  obtain ⟨shown, run, others⟩ := acts
  refine ⟨shown, w', run, fun k correct => ?_, fun k correct => ?_⟩ <;> by_cases same : k = l.1
  · exact same ▸ tracks
  · rw [step.step.others k same]
    exact (follows.tracks k correct).mono (Grows.path run) (others k same)
  · subst same
    exact step.step.moves.sent (follows.sent l.1 correct)
  · rw [step.step.others k same]
    exact follows.sent k correct

theorem Follows.run (follows : dep.Follows ps w) (run : Path dep.UncutStep ps labels ps') :
    ∃ shown w', Path dep.cluster.Step w shown w' ∧ dep.Follows ps' w' :=
  run.simulates (fun _ _ _ _ related step => related.step step) follows

end Deployment

variable {Nonce Block : Type} {dep : Deployment Nonce Block} {ps ps' : Processes Nonce Block}
  {labels : List (ℕ × Operation Block)}

/-- The processes refine the cluster: along every run of operations in which nothing is cut, with
whatever the network delivers, the engines of the correct replicas go through a run of the cluster,
and what they have broadcast of the agreement protocol is what their nodes have sent. -/
theorem cluster_of_processes (start : dep.Initial ps) (run : Path dep.UncutStep ps labels ps') :
    ∃ w shown w', dep.cluster.Initial w ∧ Path dep.cluster.Step w shown w' ∧
      ∀ k, dep.cluster.Correct k → (w k).state = (ps k).engine ∧ (w' k).state = (ps' k).engine ∧
        (∀ m, .broadcast m ∈ (ps' k).trace → (m.terms dep.network dep.cluster.cfg).isRoast = false →
          ∃ said ∈ (w' k).sent, said.readAs (m.terms dep.network dep.cluster.cfg)) ∧
        ∀ said ∈ (w' k).sent, ∃ m, .broadcast m ∈ (ps' k).trace ∧
          said.readAs (m.terms dep.network dep.cluster.cfg) := by
  obtain ⟨fresh, follows⟩ := Deployment.Follows.initial start
  obtain ⟨shown, w', moves, follows'⟩ := follows.run run
  refine ⟨_, shown, w', fresh, moves, fun k correct => ?_⟩
  have tracks := follows'.tracks k correct
  refine ⟨rfl, tracks.state, tracks.said, fun said sent => ?_⟩
  rcases tracks.heard said sent with put | broadcast
  · rw [(follows'.sent k correct).msgOut] at put
    cases put
  · exact broadcast

/-- Whatever two correct processes prepare for one view and number, at whatever times and under
whatever the network delivers, is one request. -/
theorem processes_prepare_one {ps₀ : Processes Nonce Block} {labels' : List (ℕ × Operation Block)}
    {i j v n : ℕ} {d d' : String} (one : dep.cluster.OneSignature) (start : dep.Initial ps₀)
    (run : Path dep.UncutStep ps₀ labels ps) (later : Path dep.UncutStep ps labels' ps')
    (correct : dep.cluster.Correct i) (correct' : dep.cluster.Correct j)
    (certificate : prepared dep.cluster.cfg d v n (ps i).engine)
    (certificate' : prepared dep.cluster.cfg d' v n (ps' j).engine) : d = d' := by
  obtain ⟨fresh, follows₀⟩ := Deployment.Follows.initial start
  obtain ⟨shown, w, moves, follows⟩ := follows₀.run run
  obtain ⟨shown', w', moves', follows'⟩ := follows.run later
  have reached : Reachable dep.cluster.Initial dep.cluster.Step w := ⟨_, shown, fresh, moves⟩
  obtain ⟨inv, certifying⟩ := Certifying.reachable one reached
  obtain ⟨inv', certifying'⟩ := Certifying.reachable one (reached.extend moves')
  rw [← (follows.tracks i correct).state] at certificate
  rw [← (follows'.tracks j correct').state] at certificate'
  have certified := (certifying i correct).certified inv correct certificate
  exact inv'.certified_unique (certified.mono (Grows.path moves'))
    ((certifying' j correct').certified inv' correct' certificate')

def hexNetwork (signed : List (ℕ × String)) : Network Bool where
  toBlockCodec := hexBlocks
  readJson _ := .ok none
  sha := (writtenNetwork signed).sha
  atomJsonDict := (writtenNetwork signed).atomJsonDict
  genesisBlockTimestamp := 0
  p2pkh := (writtenNetwork signed).p2pkh
  verifymessage := (writtenNetwork signed).verifymessage

def hexHost (i : ℕ) : Host ℕ Bool where
  toBlockCodec := hexBlocks
  commitments := (textHost i).commitments
  sign block := (textHost i).sign (hexBlocks.getHex block)
  pubkeyLoad := (textHost i).pubkeyLoad
  aggregate block := (textHost i).aggregate (hexBlocks.getHex block)
  verify block := (textHost i).verify (hexBlocks.getHex block)
  appendSignetSolution block _ := .ok block
  getHash := hexBlocks.getHex
  nTime _ := 60
  submitBlock height block := (textHost i).submitBlock height (hexBlocks.getHex block)

def preparedTexts : List (ℕ × String) :=
  [(0, String.ofList ((Message.prePrepare 0 1 "(H=1, T=60)" "aa").dict 0).write),
    (1, String.ofList ((Message.prepare 0 1 "(H=1, T=60)").dict 1).write),
    (2, String.ofList ((Message.prepare 0 1 "(H=1, T=60)").dict 2).write)]

def hexCluster : Cluster :=
  { writtenCluster with
    verify := fun j m sig => preparedTexts.any fun x => Nat.repr x.1 = Nat.repr j ∧
      sig = "S" ++ Nat.repr j ∧ x.2 = String.ofList (m.dict j).write }

theorem hexCluster_oneSignature : hexCluster.OneSignature := by
  have named : ∀ j m sig, hexCluster.verify j m sig = true → sig = "S" ++ Nat.repr j := by
    intro j m sig valid
    obtain ⟨x, -, same⟩ := List.any_eq_true.mp valid
    exact (of_decide_eq_true same).2.1
  exact fun j m sig sig' valid valid' => (named j m sig valid).trans (named j m sig' valid').symm

def hexDeployment : Deployment ℕ Bool where
  cluster := hexCluster
  network := hexNetwork preparedTexts
  host := hexHost
  signmessage _ address _ := .ok ("S" ++ address)
  small := by decide
  sameCodec _ := rfl
  hashes _ := rfl
  collisionFree := Function.injective_id
  injective := Json.write_injOn
  verifies := by
    intro j m sig
    exact ⟨fun valid => congrArg Except.ok valid, Except.ok.inj⟩
  wholeHex block := by cases block <;> decide
  wholeShare i nonce := by
    have number := whole_repr
    simp only [Whole] at number
    simp only [Whole, serializeSigningCommitment, String.toList_append, List.mem_append, not_or]
    refine ⟨⟨⟨⟨number _, by decide⟩, ?_⟩, by decide⟩, ?_⟩ <;>
      simpa [hexHost, textHost] using number nonce

def freshProcesses : Processes ℕ Bool := fun i =>
  let buffers : Buffers ℕ Bool :=
    ⟨⟨initNotx writtenReplicas 0 "H0" 0 none, ⟨none, false⟩, [], [], []⟩, [], [], []⟩
  ⟨buffers, updatedActions writtenReplicas i 0 buffers, []⟩

theorem freshProcesses_initial : hexDeployment.Initial freshProcesses := fun _ _ =>
  ⟨⟨⟨⟨0, "H0", 0, none, rfl⟩, rfl, rfl, rfl, rfl⟩, rfl, rfl, rfl, ⟨0, rfl⟩, rfl⟩, 0, "H0", 0,
    by decide, rfl⟩

def takes (i : ℕ) (msg : Incoming Bool) (chosen : List (ActiveAction ℕ Bool)) : ℕ × Turn ℕ Bool :=
  (i, ⟨.receiveIncomingMessage msg, 60, true, 0, .receive (.incoming msg) true 0 :: chosen⟩)

def processesPrepare : List (ℕ × Turn ℕ Bool) :=
  [(0, ⟨.checkTimedActions, 60, true, 0,
      [.proceed (.sendPrePrepare "(H=1, T=60)" 0 1 (some true))]⟩),
    takes 1 (.prePrepare ⟨0, "S0", 0, 1, "(H=1, T=60)", true⟩)
      [.proceed (.engine (.sendPrepare "(H=1, T=60)" 0 1))],
    takes 1 (.prepare ⟨2, "S2", 0, 1, "(H=1, T=60)"⟩) [],
    takes 0 (.prepare ⟨1, "S1", 0, 1, "(H=1, T=60)"⟩) [],
    takes 0 (.prepare ⟨2, "S2", 0, 1, "(H=1, T=60)"⟩) []]

theorem processesPrepare_runs : ∃ ps, hexDeployment.exec processesPrepare freshProcesses = some ps ∧
    prepared writtenReplicas "(H=1, T=60)" 0 1 (ps 0).engine ∧
    prepared writtenReplicas "(H=1, T=60)" 0 1 (ps 1).engine := by
  decide +kernel

theorem cluster_of_processes_prepare : ∃ ps w shown w',
    hexDeployment.exec processesPrepare freshProcesses = some ps ∧
    Path hexCluster.Step w shown w' ∧
    prepared writtenReplicas "(H=1, T=60)" 0 1 (w' 0).state ∧
    prepared writtenReplicas "(H=1, T=60)" 0 1 (w' 1).state := by
  obtain ⟨ps, ran, certificate, certificate'⟩ := processesPrepare_runs
  obtain ⟨w, shown, w', -, moves, all⟩ :=
    cluster_of_processes freshProcesses_initial (Deployment.exec_path ran)
  refine ⟨ps, w, shown, w', ran, moves, ?_, ?_⟩
  · rw [(all 0 (by decide)).2.1]
    exact certificate
  · rw [(all 1 (by decide)).2.1]
    exact certificate'

theorem processes_prepare_one_proposal : ∃ ps,
    hexDeployment.exec processesPrepare freshProcesses = some ps ∧
    prepared writtenReplicas "(H=1, T=60)" 0 1 (ps 0).engine ∧
    ∀ d, prepared writtenReplicas d 0 1 (ps 1).engine → "(H=1, T=60)" = d := by
  obtain ⟨ps, ran, certificate, -⟩ := processesPrepare_runs
  refine ⟨ps, ran, certificate, fun d certificate' => ?_⟩
  exact processes_prepare_one (i := 0) (j := 1) hexCluster_oneSignature freshProcesses_initial
    (Deployment.exec_path ran) .nil (by decide) (by decide) certificate certificate'

end Fbft
