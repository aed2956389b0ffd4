import Fbft.Buffers
import Fbft.OutputTables
import Fbft.Signing

/-! The operations of `Replica2`: what an applied action puts out is signed and handed to the
transport before the next action is applied. -/
namespace Fbft

open Throwing LabelledPath

/-- What is seen from outside the engine: an action that was applied, with the engine before and
after it, a message that was put into the own input buffer, and one handed to the transport. -/
inductive Event (Nonce Block : Type) where
  | applied (action : ActiveAction Nonce Block) (before after : Replica)
  | injected (m : Incoming Block)
  | broadcast (m : Incoming Block)

/-- The active actions are those of the last update. The trace is a history: nothing reads it. -/
structure Replica2 (Nonce Block : Type) where
  buffers : Buffers Nonce Block
  activeActions : ActiveAction Nonce Block → Prop
  trace : List (Event Nonce Block)

/-- The nine kinds of actions that follow from the state. -/
def Effect.Proceeds {Nonce Block : Type} : Effect Nonce Block → Prop
  | .execute .. | .sendCommit .. | .sendPrePrepare .. => True
  | .engine (.sendPrepare ..) | .engine (.sendViewChange ..) | .engine (.recoverView ..)
  | .engine (.sendNewView ..) | .engine (.processNewView ..) | .engine (.roastInit ..) => True
  | _ => False

def maxNumAppliedActions : ℕ := 11

section

variable {Nonce Block : Type} (host : Host Nonce Block) (network : Network Block) (cfg : Config)
  (signmessage : String → String → Except Fault String) (i : ℕ)

def updatedActions (now : ℚ) (s : Buffers Nonce Block) : ActiveAction Nonce Block → Prop
  | .receive m _ _ => some m ∈ s.inMsgBuffer
  | .proceed e => e.Proceeds ∧ e.pre cfg i now s.process

namespace Replica2

def engine (s : Replica2 Nonce Block) : Replica := s.buffers.process.engine

def updateActiveActions (now : ℚ) (s : Replica2 Nonce Block) : Replica2 Nonce Block :=
  { s with activeActions := updatedActions cfg i now s.buffers }

def apply (now now' : ℚ) (action : ActiveAction Nonce Block) (s : Replica2 Nonce Block) :
    Except Fault (Replica2 Nonce Block) := do
  let buffers ← s.buffers.apply host cfg i now action
  return updateActiveActions cfg i now' ⟨buffers, s.activeActions,
    s.trace ++ [.applied action s.engine buffers.process.engine]⟩

def clearOutMessageBuffer (s : Replica2 Nonce Block) : Replica2 Nonce Block :=
  { s with
    buffers.process.engine :=
      { s.engine with msgOut := [], roast := { s.engine.roast with msgOut := [] } }
    buffers.outMsgBuffer := [] }

/-- A message that goes to the own input buffer too. -/
def Injects : Incoming Block → Prop
  | .roastPreSignature m => i ∈ m.signers
  | .roastSignatureShare _ => True
  | _ => False

instance (m : Incoming Block) : Decidable (Injects i m) := by
  cases m <;> dsimp only [Injects] <;> infer_instance

/-- `Sign` through a pointer to `Message` is that of `Message`. -/
def sendMessage (msg : Incoming Block) (s : Replica2 Nonce Block) :
    Except Fault (Replica2 Nonce Block) := do
  let signed ← msg.sign network cfg signmessage i
  let s :=
    if Injects i signed then
      { s with
        buffers.inMsgBuffer := s.buffers.inMsgBuffer ++ [some (.incoming signed)]
        trace := s.trace ++ [.injected signed] }
    else s
  return { s with trace := s.trace ++ [.broadcast signed] }

/-- The body of the loop of `ApplyActiveActions` after the action. -/
def broadcastMessages (s : Replica2 Nonce Block) : Except Fault (Replica2 Nonce Block) :=
  if s.buffers.outMsgBuffer = [] then .ok s
  else s.buffers.outMsgBuffer.foldlM (fun s msg => sendMessage network cfg signmessage i msg s)
    s.clearOutMessageBuffer

def applyAndBroadcast (now now' : ℚ) (action : ActiveAction Nonce Block)
    (s : Replica2 Nonce Block) : Except Fault (Replica2 Nonce Block) := do
  let s ← s.apply host cfg i now now' action
  broadcastMessages network cfg signmessage i s

def generateRequestsLoop (now : ℚ) (fresh : Nonce) :
    ℕ → Replica2 Nonce Block → Except Fault (Replica2 Nonce Block)
  | 0, s => .ok s
  | fuel + 1, s =>
    if LacksRequests cfg now s.engine then do
      let req : Messages.Request := ⟨network.genesisBlockTimestamp, cfg.targetBlockTime,
        latestRequestTime s.engine + cfg.targetBlockTime⟩
      let s ← s.apply host cfg i now now (.receive (.request req) false fresh)
      generateRequestsLoop now fresh fuel s
    else .ok s

def generateRequests (now : ℚ) (fresh : Nonce) (s : Replica2 Nonce Block) :
    Except Fault (Replica2 Nonce Block) :=
  generateRequestsLoop host network cfg i now fresh maxNumGeneratedRequests s

def pushMessage (now : ℚ) (msg : Incoming Block) (s : Replica2 Nonce Block) :
    Replica2 Nonce Block :=
  updateActiveActions cfg i now
    { s with buffers.inMsgBuffer := s.buffers.inMsgBuffer ++ [some (.incoming msg)] }

end Replica2

/-- `ApplyActiveActions` with so many actions left to the cap. Each of the active actions may be
chosen, and the loop may end, although the code goes on while there is one. -/
inductive ApplyActiveActions : ℕ → Replica2 Nonce Block → Replica2 Nonce Block → Prop where
  | stop {n s} : ApplyActiveActions n s s
  | apply {n s t u now now' action} : s.activeActions action →
      s.applyAndBroadcast host network cfg signmessage i now now' action = .ok t →
      ApplyActiveActions n t u → ApplyActiveActions (n + 1) s u

/-- A call from outside. -/
inductive Operation (Block : Type) where
  | checkTimedActions
  | receiveIncomingMessage (msg : Incoming Block)
  | receiveIncomingBlock (block : Messages.Block)

/-- The operations that come to their end. -/
inductive Replica2Step : Replica2 Nonce Block → Operation Block → Replica2 Nonce Block → Prop where
  | checkTimedActions {now now' fresh s t u} :
      s.generateRequests host network cfg i now fresh = .ok t →
      ApplyActiveActions host network cfg signmessage i maxNumAppliedActions
        (t.updateActiveActions cfg i now') u →
      Replica2Step s .checkTimedActions u
  | receiveBlock {now now' now'' fresh valid block s t u} :
      s.generateRequests host network cfg i now fresh = .ok t →
      t.apply host cfg i now' now'' (.receive (.block block) valid fresh) = .ok u →
      Replica2Step s (.receiveIncomingBlock block) u
  | receiveSigned {now now' fresh msg s t u} : msg.identify = .ok () →
      s.generateRequests host network cfg i now fresh = .ok t →
      msg.verifySignatures network cfg = .ok true →
      ApplyActiveActions host network cfg signmessage i maxNumAppliedActions
        (t.pushMessage cfg i now' msg) u →
      Replica2Step s (.receiveIncomingMessage msg) u
  | discard {now fresh msg s t} : msg.identify = .ok () →
      s.generateRequests host network cfg i now fresh = .ok t →
      msg.verifySignatures network cfg = .ok false →
      Replica2Step s (.receiveIncomingMessage msg) t

/-- The constructor sets up the engine and updates the active actions. -/
structure InitialReplica2 (s : Replica2 Nonce Block) : Prop where
  process : InitialProcess cfg s.buffers.process
  inMsgBuffer : s.buffers.inMsgBuffer = []
  inMsgAwaitingCheckpointBuffer : s.buffers.inMsgAwaitingCheckpointBuffer = []
  outMsgBuffer : s.buffers.outMsgBuffer = []
  activeActions : ∃ now, s.activeActions = updatedActions cfg i now s.buffers
  trace : s.trace = []

def SentFor (s : Replica) (fact : Message) (m : Incoming Block) : Prop :=
  ∃ msg, fact.toBeSent host.toBlockCodec i s = .ok msg ∧ msg.sign network cfg signmessage i = .ok m

/-- What happens to a message that is sent. A pre-signature that names the replica itself and a
signature share of its own go into its input buffer, too. -/
def delivered : Incoming Block → List (Event Nonce Block)
  | .roastPreSignature m =>
    if i ∈ m.signers then [.injected (.roastPreSignature m), .broadcast (.roastPreSignature m)]
    else [.broadcast (.roastPreSignature m)]
  | .roastSignatureShare m =>
    [.injected (.roastSignatureShare m), .broadcast (.roastSignatureShare m)]
  | m => [.broadcast m]

/-- What the events put into the own input buffer. -/
def ownMessages (events : List (Event Nonce Block)) : List (Option (BufferedMessage Block)) :=
  events.filterMap fun
    | .injected m => some (some (.incoming m))
    | _ => none

/-- After each action the facts that it has added are sent, each once, and nothing else is,
before the next action. -/
inductive ExactlyOnce : List (Event Nonce Block) → Prop where
  | nil : ExactlyOnce []
  | round {trace action before after facts sent} : ExactlyOnce trace →
      (addedFacts before after).Nodup → facts.Perm (addedFacts before after) →
      List.Forall₂ (SentFor host network cfg signmessage i after) facts sent →
      ExactlyOnce (trace ++ .applied action before after :: sent.flatMap (delivered i))

structure Sent (s : Replica2 Nonce Block) : Prop where
  tables : outFacts s.engine = []
  buffer : s.buffers.outMsgBuffer = []
  trace : ExactlyOnce host network cfg signmessage i s.trace

end

section

variable {Nonce Block : Type} {host : Host Nonce Block} {network : Network Block} {cfg : Config}
  {signmessage : String → String → Except Fault String} {i : ℕ} {now now' : ℚ}
  {action : ActiveAction Nonce Block}

theorem Buffers.apply_spec {s t : Buffers Nonce Block}
    (applied : s.apply host cfg i now action = .ok t) :
    (∃ success process, (action.toEffect host.toBlockCodec cfg).effect host cfg i now s.process =
      .ok (success, process) ∧ t.process = process) ∧
    updateOutMessageBuffer host.toBlockCodec i t.process.engine = .ok t.outMsgBuffer := by
  cases action with
  | receive m valid fresh =>
    obtain ⟨success, process, u, out, done, removed, built, rfl⟩ := apply_receive_iff.mp applied
    refine ⟨⟨success, process, done, ?_⟩, built⟩
    have same := removeProcessed_process removed
    rw [same, retrieveAwaiting]
    split <;> rfl
  | proceed e =>
    obtain ⟨⟨success, process⟩, done, rest⟩ := bind_eq_ok_iff.mp applied
    obtain ⟨_, unchanged, rest⟩ := bind_eq_ok_iff.mp rest
    cases unchanged
    obtain ⟨out, built, same⟩ := bind_eq_ok_iff.mp rest
    cases same
    exact ⟨⟨success, process, mapError_eq_ok_iff.mp done, rfl⟩, built⟩

namespace Replica2

variable {s t : Replica2 Nonce Block}

theorem apply_spec (applied : s.apply host cfg i now now' action = .ok t) :
    (t.engine = s.engine ∨ ∃ a, (action.toEffect host.toBlockCodec cfg).Calls host a ∧
      a.apply cfg i s.engine = some t.engine) ∧
    updateOutMessageBuffer host.toBlockCodec i t.engine = .ok t.buffers.outMsgBuffer ∧
    t.trace = s.trace ++ [.applied action s.engine t.engine] := by
  obtain ⟨buffers, ran, same⟩ := bind_eq_ok_iff.mp applied
  cases same
  obtain ⟨⟨success, process, done, rfl⟩, built⟩ := Buffers.apply_spec ran
  exact ⟨Effect.engine_cases done, built, rfl⟩

theorem sent_apply (sent : Sent host network cfg signmessage i s)
    (applied : s.apply host cfg i now now' action = .ok t)
    (quiet : ∀ a, (action.toEffect host.toBlockCodec cfg).Calls host a →
      a.apply cfg i s.engine = some t.engine → outFacts t.engine = []) :
    Sent host network cfg signmessage i t := by
  obtain ⟨called, built, trace⟩ := apply_spec applied
  have tables : outFacts t.engine = [] := by
    rcases called with same | ⟨a, calls, applied⟩
    · rw [same, sent.tables]
    · exact quiet a calls applied
  have buffer : t.buffers.outMsgBuffer = [] := by
    rw [updateOutMessageBuffer, tables] at built
    exact (Except.ok.inj built).symm
  have none : addedFacts s.engine t.engine = [] := by rw [addedFacts_of_nil sent.tables, tables]
  refine ⟨tables, buffer, ?_⟩
  rw [trace]
  change ExactlyOnce host network cfg signmessage i (s.trace ++
    .applied action s.engine t.engine :: ([] : List (Incoming Block)).flatMap (delivered i))
  exact .round sent.trace (by simp [none]) (by rw [none]) .nil

theorem sent_generateRequests {fresh : Nonce} (sent : Sent host network cfg signmessage i s)
    (generated : s.generateRequests host network cfg i now fresh = .ok t) :
    Sent host network cfg signmessage i t := by
  unfold generateRequests at generated
  generalize maxNumGeneratedRequests = fuel at generated
  induction fuel generalizing s with
  | zero =>
    cases generated
    exact sent
  | succ fuel ih =>
    unfold generateRequestsLoop at generated
    split at generated
    · obtain ⟨next, applied, rest⟩ := bind_eq_ok_iff.mp generated
      refine ih (sent_apply sent applied ?_) rest
      rintro a rfl requested
      exact (outFacts_receiveRequest requested).trans sent.tables
    · cases generated
      exact sent

theorem delivered_eq (m : Incoming Block) : (delivered i m : List (Event Nonce Block)) =
    if Injects i m then [.injected m, .broadcast m] else [.broadcast m] := by
  cases m with
  | roastPreSignature m => rfl
  | roastSignatureShare m => exact (if_pos trivial).symm
  | _ => exact (if_neg not_false).symm

theorem sendMessage_spec {msg : Incoming Block}
    (done : sendMessage network cfg signmessage i msg s = .ok t) :
    ∃ m, msg.sign network cfg signmessage i = .ok m ∧ t.trace = s.trace ++ delivered i m ∧
      t.engine = s.engine ∧ t.buffers.outMsgBuffer = s.buffers.outMsgBuffer ∧
      t.buffers.inMsgBuffer =
        s.buffers.inMsgBuffer ++ ownMessages (delivered i m : List (Event Nonce Block)) := by
  obtain ⟨m, signed, rest⟩ := bind_eq_ok_iff.mp done
  refine ⟨m, signed, ?_⟩
  cases rest
  rw [delivered_eq]
  by_cases injects : Injects i m
  · simp [injects, engine, ownMessages]
  · simp [injects, engine, ownMessages]

theorem foldlM_sendMessage {ready : List (Incoming Block)}
    (done : ready.foldlM (fun s msg => sendMessage network cfg signmessage i msg s) s = .ok t) :
    ∃ sent, List.Forall₂ (fun msg m => Incoming.sign network cfg signmessage i msg = .ok m)
        ready sent ∧
      t.trace = s.trace ++ sent.flatMap (delivered i) ∧ t.engine = s.engine ∧
      t.buffers.outMsgBuffer = s.buffers.outMsgBuffer ∧
      t.buffers.inMsgBuffer = s.buffers.inMsgBuffer ++
        ownMessages (sent.flatMap (delivered i) : List (Event Nonce Block)) := by
  induction ready generalizing s with
  | nil =>
    cases done
    exact ⟨[], .nil, (List.append_nil _).symm, rfl, rfl, (List.append_nil _).symm⟩
  | cons msg ready ih =>
    rw [List.foldlM_cons] at done
    obtain ⟨next, first, rest⟩ := bind_eq_ok_iff.mp done
    obtain ⟨m, signed, trace, engine, buffer, own⟩ := sendMessage_spec first
    obtain ⟨sent, others, trace', engine', buffer', own'⟩ := ih rest
    refine ⟨m :: sent, .cons signed others, ?_, engine'.trans engine, buffer'.trans buffer, ?_⟩
    · rw [trace', trace, List.flatMap_cons, List.append_assoc]
    · rw [own', own, List.flatMap_cons, ownMessages, ownMessages, ownMessages,
        List.filterMap_append, List.append_assoc]

theorem broadcastMessages_spec (done : s.broadcastMessages network cfg signmessage i = .ok t) :
    ∃ sent, List.Forall₂ (fun msg m => Incoming.sign network cfg signmessage i msg = .ok m)
        s.buffers.outMsgBuffer sent ∧
      t.trace = s.trace ++ sent.flatMap (delivered i) ∧
      t.buffers.inMsgBuffer = s.buffers.inMsgBuffer ++
        ownMessages (sent.flatMap (delivered i) : List (Event Nonce Block)) ∧
      t.buffers.outMsgBuffer = [] ∧
      (s.buffers.outMsgBuffer = [] ∧ t.engine = s.engine ∨ outFacts t.engine = []) := by
  unfold broadcastMessages at done
  split at done
  · rename_i empty
    cases done
    refine ⟨[], ?_, (List.append_nil _).symm, (List.append_nil _).symm, empty, Or.inl ⟨empty, rfl⟩⟩
    rw [empty]
    exact .nil
  · obtain ⟨sent, signed, trace, engine, buffer, own⟩ := foldlM_sendMessage done
    refine ⟨sent, signed, trace, own, buffer, Or.inr ?_⟩
    rw [engine]
    rfl

theorem sent_applyAndBroadcast (sent : Sent host network cfg signmessage i s)
    (round : s.applyAndBroadcast host network cfg signmessage i now now' action = .ok t) :
    Sent host network cfg signmessage i t := by
  obtain ⟨u, applied, rest⟩ := bind_eq_ok_iff.mp round
  obtain ⟨called, built, trace⟩ := apply_spec applied
  obtain ⟨msgs, signed, trace', -, buffer, left⟩ := broadcastMessages_spec rest
  have once : (addedFacts s.engine u.engine).Nodup :=
    nodup_addedFacts sent.tables (called.imp id fun ⟨a, _, applied⟩ => ⟨a, applied⟩)
  have added : addedFacts s.engine u.engine = outFacts u.engine := addedFacts_of_nil sent.tables
  have all := outTables_perm u.engine
  have facts := mapM_eq_ok_iff.mp built
  refine ⟨?_, buffer, ?_⟩
  · rcases left with ⟨empty, engine⟩ | none
    · rw [empty, List.forall₂_nil_right_iff] at facts
      rw [facts] at all
      rw [engine]
      exact all.nil_eq.symm
    · exact none
  · rw [trace', trace, List.append_assoc]
    exact .round sent.trace once (added ▸ all) (forall₂_comp facts signed)

end Replica2

variable {s t : Replica2 Nonce Block}

theorem ApplyActiveActions.sent {n : ℕ}
    (loop : ApplyActiveActions host network cfg signmessage i n s t)
    (sent : Sent host network cfg signmessage i s) : Sent host network cfg signmessage i t := by
  induction loop with
  | stop => exact sent
  | apply _ round _ ih => exact ih (Replica2.sent_applyAndBroadcast sent round)

theorem Replica2Step.sent {op : Operation Block}
    (step : Replica2Step host network cfg signmessage i s op t)
    (sent : Sent host network cfg signmessage i s) : Sent host network cfg signmessage i t := by
  cases step with
  | checkTimedActions generated loop =>
    have generated := Replica2.sent_generateRequests sent generated
    exact loop.sent ⟨generated.tables, generated.buffer, generated.trace⟩
  | receiveBlock generated applied =>
    have generated := Replica2.sent_generateRequests sent generated
    refine Replica2.sent_apply generated applied ?_
    rintro a rfl called
    exact outFacts_receiveBlock called generated.tables
  | receiveSigned _ generated _ loop =>
    have generated := Replica2.sent_generateRequests sent generated
    exact loop.sent ⟨generated.tables, generated.buffer, generated.trace⟩
  | discard _ generated _ => exact Replica2.sent_generateRequests sent generated

theorem InitialReplica2.sent (start : InitialReplica2 cfg i s) :
    Sent host network cfg signmessage i s := by
  refine ⟨?_, start.outMsgBuffer, start.trace ▸ .nil⟩
  obtain ⟨height, hash, timestamp, persistedView, same⟩ := start.process.engine
  rw [Replica2.engine, same]
  rfl

/-- At every return the output tables and the output buffer are empty, and up to there each fact
was signed and broadcast once, right after the action that had added it; a round puts the messages
that it has sent to the replica itself into the input buffer, once each. -/
theorem outputs_exactly_once (reached : Reachable (InitialReplica2 cfg i)
      (Replica2Step host network cfg signmessage i) s) :
    (outFacts s.engine = [] ∧ s.buffers.outMsgBuffer = [] ∧
      ExactlyOnce host network cfg signmessage i s.trace) ∧
    ∀ (r t : Replica2 Nonce Block) (now now' : ℚ) (action : ActiveAction Nonce Block),
      r.applyAndBroadcast host network cfg signmessage i now now' action = .ok t →
      ∃ u events, ∃ sent : List (Incoming Block), r.apply host cfg i now now' action = .ok u ∧
        t.trace = u.trace ++ events ∧ events = sent.flatMap (delivered i) ∧
        t.buffers.inMsgBuffer = u.buffers.inMsgBuffer ++ ownMessages events := by
  have sent : Sent host network cfg signmessage i s :=
    reached.invariant (fun _ start => start.sent) fun _ _ _ sent step => step.sent sent
  refine ⟨⟨sent.tables, sent.buffer, sent.trace⟩, fun r t now now' action round => ?_⟩
  obtain ⟨u, applied, rest⟩ := bind_eq_ok_iff.mp round
  obtain ⟨msgs, -, trace, own, -⟩ := Replica2.broadcastMessages_spec rest
  exact ⟨u, _, msgs, applied, trace, rfl, own⟩

end

def freshReplica2 : Replica2 ℕ String where
  buffers := ⟨genesisProcess, [], [], []⟩
  activeActions := updatedActions fourReplicas 0 0 ⟨genesisProcess, [], [], []⟩
  trace := []

def textNetwork : Network String :=
  { signedNetwork with toBlockCodec := (textHost 0).toBlockCodec }

def Event.announces {Nonce Block : Type} : Event Nonce Block → Bool
  | .broadcast (.prePrepare _) => true
  | _ => false

def proposal : ActiveAction ℕ String :=
  .proceed (.sendPrePrepare "(H=1, T=60)" 0 1 (some "aa"))

theorem outputs_exactly_once_proposal : ∃ s,
    Reachable (InitialReplica2 fourReplicas 0)
      (Replica2Step (textHost 0) textNetwork fourReplicas signText 0) s ∧
    (∃ m, .broadcast (.prePrepare m) ∈ s.trace) ∧
    outFacts s.engine = [] ∧ s.buffers.outMsgBuffer = [] ∧
      ExactlyOnce (textHost 0) textNetwork fourReplicas signText 0 s.trace := by
  have runs : ∃ t, (freshReplica2.generateRequests (textHost 0) textNetwork fourReplicas 0 60
      0).toOption = some t ∧ preSendPrePrepare fourReplicas 60 "(H=1, T=60)" 0 1 0 t.engine ∧
      ∃ u, ((t.updateActiveActions fourReplicas 0 60).applyAndBroadcast (textHost 0) textNetwork
        fourReplicas signText 0 60 60 proposal).toOption = some u ∧
        u.trace.any Event.announces := by
    decide +kernel
  obtain ⟨t, generated, pre, u, round, sent⟩ := runs
  have active : (t.updateActiveActions fourReplicas 0 60).activeActions proposal := ⟨trivial, pre⟩
  have step : Replica2Step (textHost 0) textNetwork fourReplicas signText 0 freshReplica2
      .checkTimedActions u :=
    .checkTimedActions (eq_ok_of_toOption generated)
      (.apply active (eq_ok_of_toOption round) .stop)
  have reached : Reachable (InitialReplica2 fourReplicas 0)
      (Replica2Step (textHost 0) textNetwork fourReplicas signText 0) u :=
    ⟨freshReplica2, _, ⟨genesisProcess_initial, rfl, rfl, rfl, ⟨0, rfl⟩, rfl⟩, .single step⟩
  refine ⟨u, reached, ?_, (outputs_exactly_once reached).1⟩
  obtain ⟨e, inside, proposes⟩ := List.any_eq_true.mp sent
  cases e with
  | broadcast m =>
    cases m with
    | prePrepare m => exact ⟨m, inside⟩
    | _ => cases proposes
  | _ => cases proposes

end Fbft
