import Fbft.Envelopes

/-! The processes of the replicas with the network between them. A process checks the signature of
what comes in, keeps it in a buffer, applies what is active and signs what it sends; the network may
deliver anything that it can sign. -/
namespace Fbft

open Throwing LabelledPath

/-- The hosts and nodes of the replicas. Hashes do not collide, JSON texts are read in one way, and
blocks and commitments are written without a NUL. -/
structure Deployment (Nonce Block : Type) where
  cluster : Cluster
  network : Network Block
  host : ℕ → Host Nonce Block
  signmessage : ℕ → String → String → Except Fault String
  small : cluster.cfg.clusterSize ≤ 2 ^ 32
  sameCodec : ∀ i, (host i).toBlockCodec = network.toBlockCodec
  hashes : HashesViewChanges network cluster.cfg
  collisionFree : Function.Injective network.sha
  injective : Set.InjOn network.atomJsonDict {j | j.Written}
  verifies : VerifiesDigests network cluster
  wholeHex : ∀ block, Whole (network.getHex block)
  wholeShare : ∀ i nonce, Whole (serializeSigningCommitment ((host i).commitments nonce))

abbrev Processes (Nonce Block : Type) := ℕ → Replica2 Nonce Block

section

variable {Nonce Block : Type}

def Replica2.Signed (network : Network Block) (cfg : Config) (d : String)
    (s : Replica2 Nonce Block) : Prop :=
  ∃ m, .broadcast m ∈ s.trace ∧ m.digest network cfg = d

def Replica2.InBounds (s : Replica2 Nonce Block) : Prop :=
  ∀ action before after, .applied action before after ∈ s.trace →
    Bounded32 before ∧ Bounded32 after

end

namespace Deployment

variable {Nonce Block : Type} (dep : Deployment Nonce Block)

def Initial (ps : Processes Nonce Block) : Prop :=
  ∀ k, dep.cluster.Correct k → InitialReplica2 dep.cluster.cfg k (ps k) ∧
    ∃ height hash timestamp, Whole hash ∧
      (ps k).engine = initNotx dep.cluster.cfg height hash timestamp none

/-- The chain of a replica only grows, and nobody else signs for a correct replica. -/
def Promised (ps : Processes Nonce Block) (i : ℕ) : Operation Block → Prop
  | .checkTimedActions => True
  | .receiveIncomingMessage msg =>
    msg.verifySignatures dep.network dep.cluster.cfg = .ok true → dep.cluster.Correct msg.senderId →
      (ps msg.senderId).Signed dep.network dep.cluster.cfg (msg.digest dep.network dep.cluster.cfg)
  | .receiveIncomingBlock b => ∀ h ∈ getH (ps i).engine, h < b.blockHeight

/-- An operation of one correct replica. -/
structure Step (ps : Processes Nonce Block) (l : ℕ × Operation Block)
    (ps' : Processes Nonce Block) : Prop where
  correct : dep.cluster.Correct l.1
  promised : dep.Promised ps l.1 l.2
  moves : Replica2Step (dep.host l.1) dep.network dep.cluster.cfg (dep.signmessage l.1) l.1 (ps l.1)
    l.2 (ps' l.1)
  others : ∀ k, k ≠ l.1 → ps' k = ps k

def PlainInput : Operation Block → Prop
  | .checkTimedActions => True
  | .receiveIncomingMessage msg =>
    msg.verifySignatures dep.network dep.cluster.cfg = .ok true →
      (msg.handed dep.network.toBlockCodec dep.cluster.cfg).Plain dep.network.toBlockCodec
  | .receiveIncomingBlock b => Whole b.blockHash

/-- An operation in which nothing is cut: neither a text that comes in, nor a number of the states
that the engine goes through. -/
structure UncutStep (ps : Processes Nonce Block) (l : ℕ × Operation Block)
    (ps' : Processes Nonce Block) : Prop where
  step : dep.Step ps l ps'
  input : dep.PlainInput l.2
  bounded : (ps' l.1).InBounds

end Deployment

structure Turn (Nonce Block : Type) where
  operation : Operation Block
  now : ℚ
  valid : Bool
  fresh : Nonce
  chosen : List (ActiveAction Nonce Block)

section

variable {Nonce Block : Type} (host : Host Nonce Block) (network : Network Block) (cfg : Config)
  (signmessage : String → String → Except Fault String) (i : ℕ)

instance (e : Effect Nonce Block) : Decidable e.Proceeds := by
  apply e.casesOn (motive := fun e => Decidable e.Proceeds)
  · intro a
    apply a.casesOn (motive := fun a => Decidable (Effect.engine a : Effect Nonce Block).Proceeds)
      <;> intros <;> dsimp only [Effect.Proceeds] <;> infer_instance
  all_goals
    intros
    dsimp only [Effect.Proceeds]
    infer_instance

instance [DecidableEq Block] (now : ℚ) (s : Buffers Nonce Block)
    (action : ActiveAction Nonce Block) : Decidable (updatedActions cfg i now s action) := by
  cases action <;> dsimp only [updatedActions] <;> infer_instance

namespace Replica2

/-- The actions were last updated on the buffers `seen`. -/
def applyChosen [DecidableEq Block] (now : ℚ) : ℕ → List (ActiveAction Nonce Block) →
    Buffers Nonce Block → Replica2 Nonce Block → Option (Replica2 Nonce Block)
  | _, [], _, s => some s
  | 0, _ :: _, _, _ => none
  | n + 1, action :: chosen, seen, s =>
    if updatedActions cfg i now seen action then do
      let t ← (s.apply host cfg i now now action).toOption
      let u ← (broadcastMessages network cfg signmessage i t).toOption
      applyChosen now n chosen t.buffers u
    else none

/-- `none`: the call fails, or an action that is chosen is not active. -/
def take [DecidableEq Block] (turn : Turn Nonce Block) (s : Replica2 Nonce Block) :
    Option (Replica2 Nonce Block) := do
  let t ← (s.generateRequests host network cfg i turn.now turn.fresh).toOption
  match turn.operation with
  | .checkTimedActions =>
    applyChosen host network cfg signmessage i turn.now maxNumAppliedActions turn.chosen t.buffers
      (t.updateActiveActions cfg i turn.now)
  | .receiveIncomingBlock block =>
    (t.apply host cfg i turn.now turn.now (.receive (.block block) turn.valid turn.fresh)).toOption
  | .receiveIncomingMessage msg => do
    msg.identify.toOption
    let u := t.pushMessage cfg i turn.now msg
    if ← (msg.verifySignatures network cfg).toOption then
      applyChosen host network cfg signmessage i turn.now maxNumAppliedActions turn.chosen
        u.buffers u
    else return t

end Replica2

end

section

variable {Nonce Block : Type} {network : Network Block} {cfg : Config}
  {signmessage : String → String → Except Fault String} {i : ℕ} {s t : Replica2 Nonce Block}

structure SameButOutput (s t : Replica2 Nonce Block) : Prop where
  process : t.buffers.process = s.buffers.process
  activeActions : t.activeActions = s.activeActions
  awaiting : t.buffers.inMsgAwaitingCheckpointBuffer = s.buffers.inMsgAwaitingCheckpointBuffer

theorem sameButOutput_foldlM {ready : List (Incoming Block)}
    (done : ready.foldlM (fun s msg => Replica2.sendMessage network cfg signmessage i msg s) s =
      .ok t) : SameButOutput s t := by
  induction ready generalizing s with
  | nil =>
    cases done
    exact ⟨rfl, rfl, rfl⟩
  | cons msg ready ih =>
    rw [List.foldlM_cons] at done
    obtain ⟨next, first, rest⟩ := bind_eq_ok_iff.mp done
    obtain ⟨m, -, same⟩ := bind_eq_ok_iff.mp first
    have kept : SameButOutput s next := by
      cases same
      split <;> exact ⟨rfl, rfl, rfl⟩
    have kept' := ih rest
    exact ⟨kept'.process.trans kept.process, kept'.activeActions.trans kept.activeActions,
      kept'.awaiting.trans kept.awaiting⟩

theorem broadcastMessages_cases
    (done : s.broadcastMessages network cfg signmessage i = .ok t) :
    t = s ∨ SameButOutput s.clearOutMessageBuffer t := by
  unfold Replica2.broadcastMessages at done
  split at done
  · cases done
    exact Or.inl rfl
  · exact Or.inr (sameButOutput_foldlM done)

theorem broadcastMessages_activeActions
    (done : s.broadcastMessages network cfg signmessage i = .ok t) :
    t.activeActions = s.activeActions := by
  rcases broadcastMessages_cases done with rfl | kept
  · rfl
  · exact kept.activeActions

end

section

variable {Nonce Block : Type} [DecidableEq Block] {host : Host Nonce Block}
  {network : Network Block} {cfg : Config} {signmessage : String → String → Except Fault String}
  {i : ℕ} {s t : Replica2 Nonce Block}

theorem applyActiveActions_of_chosen {now : ℚ} {n : ℕ} {chosen : List (ActiveAction Nonce Block)}
    {seen : Buffers Nonce Block} (updated : s.activeActions = updatedActions cfg i now seen)
    (ran : s.applyChosen host network cfg signmessage i now n chosen seen = some t) :
    ApplyActiveActions host network cfg signmessage i n s t := by
  induction chosen generalizing n seen s with
  | nil =>
    cases n <;> cases ran <;> exact .stop
  | cons action chosen ih =>
    cases n with
    | zero => cases ran
    | succ n =>
      unfold Replica2.applyChosen at ran
      split at ran
      · rename_i active
        obtain ⟨r, applied, rest⟩ := Option.bind_eq_some_iff.mp ran
        obtain ⟨u, sent, rest⟩ := Option.bind_eq_some_iff.mp rest
        have applied := eq_ok_of_toOption applied
        have sent := eq_ok_of_toOption sent
        refine .apply (updated ▸ active) (bind_eq_ok_iff.mpr ⟨r, applied, sent⟩) (ih ?_ rest)
        obtain ⟨buffers, -, same⟩ := bind_eq_ok_iff.mp applied
        cases same
        exact broadcastMessages_activeActions sent
      · cases ran

theorem step_of_take {turn : Turn Nonce Block}
    (ran : s.take host network cfg signmessage i turn = some t) :
    Replica2Step host network cfg signmessage i s turn.operation t := by
  obtain ⟨operation, now, valid, fresh, chosen⟩ := turn
  obtain ⟨u, generated, rest⟩ := Option.bind_eq_some_iff.mp ran
  have generated := eq_ok_of_toOption generated
  cases operation with
  | checkTimedActions => exact .checkTimedActions generated (applyActiveActions_of_chosen rfl rest)
  | receiveIncomingBlock block => exact .receiveBlock generated (eq_ok_of_toOption rest)
  | receiveIncomingMessage msg =>
    obtain ⟨⟨⟩, identified, rest⟩ := Option.bind_eq_some_iff.mp rest
    obtain ⟨verified, checked, rest⟩ := Option.bind_eq_some_iff.mp rest
    have identified := eq_ok_of_toOption identified
    have checked := eq_ok_of_toOption checked
    cases verified with
    | false =>
      cases rest
      exact .discard identified generated checked
    | true =>
      exact .receiveSigned identified generated checked (applyActiveActions_of_chosen rfl rest)

end

section

variable {Nonce Block : Type}

instance (s : Replica) : Decidable (Bounded32 s) :=
  decidable_of_iff (Numbers32 s ∧ lowWatermark s + 1 < 2 ^ 32)
    ⟨fun bounds => ⟨bounds.1, bounds.2⟩, fun bounds => ⟨bounds.numbers, bounds.height⟩⟩

instance [Fintype Block] (codec : BlockCodec Block) : DecidablePred (Canonical codec) :=
  fun _ => inferInstanceAs (Decidable (∃ _, _))

def Event.signs (network : Network Block) (cfg : Config) : Event Nonce Block → Option String
  | .broadcast m => some (m.digest network cfg)
  | _ => none

instance (network : Network Block) (cfg : Config) (d : String) (s : Replica2 Nonce Block) :
    Decidable (s.Signed network cfg d) :=
  decidable_of_iff (∃ e ∈ s.trace, e.signs network cfg = some d) (by
    constructor
    · rintro ⟨e, inside, signs⟩
      cases e with
      | broadcast m => exact ⟨m, inside, Option.some.inj signs⟩
      | _ => cases signs
    · rintro ⟨m, inside, rfl⟩
      exact ⟨_, inside, rfl⟩)

def Event.InBounds : Event Nonce Block → Prop
  | .applied _ before after => Bounded32 before ∧ Bounded32 after
  | _ => True

instance (e : Event Nonce Block) : Decidable e.InBounds := by
  cases e <;> dsimp only [Event.InBounds] <;> infer_instance

instance (s : Replica2 Nonce Block) : Decidable s.InBounds :=
  decidable_of_iff (∀ e ∈ s.trace, e.InBounds) (by
    constructor
    · exact fun bounds action before after inside => bounds _ inside
    · intro bounds e inside
      cases e with
      | applied action before after => exact bounds action before after inside
      | _ => exact trivial)

end

namespace Deployment

variable {Nonce Block : Type} (dep : Deployment Nonce Block)

instance (ps : Processes Nonce Block) (i : ℕ) (op : Operation Block) :
    Decidable (dep.Promised ps i op) := by
  cases op <;> dsimp only [Promised] <;> infer_instance

variable [Fintype Block] [DecidableEq Block]

instance (op : Operation Block) : Decidable (dep.PlainInput op) := by
  cases op <;> dsimp only [PlainInput] <;> infer_instance

/-- Replicas take turns, up to the first turn that is not one of an uncut run. -/
def exec : List (ℕ × Turn Nonce Block) → Processes Nonce Block → Option (Processes Nonce Block)
  | [], ps => some ps
  | (i, turn) :: turns, ps =>
    if dep.cluster.Correct i ∧ dep.Promised ps i turn.operation ∧ dep.PlainInput turn.operation then
      ((ps i).take (dep.host i) dep.network dep.cluster.cfg (dep.signmessage i) i turn).bind
        fun t => if t.InBounds then exec turns (Function.update ps i t) else none
    else none

variable {dep} {ps ps' : Processes Nonce Block}

theorem exec_path {turns : List (ℕ × Turn Nonce Block)} (ran : dep.exec turns ps = some ps') :
    Path dep.UncutStep ps (turns.map fun l => (l.1, l.2.operation)) ps' := by
  induction turns generalizing ps with
  | nil =>
    cases ran
    exact .nil
  | cons l turns ih =>
    obtain ⟨i, turn⟩ := l
    unfold exec at ran
    split at ran
    · rename_i allowed
      obtain ⟨correct, promised, plain⟩ := allowed
      obtain ⟨t, taken, rest⟩ := Option.bind_eq_some_iff.mp ran
      split at rest
      · rename_i bounds
        refine .cons ⟨⟨correct, promised, ?_, fun k other => Function.update_of_ne other _ _⟩,
          plain, ?_⟩ (ih rest)
        · simpa using step_of_take taken
        · simpa using bounds
      · cases rest
    · cases ran

end Deployment

end Fbft
