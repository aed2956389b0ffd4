import Fbft.Ingest
import Fbft.Outgoing
import Fbft.Redelivery

/-! `ReplicaState::Apply` and the buffers for what comes in. A message that was moved out of a
buffer leaves an empty entry. The log lines are left out. -/
namespace Fbft

open Throwing

namespace Messages

structure Block where
  blockHeight : ℕ
  blockTime : ℕ
  blockHash : String
  deriving DecidableEq, Repr

structure Request where
  genesisBlockTimestamp : ℕ
  targetBlockTime : ℕ
  timestamp : ℕ
  deriving DecidableEq, Repr

/-- The proposed pre-signature is not compared. -/
def Commit.equals (m other : Commit) : Bool :=
  m.view = other.view ∧ m.seqNumber = other.seqNumber ∧ m.senderId = other.senderId ∧
    m.signature = other.signature

def Prepare.equals (m other : Prepare) : Bool :=
  m.view = other.view ∧ m.seqNumber = other.seqNumber ∧ m.reqDigest = other.reqDigest ∧
    m.senderId = other.senderId ∧ m.signature = other.signature

/-- Of the blocks the hashes are compared. -/
def PrePrepare.equals {Block : Type} (getHash : Block → String) (m other : PrePrepare Block) :
    Bool :=
  m.view = other.view ∧ m.seqNumber = other.seqNumber ∧ m.reqDigest = other.reqDigest ∧
    getHash m.proposedBlock = getHash other.proposedBlock ∧ m.senderId = other.senderId ∧
    m.signature = other.signature

def ViewChange.equals (m other : ViewChange) : Bool :=
  m.view = other.view ∧ m.hi = other.hi ∧ m.c = other.c ∧ m.pi = other.pi ∧ m.qi = other.qi ∧
    m.senderId = other.senderId ∧ m.signature = other.signature

def NewView.equals {Block : Type} (getHash : Block → String) (m other : NewView Block) : Bool :=
  m.view = other.view ∧ m.vcMessages.isEqv other.vcMessages ViewChange.equals ∧
    m.pppMessages.isEqv other.pppMessages (PrePrepare.equals getHash) ∧
    m.senderId = other.senderId ∧ m.signature = other.signature

def RoastPreSignature.equals (m other : RoastPreSignature) : Bool :=
  m.signers = other.signers ∧ m.preSignature = other.preSignature ∧ m.senderId = other.senderId ∧
    m.signature = other.signature

def RoastSignatureShare.equals (m other : RoastSignatureShare) : Bool :=
  m.signatureShare = other.signatureShare ∧
    m.nextPreSignatureShare = other.nextPreSignatureShare ∧ m.senderId = other.senderId ∧
    m.signature = other.signature

def Block.equals (m other : Block) : Bool :=
  m.blockHeight = other.blockHeight ∧ m.blockTime = other.blockTime ∧
    m.blockHash = other.blockHash

def Request.equals (m other : Request) : Bool := m.timestamp = other.timestamp

def Request.digest (m : Request) : String :=
  requestDigest m.genesisBlockTimestamp m.targetBlockTime m.timestamp

end Messages

/-- What a buffer can hold: a message of the network, a block of the chain or a request. -/
inductive BufferedMessage (Block : Type) where
  | incoming (m : Incoming Block)
  | block (m : Messages.Block)
  | request (m : Messages.Request)
  deriving DecidableEq, Repr

namespace BufferedMessage

variable {Block : Type}

def type : BufferedMessage Block → MsgType
  | incoming m => m.msgType
  | block _ => .block
  | request _ => .request

def seqNumber : BufferedMessage Block → Option ℕ
  | incoming (.prePrepare m) => some m.seqNumber
  | incoming (.prepare m) => some m.seqNumber
  | incoming (.commit m) => some m.seqNumber
  | _ => none

def equals (getHash : Block → String) : BufferedMessage Block → BufferedMessage Block → Bool
  | incoming (.commit m), incoming (.commit other) => m.equals other
  | incoming (.newView m), incoming (.newView other) => m.equals getHash other
  | incoming (.prepare m), incoming (.prepare other) => m.equals other
  | incoming (.prePrepare m), incoming (.prePrepare other) => m.equals getHash other
  | incoming (.roastPreSignature m), incoming (.roastPreSignature other) => m.equals other
  | incoming (.roastSignatureShare m), incoming (.roastSignatureShare other) => m.equals other
  | incoming (.viewChange m), incoming (.viewChange other) => m.equals other
  | block m, block other => m.equals other
  | request m, request other => m.equals other
  | _, _ => false

def receiveAction {Nonce : Type} (codec : BlockCodec Block) (cfg : Config) (valid : Bool)
    (fresh : Nonce) : BufferedMessage Block → Effect Nonce Block
  | incoming m => m.receiveAction codec cfg valid fresh
  | block m => .engine (.receiveBlock m.blockHeight m.blockTime m.blockHash)
  | request m => .engine (.receiveRequest m.digest m.timestamp)

end BufferedMessage

structure Buffers (Nonce Block : Type) where
  process : Process Nonce Block
  inMsgBuffer : List (Option (BufferedMessage Block))
  inMsgAwaitingCheckpointBuffer : List (Option (BufferedMessage Block))
  outMsgBuffer : List (Incoming Block)

/-- An action that carries a message, with what the chain and the random generator answer, or
one that follows from the state of the engine. -/
inductive ActiveAction (Nonce Block : Type) where
  | receive (m : BufferedMessage Block) (valid : Bool) (fresh : Nonce)
  | proceed (e : Effect Nonce Block)

section

variable {Nonce Block : Type}

def ActiveAction.message : ActiveAction Nonce Block → Option (BufferedMessage Block)
  | receive m _ _ => some m
  | proceed _ => none

def ActiveAction.toEffect (codec : BlockCodec Block) (cfg : Config) :
    ActiveAction Nonce Block → Effect Nonce Block
  | receive m valid fresh => m.receiveAction codec cfg valid fresh
  | proceed e => e

/-- The place of the first message that equals the processed one. -/
def findProcessed (getHash : Block → String) (processed : BufferedMessage Block) :
    List (Option (BufferedMessage Block)) → Except Fault (Option ℕ)
  | [] => .ok none
  | none :: _ => .error .undefinedBehaviour
  | some msg :: buffer =>
    if msg.equals getHash processed then .ok (some 0)
    else Option.map (· + 1) <$> findProcessed getHash processed buffer

namespace Buffers

/-- A block that was applied brings back what awaits it. -/
def retrieveAwaiting (success : Bool) (processed : BufferedMessage Block)
    (s : Buffers Nonce Block) : Buffers Nonce Block :=
  if success = true ∧ processed.type = .block then
    { s with
      inMsgBuffer := s.inMsgBuffer ++ s.inMsgAwaitingCheckpointBuffer
      inMsgAwaitingCheckpointBuffer := [] }
  else s

/-- `h()`: what is no number is not converted. -/
def h (s : Buffers Nonce Block) : Except Fault ℕ :=
  match getH s.process.engine with
  | some n => .ok (toUInt32 n)
  | none => .error .plException

def removeProcessed (getHash : Block → String) (success : Bool)
    (processed : BufferedMessage Block) (s : Buffers Nonce Block) :
    Except Fault (Buffers Nonce Block) := do
  match ← findProcessed getHash processed s.inMsgBuffer with
  | none => return s
  | some k =>
    let h ← s.h
    if success = false ∧ processed.seqNumber = some (toUInt32 (h + 2)) then
      return { s with
        inMsgAwaitingCheckpointBuffer :=
          s.inMsgAwaitingCheckpointBuffer ++ [s.inMsgBuffer[k]?.join]
        -- the move leaves a null pointer, which is erased
        inMsgBuffer := (s.inMsgBuffer.set k none).eraseIdx k }
    else return { s with inMsgBuffer := s.inMsgBuffer.eraseIdx k }

variable (host : Host Nonce Block) (cfg : Config) (i : ℕ)

def apply (now : ℚ) (action : ActiveAction Nonce Block) (s : Buffers Nonce Block) :
    Except Fault (Buffers Nonce Block) := do
  let (success, process) ←
    ((action.toEffect host.toBlockCodec cfg).effect host cfg i now s.process).mapError .thrown
  let s := { s with process }
  let s ← match action.message with
    | some processed =>
      (s.retrieveAwaiting success processed).removeProcessed host.getHash success processed
    | none => pure s
  let outMsgBuffer ← updateOutMessageBuffer host.toBlockCodec i s.process.engine
  return { s with outMsgBuffer }

end Buffers

def arrivedMessages (success : Bool) (processed : BufferedMessage Block)
    (inMsgs awaiting : List (BufferedMessage Block)) : List (BufferedMessage Block) :=
  if success = true ∧ processed.type = .block then inMsgs ++ awaiting else inMsgs

def leftAwaiting (success : Bool) (processed : BufferedMessage Block)
    (awaiting : List (BufferedMessage Block)) : List (BufferedMessage Block) :=
  if success = true ∧ processed.type = .block then [] else awaiting

/-- The action failed, and its message is two heights ahead. -/
def Early (success : Bool) (processed : BufferedMessage Block) (s : Replica) : Prop :=
  success = false ∧ ∃ n, getH s = some n ∧ processed.seqNumber = some (toUInt32 (n + 2))

/-- One copy of the processed message leaves the input buffer, if there is one, an early one for
the awaiting buffer; all other messages stay, and no entry is empty. -/
structure KeepsMessages (success : Bool) (processed : BufferedMessage Block)
    (inMsgs awaiting : List (BufferedMessage Block)) (s' : Buffers Nonce Block)
    (inMsgs' awaiting' : List (BufferedMessage Block)) : Prop where
  filled : s'.inMsgBuffer = inMsgs'.map some
  filledAwaiting : s'.inMsgAwaitingCheckpointBuffer = awaiting'.map some
  absent : processed ∉ arrivedMessages success processed inMsgs awaiting →
    inMsgs'.Perm (arrivedMessages success processed inMsgs awaiting) ∧
      awaiting'.Perm (leftAwaiting success processed awaiting)
  removed : processed ∈ arrivedMessages success processed inMsgs awaiting →
    (processed :: inMsgs').Perm (arrivedMessages success processed inMsgs awaiting)
  early : processed ∈ arrivedMessages success processed inMsgs awaiting →
    Early success processed s'.process.engine →
      awaiting'.Perm (processed :: leftAwaiting success processed awaiting)
  inTime : processed ∈ arrivedMessages success processed inMsgs awaiting →
    ¬ Early success processed s'.process.engine →
      awaiting'.Perm (leftAwaiting success processed awaiting)
  retried : success = true → processed.type = .block → ∀ m ∈ awaiting, m ≠ processed → m ∈ inMsgs'

/-- The first message that the equality of messages does not tell from the processed one is the
processed one. -/
def SelectsItself (getHash : Block → String) (processed : BufferedMessage Block)
    (inMsgs : List (BufferedMessage Block)) : Prop :=
  ∀ m, inMsgs.find? (fun m => m.equals getHash processed) = some m → m = processed

end

section

variable {Nonce Block : Type} {host : Host Nonce Block} {cfg : Config} {i : ℕ} {now : ℚ}
  {getHash : Block → String} {success : Bool} {m processed : BufferedMessage Block}
  {inMsgs awaiting : List (BufferedMessage Block)} {s s' : Buffers Nonce Block}

theorem BufferedMessage.equals_self (m : BufferedMessage Block) : m.equals getHash m = true := by
  have pointwise {α : Type} {eqv : α → α → Bool} (refl : ∀ a, eqv a a = true) (l : List α) :
      l.isEqv l eqv = true := by
    induction l with
    | nil => rfl
    | cons a l ih => rw [List.isEqv_cons_cons, refl, ih, Bool.and_self]
  have prePrepare (m : Messages.PrePrepare Block) : m.equals getHash m = true := by
    simp [Messages.PrePrepare.equals]
  have viewChange (m : Messages.ViewChange) : m.equals m = true := by
    simp [Messages.ViewChange.equals]
  cases m with
  | incoming m =>
    cases m with
    | newView m =>
      simp [equals, Messages.NewView.equals, pointwise prePrepare, pointwise viewChange]
    | prePrepare m => exact prePrepare m
    | viewChange m => exact viewChange m
    | commit m => simp [equals, Messages.Commit.equals]
    | prepare m => simp [equals, Messages.Prepare.equals]
    | roastPreSignature m => simp [equals, Messages.RoastPreSignature.equals]
    | roastSignatureShare m => simp [equals, Messages.RoastSignatureShare.equals]
  | block m => simp [equals, Messages.Block.equals]
  | request m => simp [equals, Messages.Request.equals]

/-- Of the other types some field is not compared, or only by its hash. -/
def BufferedMessage.ComparedInFull (m : BufferedMessage Block) : Prop :=
  m.type ∉ [.commit, .prePrepare, .newView, .request]

theorem BufferedMessage.eq_of_equals (full : processed.ComparedInFull)
    (same : m.equals getHash processed = true) : m = processed := by
  unfold equals at same
  split at same
  · exact absurd (by simp [type, Incoming.msgType]) full
  · exact absurd (by simp [type, Incoming.msgType]) full
  · rename_i m other
    simp only [Messages.Prepare.equals, decide_eq_true_eq] at same
    cases m
    cases other
    simp_all
  · exact absurd (by simp [type, Incoming.msgType]) full
  · rename_i m other
    simp only [Messages.RoastPreSignature.equals, decide_eq_true_eq] at same
    cases m
    cases other
    simp_all
  · rename_i m other
    simp only [Messages.RoastSignatureShare.equals, decide_eq_true_eq] at same
    cases m
    cases other
    simp_all
  · rename_i m other
    simp only [Messages.ViewChange.equals, decide_eq_true_eq] at same
    cases m
    cases other
    simp_all
  · rename_i m other
    simp only [Messages.Block.equals, decide_eq_true_eq] at same
    cases m
    cases other
    simp_all
  · exact absurd (by simp [type]) full
  · cases same

theorem findProcessed_none
    (none : inMsgs.find? (fun m => m.equals getHash processed) = none) :
    findProcessed getHash processed (inMsgs.map some) = .ok .none := by
  induction inMsgs with
  | nil => rfl
  | cons m inMsgs ih =>
    rw [List.find?_cons] at none
    split at none
    · cases none
    · rename_i other
      rw [List.map_cons, findProcessed, ih none, if_neg (by simp [other])]
      rfl

theorem findProcessed_append {before after : List (BufferedMessage Block)}
    (others : ∀ m ∈ before, m.equals getHash processed = false)
    (same : m.equals getHash processed = true) :
    findProcessed getHash processed ((before ++ m :: after).map some) = .ok (some before.length) := by
  induction before with
  | nil => rw [List.nil_append, List.map_cons, findProcessed, if_pos same]; rfl
  | cons m' before ih =>
    obtain ⟨first, rest⟩ := List.forall_mem_cons.mp others
    rw [List.cons_append, List.map_cons, findProcessed, if_neg (by simp [first]), ih rest]
    rfl

theorem removeProcessed_none (filled : s.inMsgBuffer = inMsgs.map some)
    (none : inMsgs.find? (fun m => m.equals getHash processed) = none) :
    s.removeProcessed getHash success processed = .ok s := by
  rw [Buffers.removeProcessed, filled, findProcessed_none none]
  rfl

theorem removeProcessed_append {before after : List (BufferedMessage Block)}
    (filled : s.inMsgBuffer = (before ++ m :: after).map some)
    (others : ∀ m ∈ before, m.equals getHash processed = false)
    (same : m.equals getHash processed = true)
    (removed : s.removeProcessed getHash success processed = .ok s') :
    s'.process = s.process ∧ s'.inMsgBuffer = (before ++ after).map some ∧
      (Early success processed s.process.engine → s'.inMsgAwaitingCheckpointBuffer =
        s.inMsgAwaitingCheckpointBuffer ++ [some m]) ∧
      (¬ Early success processed s.process.engine →
        s'.inMsgAwaitingCheckpointBuffer = s.inMsgAwaitingCheckpointBuffer) := by
  have found : findProcessed getHash processed s.inMsgBuffer = .ok (some before.length) := by
    rw [filled]
    exact findProcessed_append others same
  have place : s.inMsgBuffer[before.length]?.join = some m := by simp [filled]
  have erased : s.inMsgBuffer.eraseIdx before.length = (before ++ after).map some := by
    simp [filled, List.eraseIdx_append_of_length_le]
  have moved : (s.inMsgBuffer.set before.length none).eraseIdx before.length =
      (before ++ after).map some := by
    simp [filled, List.eraseIdx_append_of_length_le]
  rw [Buffers.removeProcessed, found] at removed
  obtain ⟨_, index, removed⟩ := bind_eq_ok_iff.mp removed
  cases index
  obtain ⟨h, height, removed⟩ := bind_eq_ok_iff.mp removed
  obtain ⟨n, known, rfl⟩ : ∃ n, getH s.process.engine = some n ∧ toUInt32 n = h := by
    unfold Buffers.h at height
    split at height
    · rename_i n known
      exact ⟨n, known, Except.ok.inj height⟩
    · cases height
  have early : Early success processed s.process.engine ↔
      success = false ∧ processed.seqNumber = some (toUInt32 (toUInt32 n + 2)) := by
    have sum : toUInt32 (toUInt32 n + 2) = toUInt32 (n + 2) := Nat.mod_add_mod n (2 ^ 32) 2
    simp [Early, known, sum]
  split at removed
  · rename_i ahead
    cases removed
    exact ⟨rfl, moved, fun _ => by rw [place], fun not => absurd (early.mpr ahead) not⟩
  · rename_i notAhead
    cases removed
    exact ⟨rfl, erased, fun ahead => absurd (early.mp ahead) notAhead, fun _ => rfl⟩

/-- `Apply` is the effect, the step on the buffers for what comes in, and the new output. -/
theorem Buffers.apply_receive_iff {valid : Bool} {fresh : Nonce} :
    s.apply host cfg i now (.receive processed valid fresh) = .ok s' ↔
      ∃ success process t out, (processed.receiveAction host.toBlockCodec cfg valid fresh).effect
          host cfg i now s.process = .ok (success, process) ∧
        (({ s with process } : Buffers Nonce Block).retrieveAwaiting success
          processed).removeProcessed host.getHash success processed = .ok t ∧
        updateOutMessageBuffer host.toBlockCodec i t.process.engine = .ok out ∧
        s' = { t with outMsgBuffer := out } := by
  simp only [apply, ActiveAction.toEffect, ActiveAction.message, bind_eq_ok_iff, Prod.exists,
    mapError_eq_ok_iff]
  constructor
  · rintro ⟨success, process, done, t, removed, out, built, same⟩
    exact ⟨success, process, t, out, done, removed, built, (Except.ok.inj same).symm⟩
  · rintro ⟨success, process, t, out, done, removed, built, rfl⟩
    exact ⟨success, process, done, t, removed, out, built, rfl⟩

theorem retrieveAwaiting_eq (filled : s.inMsgBuffer = inMsgs.map some)
    (filledAwaiting : s.inMsgAwaitingCheckpointBuffer = awaiting.map some) :
    s.retrieveAwaiting success processed =
      { s with
        inMsgBuffer := (arrivedMessages success processed inMsgs awaiting).map some
        inMsgAwaitingCheckpointBuffer := (leftAwaiting success processed awaiting).map some } := by
  unfold Buffers.retrieveAwaiting arrivedMessages leftAwaiting
  split
  · simp [filled, filledAwaiting]
  · simp [← filled, ← filledAwaiting]

/-- Where the awaiting messages come back, the processed one is told from all others. -/
theorem selectsItself_arrived :
    SelectsItself getHash processed (arrivedMessages success processed inMsgs awaiting) ↔
      SelectsItself getHash processed inMsgs := by
  unfold arrivedMessages
  split
  · rename_i retrieves
    have itself (l : List (BufferedMessage Block)) : SelectsItself getHash processed l := by
      intro m found
      have full : processed.ComparedInFull := by
        rw [BufferedMessage.ComparedInFull, retrieves.2]
        decide
      have same := List.find?_some found
      exact BufferedMessage.eq_of_equals full same
    exact iff_of_true (itself _) (itself _)
  · exact Iff.rfl

theorem mem_arrived_of_awaiting (applied : success = true) (block : processed.type = .block)
    (inside : m ∈ awaiting) : m ∈ arrivedMessages success processed inMsgs awaiting := by
  rw [arrivedMessages, if_pos ⟨applied, block⟩]
  exact List.mem_append_right _ inside

theorem keepsMessages_of_none {t : Buffers Nonce Block}
    (filled : t.inMsgBuffer = (arrivedMessages success processed inMsgs awaiting).map some)
    (filledAwaiting : t.inMsgAwaitingCheckpointBuffer =
      (leftAwaiting success processed awaiting).map some)
    (search : (arrivedMessages success processed inMsgs awaiting).find?
      (fun m => m.equals getHash processed) = none) :
    KeepsMessages success processed inMsgs awaiting t
      (arrivedMessages success processed inMsgs awaiting)
      (leftAwaiting success processed awaiting) := by
  have absent : processed ∉ arrivedMessages success processed inMsgs awaiting := fun inside =>
    List.find?_eq_none.mp search processed inside (BufferedMessage.equals_self processed)
  exact {
    filled := filled
    filledAwaiting := filledAwaiting
    absent := fun _ => ⟨.refl _, .refl _⟩
    removed := fun inside => absurd inside absent
    early := fun inside => absurd inside absent
    inTime := fun inside => absurd inside absent
    retried := fun applied block m inside _ => mem_arrived_of_awaiting applied block inside }

theorem keepsMessages_of_itself {t : Buffers Nonce Block}
    {before after : List (BufferedMessage Block)}
    (arrived : arrivedMessages success processed inMsgs awaiting = before ++ processed :: after)
    (filled : t.inMsgBuffer = (before ++ after).map some)
    (early : Early success processed t.process.engine → t.inMsgAwaitingCheckpointBuffer =
      (leftAwaiting success processed awaiting).map some ++ [some processed])
    (inTime : ¬ Early success processed t.process.engine →
      t.inMsgAwaitingCheckpointBuffer = (leftAwaiting success processed awaiting).map some) :
    ∃ awaiting', KeepsMessages success processed inMsgs awaiting t (before ++ after) awaiting' := by
  have inside : processed ∈ arrivedMessages success processed inMsgs awaiting := by
    rw [arrived]
    exact List.mem_append_right _ List.mem_cons_self
  have removed : (processed :: (before ++ after)).Perm
      (arrivedMessages success processed inMsgs awaiting) := by
    rw [arrived]
    exact List.perm_middle.symm
  have retried : success = true → processed.type = .block → ∀ m ∈ awaiting, m ≠ processed →
      m ∈ before ++ after := by
    intro applied block m waits other
    have back := removed.mem_iff.mpr (mem_arrived_of_awaiting applied block waits)
    exact (List.mem_cons.mp back).resolve_left other
  by_cases ahead : Early success processed t.process.engine
  · refine ⟨leftAwaiting success processed awaiting ++ [processed], ?_⟩
    exact {
      filled := filled
      filledAwaiting := by rw [early ahead, List.map_append, List.map_singleton]
      absent := fun absent => absurd inside absent
      removed := fun _ => removed
      early := fun _ _ => List.perm_append_singleton _ _
      inTime := fun _ notAhead => absurd ahead notAhead
      retried := retried }
  · refine ⟨leftAwaiting success processed awaiting, ?_⟩
    exact {
      filled := filled
      filledAwaiting := inTime ahead
      absent := fun absent => absurd inside absent
      removed := fun _ => removed
      early := fun _ isAhead => absurd isAhead ahead
      inTime := fun _ _ => .refl _
      retried := retried }

theorem KeepsMessages.itself {t : Buffers Nonce Block}
    {before after inMsgs' awaiting' : List (BufferedMessage Block)}
    (keeps : KeepsMessages success processed inMsgs awaiting t inMsgs' awaiting')
    (arrived : arrivedMessages success processed inMsgs awaiting = before ++ m :: after)
    (filled : t.inMsgBuffer = (before ++ after).map some) : m = processed := by
  have same : inMsgs' = before ++ after :=
    List.map_injective_iff.mpr (Option.some_injective _) (keeps.filled.symm.trans filled)
  have split : (m :: inMsgs').Perm (arrivedMessages success processed inMsgs awaiting) := by
    rw [arrived, same]
    exact List.perm_middle.symm
  by_cases inside : processed ∈ arrivedMessages success processed inMsgs awaiting
  · have both := Multiset.coe_eq_coe.mpr (split.trans (keeps.removed inside).symm)
    rw [← Multiset.cons_coe, ← Multiset.cons_coe] at both
    exact (Multiset.cons_inj_left _).mp both
  · have lengths := (split.trans (keeps.absent inside).1.symm).length_eq
    simp at lengths

theorem keepsMessages_iff_selectsItself {t : Buffers Nonce Block}
    (filled : s.inMsgBuffer = inMsgs.map some)
    (filledAwaiting : s.inMsgAwaitingCheckpointBuffer = awaiting.map some)
    (removed : (s.retrieveAwaiting success processed).removeProcessed getHash success processed =
      .ok t) :
    (∃ inMsgs' awaiting', KeepsMessages success processed inMsgs awaiting t inMsgs' awaiting') ↔
      SelectsItself getHash processed inMsgs := by
  rw [← @selectsItself_arrived _ getHash success processed inMsgs awaiting]
  rw [retrieveAwaiting_eq filled filledAwaiting] at removed
  cases search : (arrivedMessages success processed inMsgs awaiting).find?
      (fun m => m.equals getHash processed) with
  | none =>
    rw [removeProcessed_none rfl search] at removed
    cases removed
    refine iff_of_true ⟨_, _, keepsMessages_of_none rfl rfl search⟩ fun m found => ?_
    rw [search] at found
    cases found
  | some m =>
    obtain ⟨same, before, after, arrived, others⟩ := List.find?_eq_some_iff_append.mp search
    obtain ⟨process, taken, early, inTime⟩ := removeProcessed_append
      (by rw [arrived]) (fun m inside => by simpa using others m inside) same removed
    constructor
    · rintro ⟨inMsgs', awaiting', keeps⟩ m' found
      rw [search] at found
      cases found
      exact keeps.itself arrived taken
    · intro itself
      have processed := itself m search
      subst processed
      rw [← process] at early inTime
      exact ⟨_, keepsMessages_of_itself arrived taken early inTime⟩

theorem removeProcessed_process {t : Buffers Nonce Block}
    (removed : s.removeProcessed getHash success processed = .ok t) : t.process = s.process := by
  obtain ⟨place, -, removed⟩ := bind_eq_ok_iff.mp removed
  cases place with
  | none =>
    cases removed
    rfl
  | some k =>
    obtain ⟨h, -, removed⟩ := bind_eq_ok_iff.mp removed
    split at removed
    · cases removed
      rfl
    · cases removed
      rfl

/-- Neither lost nor duplicated: what `Apply` does to the buffers is the removal of the message
of the action, early or not, and the return of the awaiting ones. -/
def NeitherLostNorDuplicated (host : Host Nonce Block) (cfg : Config) (i : ℕ) (now : ℚ)
    (processed : BufferedMessage Block) (valid : Bool) (fresh : Nonce)
    (inMsgs awaiting : List (BufferedMessage Block)) (s s' : Buffers Nonce Block) : Prop :=
  ∃ success process, (processed.receiveAction host.toBlockCodec cfg valid fresh).effect
      host cfg i now s.process = .ok (success, process) ∧ s'.process = process ∧
    ∃ inMsgs' awaiting', KeepsMessages success processed inMsgs awaiting s' inMsgs' awaiting'

/-- No message is lost or duplicated exactly when the first message of the input buffer that
equals the processed one is the processed one. -/
theorem neitherLostNorDuplicated_iff {valid : Bool} {fresh : Nonce}
    (filled : s.inMsgBuffer = inMsgs.map some)
    (filledAwaiting : s.inMsgAwaitingCheckpointBuffer = awaiting.map some)
    (applied : s.apply host cfg i now (.receive processed valid fresh) = .ok s') :
    NeitherLostNorDuplicated host cfg i now processed valid fresh inMsgs awaiting s s' ↔
      SelectsItself host.getHash processed inMsgs := by
  obtain ⟨success, process, t, out, done, removed, -, rfl⟩ := Buffers.apply_receive_iff.mp applied
  have keeps_iff := keepsMessages_iff_selectsItself (s := { s with process }) filled filledAwaiting
    removed
  rw [← keeps_iff]
  constructor
  · rintro ⟨success', process', done', -, inMsgs', awaiting', keeps⟩
    cases done.symm.trans done'
    exact ⟨inMsgs', awaiting', keeps.filled, keeps.filledAwaiting, keeps.absent, keeps.removed,
      keeps.early, keeps.inTime, keeps.retried⟩
  · rintro ⟨inMsgs', awaiting', keeps⟩
    refine ⟨success, process, done, ?_, inMsgs', awaiting', ?_⟩
    · have same := removeProcessed_process removed
      rw [same, Buffers.retrieveAwaiting]
      split <;> rfl
    · exact ⟨keeps.filled, keeps.filledAwaiting, keeps.absent, keeps.removed, keeps.early,
        keeps.inTime, keeps.retried⟩

end

def commitOf (preSignature : String) : BufferedMessage String :=
  .incoming (.commit ⟨2, "S2", 0, 1, preSignature⟩)

def commitsArrived (inMsgs : List (BufferedMessage String)) : Buffers ℕ String :=
  ⟨genesisProcess, inMsgs.map some, [], []⟩

theorem neitherLostNorDuplicated_iff_twoCommits : ∃ s',
    (commitsArrived [commitOf "b", commitOf "a"]).apply (textHost 1) fourReplicas 1 60
      (.receive (commitOf "b") true 0) = .ok s' ∧
    (NeitherLostNorDuplicated (textHost 1) fourReplicas 1 60 (commitOf "b") true 0
      [commitOf "b", commitOf "a"] [] (commitsArrived [commitOf "b", commitOf "a"]) s' ↔
      SelectsItself (textHost 1).getHash (commitOf "b") [commitOf "b", commitOf "a"]) := by
  have runs : ((commitsArrived [commitOf "b", commitOf "a"]).apply (textHost 1) fourReplicas 1 60
      (.receive (commitOf "b") true 0)).toOption.isSome = true := by
    decide +kernel
  obtain ⟨s', found⟩ := Option.isSome_iff_exists.mp runs
  have applied := eq_ok_of_toOption found
  exact ⟨s', applied, neitherLostNorDuplicated_iff rfl rfl applied⟩

/-- The second COMMIT is processed, and the first is removed without having been. -/
theorem lost_commit : ∃ s',
    (commitsArrived [commitOf "a", commitOf "b"]).apply (textHost 1) fourReplicas 1 60
      (.receive (commitOf "b") true 0) = .ok s' ∧
    s'.inMsgBuffer = [some (commitOf "b")] ∧
    ¬ NeitherLostNorDuplicated (textHost 1) fourReplicas 1 60 (commitOf "b") true 0
      [commitOf "a", commitOf "b"] [] (commitsArrived [commitOf "a", commitOf "b"]) s' := by
  have runs : ((commitsArrived [commitOf "a", commitOf "b"]).apply (textHost 1) fourReplicas 1 60
      (.receive (commitOf "b") true 0)).toOption.map Buffers.inMsgBuffer =
      some [some (commitOf "b")] := by
    decide +kernel
  obtain ⟨s', found, left⟩ := Option.map_eq_some_iff.mp runs
  refine ⟨s', eq_ok_of_toOption found, left, ?_⟩
  rintro ⟨success, process, -, -, inMsgs', awaiting', keeps⟩
  have arrived : arrivedMessages success (commitOf "b") [commitOf "a", commitOf "b"] [] =
      [] ++ commitOf "a" :: [commitOf "b"] := by
    simp [arrivedMessages]
  have other : commitOf "a" ≠ commitOf "b" := by decide
  exact other (keeps.itself arrived left)

end Fbft