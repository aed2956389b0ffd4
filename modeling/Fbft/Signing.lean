import Fbft.Acceptance
import Fbft.VirtualCalls
import Fbft.Wire

/-! Signatures are put on and looked at through a pointer to `Message`, with a `RoastWallet` at
hand. `NewView` declares both members for a `RoastWallet` and `Message` for a `Wallet`, so those
of `NewView` replace nothing: the VIEW_CHANGE of the sender goes out without a signature, and the
VIEW_CHANGEs in what comes in are not looked at. -/
namespace Fbft

open Throwing LabelledPath VirtualCalls

inductive MessageClass where
  | message
  | derived (type : MsgType)
  deriving DecidableEq, Repr

inductive MessageOperation where
  | sign
  | verifySignatures
  deriving DecidableEq, Repr

inductive WalletClass where
  | wallet
  | roastWallet
  deriving DecidableEq, Repr

def messageHierarchy : Hierarchy MessageClass MessageOperation WalletClass where
  bases
    | .message => [.message]
    | .derived type => [.derived type, .message]
  declares
    | .message, _ => [.wallet]
    | .derived .newView, _ => [.roastWallet]
    | .derived _, _ => []
  virtuals
    | .message, _, .wallet => true
    | _, _, _ => false
  converts
    | .roastWallet, .wallet => true
    | _, _ => false

/-- Through a pointer to `Message` the member of `Message` runs, whatever the message is. -/
theorem call_message (type : MsgType) (operation : MessageOperation) :
    messageHierarchy.call .message (.derived type) operation .roastWallet =
      some (.message, .wallet) :=
  have bases : messageHierarchy.bases (.derived type) = [.derived type] ++ .message :: [] := rfl
  Hierarchy.call_base (show messageHierarchy.bases .message = [.message] from rfl) rfl (Or.inr rfl)
    rfl bases (by
      rw [List.forall_mem_singleton]
      cases type <;> cases operation <;> decide)

theorem call_newView (operation : MessageOperation) :
    messageHierarchy.call (.derived .newView) (.derived .newView) operation .roastWallet =
      some (.derived .newView, .roastWallet) :=
  Hierarchy.call_own (show messageHierarchy.bases (.derived .newView) =
    .derived .newView :: [.message] from rfl) rfl (Or.inl rfl)

def Incoming.setSignature {Block : Type} (signature : String) : Incoming Block → Incoming Block
  | commit m => .commit { m with signature }
  | newView m => .newView { m with signature }
  | prepare m => .prepare { m with signature }
  | prePrepare m => .prePrepare { m with signature }
  | roastPreSignature m => .roastPreSignature { m with signature }
  | roastSignatureShare m => .roastSignatureShare { m with signature }
  | viewChange m => .viewChange { m with signature }

variable {Block : Type} (network : Network Block) (cfg : Config)
  (signmessage : String → String → Except Fault String) (i : ℕ)

/-- `BitcoinRpcWallet::AppendSignature` of replica `i`: the signature of a message. -/
def appendSignature (senderId : ℕ) (digest : String) : Except Fault String :=
  if senderId ≠ i then .error (.thrown .runtimeError)
  else signmessage (network.p2pkh i) digest

def verifySignature (msg : Incoming Block) : Except Fault Bool :=
  if msg.senderId < cfg.clusterSize then msg.answer network cfg else .error (.thrown .outOfRange)

def Incoming.sign (msg : Incoming Block) : Except Fault (Incoming Block) := do
  let signature ← appendSignature network signmessage i msg.senderId (msg.digest network cfg)
  return msg.setSignature signature

namespace Messages

def ViewChange.sign (vc : ViewChange) : Except Fault ViewChange := do
  let signature ← appendSignature network signmessage i vc.senderId (vc.digest cfg)
  return { vc with signature }

def NewView.sign (m : NewView Block) : Except Fault (Incoming Block) := do
  let vcMessages ← m.vcMessages.mapM fun vc =>
    if vc.senderId = m.senderId then ViewChange.sign network cfg signmessage i vc else .ok vc
  Incoming.sign network cfg signmessage i (.newView { m with vcMessages })

/-- The loop of `NewView::VerifySignatures`. -/
def verifyEach : List ViewChange → Except Fault Bool
  | [] => .ok true
  | vc :: rest => do
    if ← verifySignature network cfg (.viewChange vc) then verifyEach rest else return false

def NewView.verifySignatures (m : NewView Block) : Except Fault Bool := do
  if ← verifyEach network cfg m.vcMessages then verifySignature network cfg (.newView m)
  else return false

end Messages

/-- `p_msg->Sign(m_wallet)`, where `p_msg` points to the class `static`. -/
def signThrough (static : MessageClass) (msg : Incoming Block) :
    Option (Except Fault (Incoming Block)) :=
  match messageHierarchy.call static (.derived msg.msgType) .sign .roastWallet, msg with
  | some (.message, _), msg => some (msg.sign network cfg signmessage i)
  | some (.derived .newView, _), .newView m =>
    some (Messages.NewView.sign network cfg signmessage i m)
  | _, _ => none

/-- `msg->VerifySignatures(m_wallet)`. -/
def verifyThrough (static : MessageClass) (msg : Incoming Block) : Option (Except Fault Bool) :=
  match messageHierarchy.call static (.derived msg.msgType) .verifySignatures .roastWallet, msg with
  | some (.message, _), msg => some (verifySignature network cfg msg)
  | some (.derived .newView, _), .newView m => some (Messages.NewView.verifySignatures network cfg m)
  | _, _ => none

variable {network cfg signmessage i} {msg : Incoming Block}

theorem signThrough_message :
    signThrough network cfg signmessage i .message msg = some (msg.sign network cfg signmessage i) := by
  unfold signThrough
  rw [call_message]

theorem verifyThrough_message :
    verifyThrough network cfg .message msg = some (msg.verifySignatures network cfg) := by
  unfold verifyThrough
  rw [call_message]
  rfl

theorem signThrough_newView (m : Messages.NewView Block) :
    signThrough network cfg signmessage i (.derived .newView) (.newView m) =
      some (Messages.NewView.sign network cfg signmessage i m) := by
  unfold signThrough
  rw [show (Incoming.newView m).msgType = .newView from rfl, call_newView]

theorem verifyThrough_newView (m : Messages.NewView Block) :
    verifyThrough network cfg (.derived .newView) (.newView m) =
      some (Messages.NewView.verifySignatures network cfg m) := by
  unfold verifyThrough
  rw [show (Incoming.newView m).msgType = .newView from rfl, call_newView]

/-- A VIEW_CHANGE comes out of the log with the sender asked for; that of the replica itself
comes without a signature. -/
theorem findByDigest_signature {replicaId senderId : ℕ} {digest : String} {s : Replica}
    {vc : Messages.ViewChange}
    (found : Messages.ViewChange.findByDigest replicaId (toUInt32 senderId) digest s = .ok vc) :
    vc.senderId = toUInt32 senderId ∧ (vc.senderId = replicaId → vc.signature = "") := by
  unfold Messages.ViewChange.findByDigest at found
  split at found
  · cases found
  rename_i m located
  have matched := List.find?_some located
  simp only [decide_eq_true_eq] at matched
  have idem : toUInt32 (toUInt32 senderId) = toUInt32 senderId := Nat.mod_mod _ _
  cases found
  by_cases own : m.senderId = replicaId
  · rw [if_neg (not_not.mpr own)]
    exact ⟨(congrArg toUInt32 matched.2).trans idem, fun _ => rfl⟩
  · rw [if_pos own]
    have sender := (congrArg toUInt32 matched.2).trans idem
    exact ⟨sender, fun same => absurd (matched.2.trans (sender.symm.trans same)) own⟩

variable {codec : BlockCodec Block} {v : ℕ} {nu : List NuEntry} {chi : List ChiEntry} {s : Replica}
  {m sent : Messages.NewView Block}

/-- The VIEW_CHANGEs inside a NEW_VIEW have the senders that Nu lists. -/
theorem newViewOfTerms_senders (built : Messages.NewView.ofTerms codec i v nu chi s = .ok m) :
    m.senderId = toUInt32 i ∧
      List.Forall₂ (fun e vc => vc.senderId = toUInt32 e.j ∧
        (vc.senderId = m.senderId → vc.signature = "")) nu m.vcMessages := by
  obtain ⟨vcMessages, read, rest⟩ := bind_eq_ok_iff.mp built
  obtain ⟨pppMessages, -, same⟩ := bind_eq_ok_iff.mp rest
  cases same
  refine ⟨rfl, forall₂_of_mapM read fun e _ vc found => ?_⟩
  exact findByDigest_signature found

/-- The VIEW_CHANGE of the sender carries what the node signs for it. -/
def OwnViewChangeSigned (network : Network Block) (cfg : Config)
    (signmessage : String → String → Except Fault String) (m : Messages.NewView Block) : Prop :=
  ∀ vc ∈ m.vcMessages, vc.senderId = m.senderId →
    signmessage (network.p2pkh m.senderId) (vc.digest cfg) = .ok vc.signature

/-- The signature of the message is the only thing that is put on. -/
theorem vcMessages_of_signed
    (signed : signThrough network cfg signmessage i .message (.newView m) =
      some (.ok (.newView sent))) :
    sent.senderId = m.senderId ∧ sent.vcMessages = m.vcMessages := by
  rw [signThrough_message, Option.some.injEq] at signed
  obtain ⟨signature, -, same⟩ := bind_eq_ok_iff.mp signed
  cases same
  exact ⟨rfl, rfl⟩

theorem ownViewChangeSigned_iff (signs : ∀ address text, signmessage address text ≠ .ok "")
    (built : Messages.NewView.ofTerms codec i v nu chi s = .ok m)
    (signed : signThrough network cfg signmessage i .message (.newView m) =
      some (.ok (.newView sent))) :
    OwnViewChangeSigned network cfg signmessage sent ↔ ∀ e ∈ nu, toUInt32 e.j ≠ toUInt32 i := by
  obtain ⟨sender, entries⟩ := newViewOfTerms_senders built
  obtain ⟨sender', same⟩ := vcMessages_of_signed signed
  unfold OwnViewChangeSigned
  rw [same, sender', sender]
  rw [sender] at entries
  clear same built signed
  generalize m.vcMessages = vcMessages at entries ⊢
  induction entries with
  | nil => simp
  | cons first _ ih =>
    rw [List.forall_mem_cons, List.forall_mem_cons, ih, and_congr_left_iff]
    intro _
    constructor
    · intro valid own
      have signature := valid (first.1.trans own)
      rw [first.2 (first.1.trans own)] at signature
      exact signs _ _ signature
    · intro other own
      exact absurd (first.1.symm.trans own) other

theorem ownViewChangeSigned_of_newView
    (signed : signThrough network cfg signmessage i (.derived .newView) (.newView m) =
      some (.ok (.newView sent))) : OwnViewChangeSigned network cfg signmessage sent := by
  rw [signThrough_newView, Option.some.injEq] at signed
  obtain ⟨vcMessages, each, outer⟩ := bind_eq_ok_iff.mp signed
  obtain ⟨signature, -, same⟩ := bind_eq_ok_iff.mp outer
  cases same
  intro vc inside own
  obtain ⟨vc', -, made⟩ := mem_of_mapM each inside
  split at made
  · rename_i sender
    obtain ⟨signature', appended, same⟩ := bind_eq_ok_iff.mp made
    cases same
    unfold appendSignature at appended
    split at appended
    · cases appended
    · rename_i acting
      change signmessage (network.p2pkh m.senderId) (vc'.digest cfg) = .ok signature'
      rw [← sender, not_not.mp acting]
      exact appended
  · rename_i other
    cases made
    exact absurd own other

theorem verifyEach_eq_true_iff {vcMessages : List Messages.ViewChange} :
    Messages.verifyEach network cfg vcMessages = .ok true ↔
      ∀ vc ∈ vcMessages, verifySignature network cfg (.viewChange vc) = .ok true := by
  induction vcMessages with
  | nil => exact iff_of_true rfl nofun
  | cons vc rest ih =>
    rw [Messages.verifyEach, List.forall_mem_cons, ← ih, bind_eq_ok_iff]
    constructor
    · rintro ⟨valid, verified, others⟩
      cases valid with
      | true => exact ⟨verified, others⟩
      | false => cases others
    · rintro ⟨verified, others⟩
      exact ⟨true, verified, others⟩

theorem verifyThrough_newView_iff :
    verifyThrough network cfg (.derived .newView) (.newView m) = some (.ok true) ↔
      verifySignature network cfg (.newView m) = .ok true ∧
        ∀ vc ∈ m.vcMessages, verifySignature network cfg (.viewChange vc) = .ok true := by
  rw [verifyThrough_newView, Option.some.injEq, Messages.NewView.verifySignatures,
    ← verifyEach_eq_true_iff, bind_eq_ok_iff]
  constructor
  · rintro ⟨valid, each, outer⟩
    cases valid with
    | true => exact ⟨outer, each⟩
    | false => cases outer
  · rintro ⟨outer, each⟩
    exact ⟨true, each, outer⟩

/-- A message that the handler takes is in the input buffer. -/
def TakenOnlyVerified (network : Network Block) (cfg : Config) (now : ℚ)
    (m : Messages.NewView Block) (s : ReplicaState Block) : Prop :=
  ∀ s', receiveIncomingMessage network cfg now (.newView m) s = .ok s' →
    s'.inMsgBuffer ≠ s.inMsgBuffer →
      verifySignature network cfg (.newView m) = .ok true ∧
        ∀ vc ∈ m.vcMessages, verifySignature network cfg (.viewChange vc) = .ok true

theorem takenOnlyVerified_iff {now : ℚ} {state : ReplicaState Block} :
    TakenOnlyVerified network cfg now m state ↔
      (verifySignature network cfg (.newView m) = .ok true →
        ∀ vc ∈ m.vcMessages, verifySignature network cfg (.viewChange vc) = .ok true) := by
  have handled (s' : ReplicaState Block) :
      receiveIncomingMessage network cfg now (.newView m) state = .ok s' ↔
        ∃ valid, verifySignature network cfg (.newView m) = .ok valid ∧
          s' = ⟨generateRequests cfg network.genesisBlockTimestamp now state.engine,
            if valid = true then state.inMsgBuffer ++ [.newView m] else state.inMsgBuffer⟩ := by
    rw [receiveIncomingMessage_eq_ok_iff]
    unfold verifySignature
    by_cases known : (Incoming.newView m).senderId < cfg.clusterSize
    · rw [if_pos known]
      exact ⟨fun done => done.2.2, fun done => ⟨returns_ok _, known, done⟩⟩
    · rw [if_neg known]
      exact ⟨fun done => absurd done.2.1 known, fun ⟨_, failed, _⟩ => nomatch failed⟩
  constructor
  · intro only valid
    refine (only _ ((handled _).mpr ⟨true, valid, rfl⟩) ?_).2
    simp
  · intro embedded s' done taken
    obtain ⟨valid, verified, rfl⟩ := (handled s').mp done
    cases valid with
    | false => exact absurd rfl taken
    | true => exact ⟨verified, embedded verified⟩

/-- The VIEW_CHANGE of the sender goes out signed exactly when Nu does not list the sender, and a
NEW_VIEW comes in verified exactly when its own signature is rejected or all those inside it are
valid: the call through `Message` is that of the handler. Called on a `NewView`, the members would
do both. -/
theorem newView_signatures_iff (signs : ∀ address text, signmessage address text ≠ .ok "") :
    (∀ (codec : BlockCodec Block) (s : Replica) (i v : ℕ) (nu : List NuEntry) (chi : List ChiEntry)
        (m sent : Messages.NewView Block),
      Messages.NewView.ofTerms codec i v nu chi s = .ok m →
      signThrough network cfg signmessage i .message (.newView m) = some (.ok (.newView sent)) →
        (OwnViewChangeSigned network cfg signmessage sent ↔ ∀ e ∈ nu, toUInt32 e.j ≠ toUInt32 i)) ∧
    (∀ m : Messages.NewView Block, verifyThrough network cfg .message (.newView m) =
      some ((Incoming.newView m).verifySignatures network cfg)) ∧
    (∀ (now : ℚ) (m : Messages.NewView Block) (s : ReplicaState Block),
      TakenOnlyVerified network cfg now m s ↔
        (verifySignature network cfg (.newView m) = .ok true →
          ∀ vc ∈ m.vcMessages, verifySignature network cfg (.viewChange vc) = .ok true)) ∧
    ∀ m : Messages.NewView Block,
      (∀ (i : ℕ) (sent : Messages.NewView Block),
        signThrough network cfg signmessage i (.derived .newView) (.newView m) =
          some (.ok (.newView sent)) → OwnViewChangeSigned network cfg signmessage sent) ∧
      (verifyThrough network cfg (.derived .newView) (.newView m) = some (.ok true) ↔
        verifySignature network cfg (.newView m) = .ok true ∧
          ∀ vc ∈ m.vcMessages, verifySignature network cfg (.viewChange vc) = .ok true) := by
  refine ⟨fun codec s i v nu chi m sent built signed => ?_, fun m => verifyThrough_message,
    fun now m s => takenOnlyVerified_iff, fun m => ⟨fun i sent => ?_, verifyThrough_newView_iff⟩⟩
  · exact ownViewChangeSigned_iff signs built signed
  · exact ownViewChangeSigned_of_newView

/-- A node whose signatures are the texts themselves, and blocks of two kinds. -/
def signedNetwork : Network Bool :=
  { toBlockCodec := hexBlocks, readJson := fun _ => .ok none,
    sha := id, atomJsonDict := fun j => (j.get "name").asString.toOption.getD "",
    genesisBlockTimestamp := 0, p2pkh := fun _ => "address",
    verifymessage := fun _ signature text => .ok (signature = "signed " ++ text) }

def signText (_address text : String) : Except Fault String := .ok ("signed " ++ text)

def unsignedViewChange : Messages.NewView Bool :=
  ⟨1, "signed new_view", 1,
    [⟨0, "S0", 1, 0, "H0", [], []⟩, ⟨1, "", 1, 0, "H0", [], []⟩,
      ⟨3, "S3", 1, 0, "H0", [⟨1, "(H=1, T=60)", 0⟩], [⟨1, "(H=1, T=60)", "aa", 0⟩]⟩],
    [⟨1, "", 1, 1, "(H=1, T=60)", true⟩]⟩

theorem signText_nonempty (address text : String) : signText address text ≠ .ok "" := by
  intro same
  have lengths := congrArg String.length (Except.ok.inj same)
  simp at lengths

theorem unsignedViewChange_sent : ∃ s m,
    exec fourReplicas 1 Always (certifiedToPrimary "aa" ++ [(100, .sendNewView
      [⟨0, "1/0"⟩, ⟨1, "1/1"⟩, ⟨3, "1/3"⟩] [⟨1, "(H=1, T=60)", some "aa"⟩])]) genesis = some s ∧
    .newView 1 [⟨0, "1/0"⟩, ⟨1, "1/1"⟩, ⟨3, "1/3"⟩] [⟨1, "(H=1, T=60)", some "aa"⟩] ∈ s.msgOut ∧
    Messages.NewView.ofTerms hexBlocks 1 1 [⟨0, "1/0"⟩, ⟨1, "1/1"⟩, ⟨3, "1/3"⟩]
      [⟨1, "(H=1, T=60)", some "aa"⟩] s = .ok m ∧
    signThrough signedNetwork fourReplicas signText 1 .message (.newView m) =
      some (.ok (.newView unsignedViewChange)) := by
  have runs : ∃ s, exec fourReplicas 1 Always (certifiedToPrimary "aa" ++ [(100, .sendNewView
      [⟨0, "1/0"⟩, ⟨1, "1/1"⟩, ⟨3, "1/3"⟩] [⟨1, "(H=1, T=60)", some "aa"⟩])]) genesis = some s ∧
      .newView 1 [⟨0, "1/0"⟩, ⟨1, "1/1"⟩, ⟨3, "1/3"⟩] [⟨1, "(H=1, T=60)", some "aa"⟩] ∈ s.msgOut ∧
      (Messages.NewView.ofTerms hexBlocks 1 1 [⟨0, "1/0"⟩, ⟨1, "1/1"⟩, ⟨3, "1/3"⟩]
        [⟨1, "(H=1, T=60)", some "aa"⟩] s).toOption =
          some { unsignedViewChange with signature := "" } := by
    decide +kernel
  obtain ⟨s, ran, out, built⟩ := runs
  refine ⟨s, _, ran, out, eq_ok_of_toOption built, ?_⟩
  rw [signThrough_message]
  rfl

/-- A reachable replica sends a NEW_VIEW with its own VIEW_CHANGE unsigned, and a replica that
receives it takes it, with three VIEW_CHANGEs that do not verify. -/
theorem newView_signatures_fail : ∃ s m,
    Reachable (Initial fourReplicas) (Step fourReplicas 1) s ∧
    .newView 1 [⟨0, "1/0"⟩, ⟨1, "1/1"⟩, ⟨3, "1/3"⟩] [⟨1, "(H=1, T=60)", some "aa"⟩] ∈ s.msgOut ∧
    Messages.NewView.ofTerms hexBlocks 1 1 [⟨0, "1/0"⟩, ⟨1, "1/1"⟩, ⟨3, "1/3"⟩]
      [⟨1, "(H=1, T=60)", some "aa"⟩] s = .ok m ∧
    signThrough signedNetwork fourReplicas signText 1 .message (.newView m) =
      some (.ok (.newView unsignedViewChange)) ∧
    ¬ OwnViewChangeSigned signedNetwork fourReplicas signText unsignedViewChange ∧
    (∀ vc ∈ unsignedViewChange.vcMessages,
      verifySignature signedNetwork fourReplicas (.viewChange vc) = .ok false) ∧
    ¬ TakenOnlyVerified signedNetwork fourReplicas 100 unsignedViewChange ⟨genesis, []⟩ := by
  obtain ⟨s, m, ran, out, built, signed⟩ := unsignedViewChange_sent
  have rejected : ∀ vc ∈ unsignedViewChange.vcMessages,
      verifySignature signedNetwork fourReplicas (.viewChange vc) = .ok false := by
    intro vc inside
    simp only [unsignedViewChange, List.mem_cons, List.not_mem_nil, or_false] at inside
    rcases inside with rfl | rfl | rfl <;> rfl
  refine ⟨s, m, exec_reachable genesis_initial ran, out, built, signed, ?_, rejected, ?_⟩
  · rw [ownViewChangeSigned_iff signText_nonempty built signed]
    decide
  · rw [takenOnlyVerified_iff]
    intro verified
    have valid := verified rfl _ List.mem_cons_self
    rw [rejected _ List.mem_cons_self] at valid
    cases valid

theorem newView_signatures_iff_unsignedViewChange : ∃ s m,
    Messages.NewView.ofTerms hexBlocks 1 1 [⟨0, "1/0"⟩, ⟨1, "1/1"⟩, ⟨3, "1/3"⟩]
      [⟨1, "(H=1, T=60)", some "aa"⟩] s = .ok m ∧
    (OwnViewChangeSigned signedNetwork fourReplicas signText unsignedViewChange ↔
      ∀ e ∈ ([⟨0, "1/0"⟩, ⟨1, "1/1"⟩, ⟨3, "1/3"⟩] : List NuEntry), toUInt32 e.j ≠ toUInt32 1) := by
  obtain ⟨s, m, -, -, built, signed⟩ := unsignedViewChange_sent
  exact ⟨s, m, built, (@newView_signatures_iff _ signedNetwork fourReplicas _
    signText_nonempty).1 _ _ _ _ _ _ _ _ built signed⟩

end Fbft
