import Fbft.Process
import Fbft.Stateful
import Mathlib.Data.List.Nodup

/-! The nonce of `RoastWalletImpl` with every point at which a call may throw, and the two
effects that use it. Beside `m_nonce` and `m_valid_nonce` the state has the history of the
nonces created and of those that a successful `secp256k1_frost_sign` was given. All of it is
one of two moves: a nonce takes the place of another, or the unused nonce signs and is used
from then on. -/
namespace Fbft

open CppString Throwing Stateful

/-- `m_nonce` and `m_valid_nonce`, with the nonces created and signed with, newest first. -/
structure NonceSlot (Nonce : Type) where
  nonce : Option Nonce
  validNonce : Bool
  created : List Nonce
  signed : List Nonce
  deriving DecidableEq, Repr

namespace NonceSlot

variable {Nonce : Type} {create : ℕ → Nonce}

def initial : NonceSlot Nonce := ⟨none, false, [], []⟩

def renew (create : ℕ → Nonce) (s : NonceSlot Nonce) : NonceSlot Nonce :=
  { s with
    nonce := some (create s.created.length)
    validNonce := true
    created := create s.created.length :: s.created }

/-- A share was made with the nonce, which is not valid any more. -/
def use (nonce : Nonce) (s : NonceSlot Nonce) : NonceSlot Nonce :=
  { s with validNonce := false, signed := nonce :: s.signed }

/-- What may happen to the nonce of a wallet. -/
inductive Move (create : ℕ → Nonce) : NonceSlot Nonce → NonceSlot Nonce → Prop where
  | renew {s} : Move create s (s.renew create)
  | use {s nonce} (inPlace : s.nonce = some nonce) (valid : s.validNonce = true) :
      Move create s (s.use nonce)

def Unused (s : NonceSlot Nonce) : Prop := ∃ nonce, s.nonce = some nonce ∧ nonce ∉ s.signed

/-- A nonce that is valid has signed nothing. -/
structure Sound (create : ℕ → Nonce) (s : NonceSlot Nonce) : Prop where
  numbered : ∀ nonce ∈ s.created, ∃ k < s.created.length, create k = nonce
  present : ∀ nonce, s.nonce = some nonce → nonce ∈ s.created
  unused : s.validNonce = true → s.Unused
  signedCreated : ∀ nonce ∈ s.signed, nonce ∈ s.created
  signedOnce : s.signed.Nodup

/-- `m_nonce` and `m_valid_nonce` alone. -/
def wallet (s : NonceSlot Nonce) : Wallet Nonce := ⟨s.nonce, s.validNonce⟩

variable {s t : NonceSlot Nonce} {nonce : Nonce}

theorem initial_sound : Sound create initial := by
  constructor <;> simp [initial]

theorem Sound.next_not_created (fresh : Function.Injective create) (sound : Sound create s) :
    create s.created.length ∉ s.created := by
  intro member
  obtain ⟨k, below, same⟩ := sound.numbered _ member
  have equal := fresh same
  omega

theorem Sound.move (fresh : Function.Injective create) (sound : Sound create s)
    (move : Move create s t) : Sound create t := by
  cases move with
  | renew =>
    refine ⟨?_, ?_, ?_, ?_, sound.signedOnce⟩
    · intro nonce member
      rcases List.mem_cons.mp member with rfl | earlier
      · exact ⟨_, Nat.lt_succ_self _, rfl⟩
      · obtain ⟨k, below, same⟩ := sound.numbered _ earlier
        exact ⟨k, Nat.lt_succ_of_lt below, same⟩
    · rintro nonce ⟨⟩
      exact List.mem_cons_self
    · intro _
      exact ⟨_, rfl, fun signed => sound.next_not_created fresh (sound.signedCreated _ signed)⟩
    · intro nonce signed
      exact List.mem_cons_of_mem _ (sound.signedCreated _ signed)
  | use inPlace valid =>
    refine ⟨sound.numbered, sound.present, ?_, ?_, ?_⟩
    · intro invalid
      cases invalid
    · intro nonce signed
      rcases List.mem_cons.mp signed with rfl | earlier
      · exact sound.present _ inPlace
      · exact sound.signedCreated _ earlier
    · obtain ⟨nonce', same, unsigned⟩ := sound.unused valid
      cases inPlace.symm.trans same
      exact List.nodup_cons.mpr ⟨unsigned, sound.signedOnce⟩

/-- A nonce that was created and is not in place any more. -/
structure Replaced (nonce : Nonce) (s : NonceSlot Nonce) : Prop where
  created : nonce ∈ s.created
  elsewhere : s.nonce ≠ some nonce

/-- A nonce that was replaced stays so, and signs no more. -/
theorem Replaced.move [DecidableEq Nonce] (fresh : Function.Injective create)
    (sound : Sound create s) (replaced : Replaced nonce s) (move : Move create s t) :
    Replaced nonce t ∧ t.signed.count nonce = s.signed.count nonce := by
  cases move with
  | renew =>
    refine ⟨⟨List.mem_cons_of_mem _ replaced.created, ?_⟩, rfl⟩
    intro again
    have same := Option.some.inj again
    exact sound.next_not_created fresh (same ▸ replaced.created)
  | use inPlace valid =>
    refine ⟨⟨replaced.created, replaced.elsewhere⟩, ?_⟩
    apply List.count_cons_of_ne
    rintro rfl
    exact replaced.elsewhere inPlace

theorem Sound.moves (fresh : Function.Injective create) (sound : Sound create s)
    (moves : Relation.ReflTransGen (Move create) s t) : Sound create t := by
  induction moves with
  | refl => exact sound
  | tail _ last ih => exact ih.move fresh last

theorem Replaced.moves [DecidableEq Nonce] (fresh : Function.Injective create)
    (sound : Sound create s) (replaced : Replaced nonce s)
    (moves : Relation.ReflTransGen (Move create) s t) :
    Replaced nonce t ∧ t.signed.count nonce = s.signed.count nonce := by
  induction moves with
  | refl => exact ⟨replaced, rfl⟩
  | tail before last ih =>
    obtain ⟨still, same⟩ := ih.1.move fresh (sound.moves fresh before) last
    exact ⟨still, same.trans ih.2⟩

end NonceSlot

inductive Point where
  | log
  | bindingSeed
  | hidingSeed
  | warning
  | copies
  | signetTxs
  | taprootSignatureHash
  | serialize
  | logResult
  deriving DecidableEq, Repr

abbrev Faults := Point → Option Thrown

def Faults.none : Faults := fun _ => Option.none

section
variable {Nonce : Type}

def passes (faults : Faults) (point : Point) : Stateful Thrown (NonceSlot Nonce) Unit :=
  match faults point with
  | some thrown => throw thrown
  | none => pure ()

/-- The warning that a valid nonce is replaced. -/
def warnsReplacing (faults : Faults) (s : NonceSlot Nonce) :
    Stateful Thrown (NonceSlot Nonce) Unit :=
  if s.validNonce = true then passes faults .warning else pure ()

theorem quiet_passes (faults : Faults) (point : Point) :
    Quiet (passes faults point : Stateful Thrown (NonceSlot Nonce) Unit) := by
  unfold passes
  split
  · exact quiet_throw _
  · exact quiet_pure _

theorem quiet_warnsReplacing (faults : Faults) (s : NonceSlot Nonce) :
    Quiet (warnsReplacing faults s) :=
  quiet_ite (quiet_passes _ _) (quiet_pure _)

@[simp] theorem exec_passes_none (point : Point) (s : NonceSlot Nonce) :
    (passes .none point).exec s = (.ok (), s) := rfl

end

namespace Host

variable {Nonce Block : Type} (host : Host Nonce Block) (create : ℕ → Nonce)

def getPreSignatureShareFrom (faults : Faults) : Stateful Thrown (NonceSlot Nonce) String := do
  passes faults .log
  passes faults .bindingSeed
  passes faults .hidingSeed
  let s ← get
  warnsReplacing faults s
  modify (NonceSlot.renew create)
  passes faults .serialize
  passes faults .logResult
  return serializeSigningCommitment (host.commitments (create s.created.length))

/-- `GetSignatureShare`. Nothing stands between a successful `secp256k1_frost_sign` and the
nonce's end. -/
def getSignatureShareFrom (faults : Faults) (preSignatures : String) (block : Block) :
    Stateful Thrown (NonceSlot Nonce) String := do
  passes faults .log
  if preSignatures = "" then throw .runtimeError
  else do
    let s ← get
    if s.validNonce = false then throw .runtimeError
    else do
      passes faults .copies
      let signingCommitments ←
        lift ((splitPreSignatures preSignatures).mapM deserializeSigningCommitment)
      passes faults .signetTxs
      passes faults .taprootSignatureHash
      match s.nonce with
      | none => throw .runtimeError
      | some nonce =>
        match host.sign block nonce signingCommitments with
        | none => throw .runtimeError
        | some share => do
          modify (NonceSlot.use nonce)
          passes faults .serialize
          passes faults .logResult
          return serializeSignatureShare share

/-- `SendCommit::effect`; `plCall` is the engine's answer. -/
def sendCommitEffect (faults : Faults) (plCall : String → Except Thrown Bool) :
    Stateful Thrown (NonceSlot Nonce) Bool := do
  let preSignature ← host.getPreSignatureShareFrom create faults
  lift (plCall preSignature)

/-- `RoastReceivePreSignature::effect`; without an active ROAST there is no block to sign. -/
def roastReceivePreSignatureEffect (i : ℕ) (blockToSign : Except Thrown (Option Block))
    (signers : List ℕ) (preSignature : String) (signing renewing : Faults)
    (plCall : String → String → Except Thrown Bool) : Stateful Thrown (NonceSlot Nonce) Bool := do
  match ← lift blockToSign with
  | none => return false
  | some block =>
    if i ∈ signers then do
      let signatureShare ← host.getSignatureShareFrom signing preSignature block
      let nextPreSigShare ← host.getPreSignatureShareFrom create renewing
      lift (plCall signatureShare nextPreSigShare)
    else return false

variable {host create} {faults : Faults} {preSignatures : String} {block : Block}
  {s : NonceSlot Nonce}

open NonceSlot

theorem follows_getPreSignatureShare :
    Follows (Move create) (host.getPreSignatureShareFrom create faults) := by
  have published (s : NonceSlot Nonce) : Follows (Move create) (do
      warnsReplacing faults s
      modify (NonceSlot.renew create)
      passes faults .serialize
      passes faults .logResult
      return serializeSigningCommitment (host.commitments (create s.created.length))) :=
    (quiet_warnsReplacing _ _).follows.bind fun _ =>
      (follows_modify fun _ => Move.renew).bind fun _ =>
        ((quiet_passes _ _).bind fun _ => (quiet_passes _ _).bind fun _ => quiet_pure _).follows
  unfold getPreSignatureShareFrom
  exact (quiet_passes _ _).follows.bind fun _ => (quiet_passes _ _).follows.bind fun _ =>
    (quiet_passes _ _).follows.bind fun _ => follows_get_bind fun s => published s s

/-- The nonce signs only while it is valid, and is used at once. -/
theorem follows_getSignatureShare :
    Follows (Move create) (host.getSignatureShareFrom faults preSignatures block) := by
  unfold getSignatureShareFrom
  refine (quiet_passes _ _).follows.bind fun _ => ?_
  split
  · exact (quiet_throw _).follows
  refine follows_get_bind fun s => ?_
  split
  · exact (quiet_throw _).follows s
  rename_i valid
  refine (quiet_passes _ _).bind_moves fun _ => (quiet_lift _).bind_moves fun commitments =>
    (quiet_passes _ _).bind_moves fun _ => (quiet_passes _ _).bind_moves fun _ => ?_
  split
  · exact (quiet_throw _).follows s
  rename_i nonce inPlace
  split
  · exact (quiet_throw _).follows s
  rename_i share made
  rw [exec_bind_ok (exec_modify _)]
  have serialized : Quiet (do
      passes faults .serialize
      passes faults .logResult
      return serializeSignatureShare share : Stateful Thrown (NonceSlot Nonce) String) :=
    (quiet_passes _ _).bind fun _ => (quiet_passes _ _).bind fun _ => quiet_pure _
  rw [serialized]
  exact .single (Move.use inPlace (by simpa using valid))

theorem getSignatureShare_invalid (invalid : s.validNonce = false) :
    ∃ thrown, (host.getSignatureShareFrom faults preSignatures block).exec s =
      (.error thrown, s) := by
  unfold getSignatureShareFrom
  rcases passed : faults .log with _ | thrown
  · have first : (passes faults .log).exec s = (.ok (), s) := by
      unfold passes
      rw [passed]
      rfl
    rw [exec_bind_ok first]
    split
    · exact ⟨_, rfl⟩
    · rw [exec_bind_ok exec_get, if_pos invalid]
      exact ⟨_, rfl⟩
  · have first : (passes faults .log).exec s = (.error thrown, s) := by
      unfold passes
      rw [passed]
      rfl
    exact ⟨thrown, exec_bind_error first⟩

theorem follows_sendCommitEffect {plCall : String → Except Thrown Bool} :
    Follows (Move create) (host.sendCommitEffect create faults plCall) :=
  follows_getPreSignatureShare.bind fun _ => (quiet_lift _).follows

theorem follows_roastReceivePreSignatureEffect {i : ℕ}
    {blockToSign : Except Thrown (Option Block)} {signers : List ℕ} {preSignature : String}
    {signing renewing : Faults} {plCall : String → String → Except Thrown Bool} :
    Follows (Move create) (host.roastReceivePreSignatureEffect create i blockToSign signers
      preSignature signing renewing plCall) := by
  unfold roastReceivePreSignatureEffect
  refine (quiet_lift _).follows.bind fun found => ?_
  cases found with
  | none => exact (quiet_pure _).follows
  | some block =>
    simp only
    split
    · exact follows_getSignatureShare.bind fun _ => follows_getPreSignatureShare.bind fun _ =>
        (quiet_lift _).follows
    · exact (quiet_pure _).follows

theorem getPreSignatureShare_exec :
    (host.getPreSignatureShareFrom create .none).exec s =
      (.ok (host.getPreSignatureShare (create s.created.length) s.wallet).1, s.renew create) ∧
    (s.renew create).wallet =
      (host.getPreSignatureShare (create s.created.length) s.wallet).2 := by
  refine ⟨?_, rfl⟩
  have warned : (warnsReplacing .none s).exec s = (.ok (), s) := by
    unfold warnsReplacing
    split <;> rfl
  unfold getPreSignatureShareFrom
  rw [exec_bind_ok (exec_passes_none _ _), exec_bind_ok (exec_passes_none _ _),
    exec_bind_ok (exec_passes_none _ _), exec_bind_ok exec_get, exec_bind_ok warned]
  rfl

theorem getSignatureShare_exec :
    ((host.getSignatureShareFrom .none preSignatures block).exec s).1 =
      (host.getSignatureShare preSignatures block s.wallet).map Prod.fst ∧
    (∀ signatureShare w, host.getSignatureShare preSignatures block s.wallet =
      .ok (signatureShare, w) →
        ((host.getSignatureShareFrom .none preSignatures block).exec s).2.wallet = w) := by
  unfold getSignatureShareFrom getSignatureShare
  rw [exec_bind_ok (exec_passes_none _ _)]
  by_cases empty : preSignatures = ""
  · rw [if_pos empty, if_pos empty]
    exact ⟨rfl, nofun⟩
  rw [if_neg empty, if_neg empty, exec_bind_ok exec_get]
  by_cases invalid : s.validNonce = false
  · rw [if_pos invalid, if_pos (show s.wallet.validNonce = false from invalid)]
    exact ⟨rfl, nofun⟩
  rw [if_neg invalid, if_neg (show ¬ s.wallet.validNonce = false from invalid),
    exec_bind_ok (exec_passes_none _ _)]
  cases read : (splitPreSignatures preSignatures).mapM deserializeSigningCommitment with
  | error thrown =>
    rw [exec_bind_error (exec_lift _)]
    exact ⟨rfl, nofun⟩
  | ok commitments =>
    rw [exec_bind_ok (exec_lift _), exec_bind_ok (exec_passes_none _ _),
      exec_bind_ok (exec_passes_none _ _)]
    obtain ⟨_ | nonce, validNonce, created, signed⟩ := s
    · exact ⟨rfl, nofun⟩
    · cases made : host.sign block nonce commitments with
      | none =>
        simp only [NonceSlot.wallet, Option.bind_some, made, bind, Except.bind]
        exact ⟨rfl, nofun⟩
      | some share =>
        simp only [NonceSlot.wallet, Option.bind_some, made, bind, Except.bind]
        refine ⟨rfl, ?_⟩
        rintro signatureShare w ⟨⟩
        rfl

end Host

/-- A call of the wallet, or an effect that calls it. -/
inductive WalletCall (Block : Type) where
  | getPreSignatureShare (faults : Faults)
  | getSignatureShare (faults : Faults) (preSignatures : String) (block : Block)
  | sendCommit (faults : Faults) (plCall : String → Except Thrown Bool)
  | roastReceivePreSignature (blockToSign : Except Thrown (Option Block)) (signers : List ℕ)
      (preSignature : String) (signing renewing : Faults)
      (plCall : String → String → Except Thrown Bool)

variable {Nonce Block : Type} (host : Host Nonce Block) (create : ℕ → Nonce) (i : ℕ)

def WalletCall.apply (s : NonceSlot Nonce) : WalletCall Block → NonceSlot Nonce
  | .getPreSignatureShare faults => ((host.getPreSignatureShareFrom create faults).exec s).2
  | .getSignatureShare faults preSignatures block =>
    ((host.getSignatureShareFrom faults preSignatures block).exec s).2
  | .sendCommit faults plCall => ((host.sendCommitEffect create faults plCall).exec s).2
  | .roastReceivePreSignature blockToSign signers preSignature signing renewing plCall =>
    ((host.roastReceivePreSignatureEffect create i blockToSign signers preSignature signing
      renewing plCall).exec s).2

def callWallet (s : NonceSlot Nonce) (calls : List (WalletCall Block)) : NonceSlot Nonce :=
  calls.foldl (WalletCall.apply host create i) s

variable {host create i} {s : NonceSlot Nonce}

open NonceSlot

theorem WalletCall.apply_moves (call : WalletCall Block) :
    Relation.ReflTransGen (Move create) s (call.apply host create i s) := by
  cases call with
  | getPreSignatureShare => exact Host.follows_getPreSignatureShare s
  | getSignatureShare => exact Host.follows_getSignatureShare s
  | sendCommit => exact Host.follows_sendCommitEffect s
  | roastReceivePreSignature => exact Host.follows_roastReceivePreSignatureEffect s

theorem callWallet_moves (calls : List (WalletCall Block)) :
    Relation.ReflTransGen (Move create) s (callWallet host create i s calls) := by
  induction calls generalizing s with
  | nil => exact .refl
  | cons call calls ih => exact (WalletCall.apply_moves call).trans ih

/-- Calls in any order that may throw anywhere: a nonce is signed with once at most, without an
unused nonce a call signs nothing, and a nonce that was replaced is not signed with later. -/
theorem nonce_signs_once [DecidableEq Nonce] (fresh : Function.Injective create)
    (calls : List (WalletCall Block)) :
    let s := callWallet host create i .initial calls
    (∀ nonce ∈ s.signed, nonce ∈ s.created) ∧ (∀ nonce, s.signed.count nonce ≤ 1) ∧
    (¬ s.Unused → ∀ faults preSignatures block, ∃ thrown,
      (host.getSignatureShareFrom faults preSignatures block).exec s = (.error thrown, s)) ∧
    (∀ nonce, Replaced nonce s → ∀ later : List (WalletCall Block),
      (callWallet host create i s later).signed.count nonce = s.signed.count nonce) := by
  intro s
  have sound : Sound create s := initial_sound.moves fresh (callWallet_moves calls)
  refine ⟨sound.signedCreated, List.nodup_iff_count_le_one.mp sound.signedOnce, ?_, ?_⟩
  · intro used faults preSignatures block
    apply Host.getSignatureShare_invalid
    by_contra valid
    exact used (sound.unused (by simpa using valid))
  · intro nonce replaced later
    exact (replaced.moves fresh sound (callWallet_moves later)).2

def commitShareCommit : List (WalletCall String) :=
  [.sendCommit .none fun _ => .ok true,
   .roastReceivePreSignature (.ok (some "block")) [0] "1::0::0" .none .none fun _ _ => .ok true,
   .sendCommit .none fun _ => .ok true]

theorem nonce_signs_once_commitShareCommit :
    let s := callWallet (textHost 0) id 0 .initial commitShareCommit
    s.signed = [0] ∧ s.created = [2, 1, 0] ∧ (∀ nonce, s.signed.count nonce ≤ 1) ∧
      ∀ later, (callWallet (textHost 0) id 0 s later).signed.count 1 = 0 := by
  have signed : (callWallet (textHost 0) id 0 .initial commitShareCommit).signed = [0] := by
    decide +kernel
  have created : (callWallet (textHost 0) id 0 .initial commitShareCommit).created = [2, 1, 0] := by
    decide +kernel
  have once := @nonce_signs_once _ _ (textHost 0) id 0 _ Function.injective_id commitShareCommit
  refine ⟨signed, created, once.2.1, fun later => ?_⟩
  have replaced : Replaced 1 (callWallet (textHost 0) id 0 .initial commitShareCommit) :=
    ⟨by rw [created]; decide, by decide +kernel⟩
  rw [once.2.2.2 1 replaced later, signed]
  rfl

end Fbft
