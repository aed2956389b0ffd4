import Fbft.CppString

/-! The ROAST wallet: a single nonce, and texts that are taken apart and handed to the FROST
library. The library and the chain are parameters; a call that returns 0 is `none`. The bytes
that `HexToCharArray` reads stand as the text that it is given, and it never throws. -/
namespace Fbft

open CppString Throwing

/-- `HexSerializableCBlock`: the constructor from a text, and `GetHex`. -/
structure BlockCodec (Block : Type) where
  parse : String → Except Thrown Block
  getHex : Block → String
  parse_getHex : ∀ block, parse (getHex block) = .ok block

/-- `secp256k1_frost_nonce_commitment`. -/
structure NonceCommitment where
  index : ℕ
  bindingCommitment : List Char
  hidingCommitment : List Char
  deriving DecidableEq, Repr

/-- `secp256k1_frost_signature_share`. -/
structure SignatureShare where
  index : ℕ
  response : List Char
  deriving DecidableEq, Repr

/-- The FROST library with the keys of this replica, and the node of the chain. -/
structure Host (Nonce Block : Type) extends BlockCodec Block where
  /-- `m_nonce->commitments` -/
  commitments : Nonce → NonceCommitment
  /-- `secp256k1_frost_sign` on the hash of the block -/
  sign : Block → Nonce → List NonceCommitment → Option SignatureShare
  /-- `secp256k1_frost_pubkey_load` of the key configured for a replica -/
  pubkeyLoad : ℕ → Bool
  /-- `secp256k1_frost_aggregate` -/
  aggregate : Block → List ℕ → List NonceCommitment → List SignatureShare → Option String
  /-- `secp256k1_frost_verify` -/
  verify : Block → String → Bool
  appendSignetSolution : Block → String → Except Thrown Block
  getHash : Block → String
  nTime : Block → ℕ
  /-- `false`: the call throws -/
  submitBlock : ℕ → Block → Bool

structure Wallet (Nonce : Type) where
  nonce : Option Nonce
  validNonce : Bool
  deriving DecidableEq, Repr

/-- `DELIM_COMMITMENTS` and `DELIM_SIG`. -/
def delim : List Char := "::".toList

def serializeSigningCommitment (c : NonceCommitment) : String :=
  Nat.repr c.index ++ "::" ++ String.ofList c.bindingCommitment ++ "::" ++
    String.ofList c.hidingCommitment

/-- The second field is cut off at the length `end`, a position, so it reaches into the
third. -/
def deserializeSigningCommitment (serialized : List Char) : Except Thrown NonceCommitment := do
  let stop := find delim serialized
  let rawIndex ← substr serialized 0 stop
  let start := past stop delim.length
  let stop := findFrom delim serialized start
  let rawBindingCommitment ← substr serialized start stop
  let start := past stop delim.length
  let rawHidingCommitment ← substr serialized start (some serialized.length)
  let index ← stoul rawIndex
  return ⟨index % 2 ^ 32, rawBindingCommitment, rawHidingCommitment⟩

def serializeSignatureShare (s : SignatureShare) : String :=
  Nat.repr s.index ++ "::" ++ String.ofList s.response

def deserializeSignatureShare (serialized : List Char) : Except Thrown SignatureShare := do
  let stop := find delim serialized
  let rawParticipantIndex ← substr serialized 0 stop
  let index ← stoul rawParticipantIndex
  let rawResponse ← substr serialized (past stop delim.length) (some serialized.length)
  return ⟨index % 2 ^ 32, rawResponse⟩

/-- The loop over `DELIM_PRESIG` does not run on an empty text. -/
def splitPreSignatures (serializedList : String) : List (List Char) :=
  if serializedList = "" then [] else serializedList.toList.splitOn '+'

/-- Items that were joined by the delimiter, and do not have it inside, are found again. -/
theorem splitPreSignatures_intercalate {items : List String} (nonempty : items ≠ [])
    (written : ∀ item ∈ items, item ≠ "") (apart : ∀ item ∈ items, '+' ∉ item.toList) :
    splitPreSignatures (String.intercalate "+" items) = items.map String.toList := by
  have apart' : ∀ item ∈ items.map String.toList, '+' ∉ item := by simpa using apart
  have joined : (String.intercalate "+" items).toList = ['+'].intercalate (items.map String.toList) := by
    simp [String.toList_intercalate]
  have parts := List.splitOn_intercalate '+' apart' (by simpa using nonempty)
  have some_text : String.intercalate "+" items ≠ "" := by
    intro empty
    rw [← joined, empty] at parts
    have first : ([] : List Char) ∈ items.map String.toList := by
      rw [← parts]
      exact List.mem_singleton.mpr rfl
    obtain ⟨item, member, blank⟩ := List.mem_map.mp first
    exact written item member (String.toList_eq_nil_iff.mp blank)
  rw [splitPreSignatures, if_neg some_text, joined, parts]

/-- The text before the first delimiter, where the index is read. -/
def indexText (serialized : List Char) : List Char :=
  match find delim serialized with
  | some stop => serialized.take stop
  | none => serialized

theorem substr_index (serialized : List Char) :
    substr serialized 0 (find delim serialized) = .ok (indexText serialized) := by
  unfold substr indexText
  cases find delim serialized <;> simp

theorem not_numeric_nil : ¬ Numeric [] := by
  decide

private theorem past_find_le {serialized : List Char} (nonempty : serialized ≠ []) :
    past (find delim serialized) delim.length ≤ serialized.length := by
  have positive := List.length_pos_iff.mpr nonempty
  cases found : find delim serialized with
  | none => exact positive
  | some stop => exact find_le found

/-- Whatever stands after a numeric index, a commitment is read. -/
theorem returns_deserializeSigningCommitment (serialized : List Char) :
    Returns (deserializeSigningCommitment serialized) ↔ Numeric (indexText serialized) := by
  unfold deserializeSigningCommitment
  simp only [returns_bind, substr_index, Except.ok.injEq, exists_eq_left']
  constructor
  · rintro ⟨_, -, _, -, index, read, -⟩
    exact returns_stoul.mp ⟨index, read⟩
  · intro numeric
    have nonempty : serialized ≠ [] := by
      rintro rfl
      exact not_numeric_nil numeric
    have positive := List.length_pos_iff.mpr nonempty
    obtain ⟨_, first⟩ := (returns_substr (findFrom delim serialized
      (past (find delim serialized) delim.length))).mpr (past_find_le nonempty)
    obtain ⟨_, second⟩ := (returns_substr (some serialized.length)).mpr
      (past_findFrom_le delim (past (find delim serialized) delim.length) fun _ => positive)
    obtain ⟨index, read⟩ := returns_stoul.mpr numeric
    exact ⟨_, first, _, second, index, read, returns_pure _⟩

theorem returns_deserializeSignatureShare (serialized : List Char) :
    Returns (deserializeSignatureShare serialized) ↔ Numeric (indexText serialized) := by
  unfold deserializeSignatureShare
  simp only [returns_bind, substr_index, Except.ok.injEq, exists_eq_left']
  constructor
  · rintro ⟨index, read, -⟩
    exact returns_stoul.mp ⟨index, read⟩
  · intro numeric
    have nonempty : serialized ≠ [] := by
      rintro rfl
      exact not_numeric_nil numeric
    obtain ⟨index, read⟩ := returns_stoul.mpr numeric
    obtain ⟨response, rest⟩ := (returns_substr (some serialized.length)).mpr
      (past_find_le nonempty)
    exact ⟨index, read, response, rest, returns_pure _⟩

namespace Host

variable {Nonce Block : Type} (host : Host Nonce Block)

/-- A new nonce replaces the one in place; its commitments are returned. -/
def getPreSignatureShare (fresh : Nonce) (_w : Wallet Nonce) : String × Wallet Nonce :=
  (serializeSigningCommitment (host.commitments fresh), ⟨some fresh, true⟩)

def getSignatureShare (preSignatures : String) (block : Block) (w : Wallet Nonce) :
    Except Thrown (String × Wallet Nonce) :=
  if preSignatures = "" then .error .runtimeError
  else if w.validNonce = false then .error .runtimeError
  else do
    let signingCommitments ← (splitPreSignatures preSignatures).mapM deserializeSigningCommitment
    match w.nonce.bind fun nonce => host.sign block nonce signingCommitments with
    | none => .error .runtimeError
    | some share => return (serializeSignatureShare share, { w with validNonce := false })

/-- The replicas whose index occurs among the shares, in the order of the configuration. -/
def participants (clusterSize : ℕ) (shares : List SignatureShare) : List ℕ :=
  (List.range clusterSize).filter fun id => ∃ share ∈ shares, share.index = id + 1

def aggregateSignatureShares (clusterSize : ℕ) (block : Block) (preSignatures : String)
    (signatureShares : List String) : Except Thrown String := do
  let allResponses ← (signatureShares.map String.toList).mapM deserializeSignatureShare
  let signingCommitments ← (splitPreSignatures preSignatures).mapM deserializeSigningCommitment
  let signers := participants clusterSize allResponses
  if ¬ ∀ id ∈ signers, host.pubkeyLoad id = true then throw .runtimeError
  match host.aggregate block signers signingCommitments allResponses with
  | none => throw .runtimeError
  | some signature =>
    if host.verify block signature = true then return signature else throw .runtimeError

def finalizeBlock (clusterSize : ℕ) (block : Block) (preSignatures : String)
    (signatureShares : List String) : Except Thrown Block := do
  let signature ← host.aggregateSignatureShares clusterSize block preSignatures signatureShares
  host.appendSignetSolution block signature

variable {host} in
theorem getSignatureShare_spec {preSignatures signatureShare : String} {block : Block}
    {w w' : Wallet Nonce}
    (signed : host.getSignatureShare preSignatures block w = .ok (signatureShare, w')) :
    ∃ nonce commitments share, w.nonce = some nonce ∧ w.validNonce = true ∧
      (splitPreSignatures preSignatures).mapM deserializeSigningCommitment = .ok commitments ∧
      host.sign block nonce commitments = some share ∧
      signatureShare = serializeSignatureShare share := by
  unfold getSignatureShare at signed
  split at signed
  · cases signed
  split at signed
  · cases signed
  rename_i valid
  obtain ⟨commitments, read, rest⟩ := bind_eq_ok_iff.mp signed
  split at rest
  · cases rest
  rename_i share made
  obtain ⟨nonce, present, made⟩ := Option.bind_eq_some_iff.mp made
  cases rest
  exact ⟨nonce, commitments, share, present, by simpa using valid, read, made, rfl⟩

end Host

end Fbft
