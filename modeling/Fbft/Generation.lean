import Fbft.Codecs
import Fbft.Grinding
import Fbft.Incoming

/-! How a block is made and where its signature goes. The Merkle root covers the coinbase up to the
signet header; the solution is pushed together with that header afterwards, so a block has
its hash before it is signed. -/
namespace Fbft

open CppString Throwing

/-- `CScript`. -/
abbrev Script := List UInt8

/-- `CTxIn`. -/
structure TxIn (Outpoint : Type) where
  prevout : Outpoint
  scriptSig : Script
  nSequence : UInt32
  scriptWitness : List Script
  deriving DecidableEq, Repr

/-- `CTxOut`. -/
structure TxOut where
  nValue : ℤ
  scriptPubKey : Script
  deriving DecidableEq, Repr

/-- `CMutableTransaction`. -/
structure Transaction (Outpoint : Type) where
  nVersion : ℤ
  vin : List (TxIn Outpoint)
  vout : List TxOut
  nLockTime : UInt32
  deriving DecidableEq, Repr

structure CBlock (Hash Outpoint : Type) extends BlockHeader Hash where
  vtx : List (Transaction Outpoint)
  deriving DecidableEq, Repr

/-- What `getblocktemplate` answers. -/
structure BlockTemplate where
  previousblockhash : String
  height : ℕ
  coinbasevalue : ℕ
  version : ℤ
  mintime : ℕ
  bits : String
  transactions : List String

/-- What the chain knows of scripts, transactions and trees of hashes. -/
structure TransactionChain (Hash Outpoint Text : Type) extends HeaderChain Hash Text where
  serializeHeader : BlockHeader Hash → List UInt8
  /-- `SetHex` -/
  setHex : String → Hash
  /-- `begin()` to `end()` -/
  bytes : Hash → List UInt8
  /-- `uint256(0)` -/
  zero : Hash
  /-- `Hash` -/
  hashBytes : List UInt8 → List UInt8
  outpoint : Hash → UInt32 → Outpoint
  /-- `CTransaction::GetHash` -/
  txid : Transaction Outpoint → Hash
  /-- `CScript() << data` -/
  pushData : List UInt8 → Script
  pushData_short : ∀ data, data.length < 0x4C → pushData data = UInt8.ofNat data.length :: data
  /-- `CScript() << height` -/
  pushInt : ℕ → Script
  /-- `TxFromHex` -/
  txFromHex : String → Except Thrown (Transaction Outpoint)
  blockMerkleRoot : List (Transaction Outpoint) → Hash
  blockWitnessMerkleRoot : List (Transaction Outpoint) → Hash
  /-- `SignatureHashSchnorr` -/
  signatureHash : Transaction Outpoint → Transaction Outpoint → Option (List UInt8)

def isHexDigit (c : Char) : Bool := (hexDigit c).isSome

def checkHex (hashStr : String) : Except Thrown String :=
  if hashStr.toList.all isHexDigit then .ok hashStr else .error .invalidArgument

def checkHash (hashStr : String) : Except Thrown String := do
  let hashStr ← checkHex hashStr
  if hashStr.toList.length ≠ 64 then throw .invalidArgument
  return hashStr

/-- The digits that `strtoul` reads in base 16. -/
def hexadecimalDigits : List Char → List Char
  | zero :: x :: c :: rest =>
    if zero = '0' ∧ (x = 'x' ∨ x = 'X') ∧ isHexDigit c = true then (c :: rest).takeWhile isHexDigit
    else (zero :: x :: c :: rest).takeWhile isHexDigit
  | text => text.takeWhile isHexDigit

def hexadecimalValue (digits : List Char) : ℕ :=
  digits.foldl (fun n c => 16 * n + (hexDigit c).getD 0) 0

/-- `stoui(str, nullptr, 16)`. -/
def stoui (str : String) : Except Thrown UInt32 :=
  let text := str.toList.dropWhile isSpace
  let signed := text.head?.any fun c => c = '-' ∨ c = '+'
  let digits := hexadecimalDigits (if signed then text.tail else text)
  let value := hexadecimalValue digits
  let result := if text.head? = some '-' then (2 ^ 64 - value) % 2 ^ 64 else value
  if digits = [] then .error .invalidArgument
  else if 2 ^ 64 ≤ value then .error .outOfRange
  else if 2 ^ 32 ≤ result then .error .outOfRange
  else .ok (UInt32.ofNat result)

def op0 : UInt8 := 0x00
def op1 : UInt8 := 0x51
def opReturn : UInt8 := 0x6A

/-- `SIGNET_HEADER_VEC` -/
def signetHeader : List UInt8 := [0xEC, 0xC7, 0xDA, 0xA2]

/-- An opcode, one element, its length and the element. -/
def signetSolution (signature : List UInt8) : List UInt8 := op0 :: 0x01 :: 0x40 :: signature

def witnessCommitmentHeader : List UInt8 := [0xAA, 0x21, 0xA9, 0xED]

def encodeOpN (number : ℕ) : Except Thrown UInt8 :=
  if 16 < number then .error .runtimeError
  else if number = 0 then .ok op0
  else .ok (op1 + UInt8.ofNat number - 1)

/-- `tx.vout[tx.vout.size() - 1].scriptPubKey = script`. -/
def Transaction.setLastScript {Outpoint : Type} (script : Script) (tx : Transaction Outpoint) :
    Transaction Outpoint :=
  { tx with vout := tx.vout.modify (tx.vout.length - 1) fun out =>
      { out with scriptPubKey := script } }

namespace TransactionChain

variable {Hash Outpoint Text : Type} (chain : TransactionChain Hash Outpoint Text)

/-- Up to 16 a second opcode keeps the script from being too short. -/
def getScriptBIP34CoinbaseHeight (height : ℕ) : Except Thrown Script :=
  if height ≤ 16 then do
    let res ← encodeOpN height
    return [res, op1]
  else .ok (chain.pushInt height)

def buildCoinbaseTransaction (height value : ℕ) (scriptPubKey : Script) :
    Except Thrown (Transaction Outpoint) := do
  let scriptSig ← chain.getScriptBIP34CoinbaseHeight height
  return { nVersion := 1, nLockTime := 0
           vin := [⟨chain.outpoint chain.zero 0xFFFFFFFF, scriptSig, 0xFFFFFFFF, []⟩]
           vout := [⟨value, scriptPubKey⟩] }

def getWitnessScript (witnessRoot witnessNonce : Hash) : Script :=
  let hash := chain.hashBytes (chain.bytes witnessRoot ++ chain.bytes witnessNonce)
  opReturn :: chain.pushData (witnessCommitmentHeader ++ hash)

/-- The witness of the coinbase, and an output for the commitment. -/
def appendCommitment (script : Script) (tx : Transaction Outpoint) : Transaction Outpoint :=
  { tx with
    vin := tx.vin.modify 0 fun input => { input with scriptWitness := [chain.bytes chain.zero] }
    vout := tx.vout ++ [⟨0, script⟩] }

/-- The block before its nonce is found. -/
def assembleBlock (blockTemplate : BlockTemplate) (scriptPubKey : Script)
    (blockTimestamp : UInt32) : Except Thrown (CBlock Hash Outpoint) := do
  let previousBlockHash ← checkHash blockTemplate.previousblockhash
  let coinbaseTx ← chain.buildCoinbaseTransaction blockTemplate.height blockTemplate.coinbasevalue
    scriptPubKey
  if blockTimestamp.toNat < blockTemplate.mintime then throw .runtimeError
  let nBits ← stoui blockTemplate.bits
  let transactions ← blockTemplate.transactions.mapM fun data => do
    let transactionData ← checkHex data
    chain.txFromHex transactionData
  let witRoot := chain.blockWitnessMerkleRoot (coinbaseTx :: transactions)
  let newOutScript := chain.getWitnessScript witRoot chain.zero
  let coinbaseTx := chain.appendCommitment newOutScript coinbaseTx
  let coinbaseTx := coinbaseTx.setLastScript (newOutScript ++ chain.pushData signetHeader)
  let vtx := coinbaseTx :: transactions
  return { nVersion := blockTemplate.version, hashPrevBlock := chain.setHex previousBlockHash
           hashMerkleRoot := chain.blockMerkleRoot vtx, nTime := blockTimestamp
           nBits := nBits, nNonce := 0, vtx := vtx }

def readHeader (headerHex : Text) : Except Thrown (BlockHeader Hash) :=
  match chain.decodeHexBlockHeader headerHex with
  | none => .error .runtimeError
  | some header => .ok header

def mineBlock (fuel : ℕ) (block : CBlock Hash Outpoint) :
    Option (Except Thrown (CBlock Hash Outpoint)) :=
  (chain.grind fuel (chain.hexStr block.toBlockHeader)).map fun grinded => do
    let newHeaderHex ← grinded
    let newHeader ← chain.readHeader newHeaderHex
    return { block with nNonce := newHeader.nNonce }

def generateBlock (fuel : ℕ) (blockTemplate : BlockTemplate) (scriptPubKey : Script)
    (blockTimestamp : UInt32) : Option (Except Thrown (CBlock Hash Outpoint)) :=
  match chain.assembleBlock blockTemplate scriptPubKey blockTimestamp with
  | .error e => some (.error e)
  | .ok block => chain.mineBlock fuel block

/-- The last five bytes were the signet header with its length. -/
def appendSignetSolution (signetSolution : List UInt8) (block : CBlock Hash Outpoint) :
    Except Fault (CBlock Hash Outpoint) :=
  match block.vtx with
  | [] => .error (.thrown .outOfRange)
  | firstTransaction :: rest =>
    match firstTransaction.vout.getLast? with
    | none => .error .undefinedBehaviour
    | some lastOutput =>
      let oldScriptPubKey := lastOutput.scriptPubKey
      if oldScriptPubKey.length < 5 then .error .undefinedBehaviour
      else
        let newScriptPubKey := oldScriptPubKey.take (oldScriptPubKey.length - 5) ++
          chain.pushData (signetHeader ++ signetSolution)
        .ok { block with vtx := firstTransaction.setLastScript newScriptPubKey :: rest }

def signetTxs (signetChallenge : Script) (block : CBlock Hash Outpoint) :
    Transaction Outpoint × Transaction Outpoint :=
  let scriptSig := op0 :: chain.pushData (chain.serializeHeader block.toBlockHeader)
  let toSpend : Transaction Outpoint :=
    { nVersion := 0, nLockTime := 0
      vin := [⟨chain.outpoint chain.zero 0xFFFFFFFF, scriptSig, 0, []⟩]
      vout := [⟨0, signetChallenge⟩] }
  ({ nVersion := 0, nLockTime := 0
     vin := [⟨chain.outpoint (chain.txid toSpend) 0, [], 0, []⟩]
     vout := [⟨0, [opReturn]⟩] }, toSpend)

def taprootSignatureHash (signetChallenge : Script) (block : CBlock Hash Outpoint) :
    Except Fault (List UInt8) :=
  let txs := chain.signetTxs signetChallenge block
  match chain.signatureHash txs.1 txs.2 with
  | none => .error (.thrown .runtimeError)
  | some hash => .ok hash

def finalizeBlock (signetChallenge : Script)
    (aggregateSignatureShares : List UInt8 → Except Fault (List UInt8))
    (block : CBlock Hash Outpoint) : Except Fault (CBlock Hash Outpoint) := do
  let hashOut ← chain.taprootSignatureHash signetChallenge block
  let signature ← aggregateSignatureShares hashOut
  chain.appendSignetSolution (signetSolution signature) block

/-- A finalized block has the header of the block that was proposed, so it has its hash, its proof
of work and the hash that the signers have signed; the root in it covers the coinbase up to the
signet header, behind which the solution stands in the same push. -/
structure Seals (signetChallenge : Script) (signature : List UInt8)
    (block final : CBlock Hash Outpoint) : Prop where
  header : final.toBlockHeader = block.toBlockHeader
  signed : chain.taprootSignatureHash signetChallenge final =
    chain.taprootSignatureHash signetChallenge block
  work : chain.ValidTarget final.nBits ∧
    chain.hash final.toBlockHeader ≤ (chain.setCompact final.nBits).1
  merkleRoot : final.hashMerkleRoot = chain.blockMerkleRoot block.vtx
  solution : ∃ (coinbase : Transaction Outpoint) (commitment : Script)
    (rest : List (Transaction Outpoint)), coinbase.vout ≠ [] ∧
    block.vtx = coinbase.setLastScript (commitment ++ 4 :: signetHeader) :: rest ∧
    final.vtx = coinbase.setLastScript
      (commitment ++ 71 :: (signetHeader ++ signetSolution signature)) :: rest

end TransactionChain

variable {Hash Outpoint Text : Type} {chain : TransactionChain Hash Outpoint Text}
  {tx : Transaction Outpoint} {script script' : Script} {block unmined : CBlock Hash Outpoint}
  {signetChallenge scriptPubKey : Script} {signature hashOut : List UInt8}
  {aggregateSignatureShares : List UInt8 → Except Fault (List UInt8)}
  {blockTemplate : BlockTemplate} {blockTimestamp : UInt32} {fuel : ℕ}

namespace Transaction

@[simp] theorem setLastScript_setLastScript :
    (tx.setLastScript script).setLastScript script' = tx.setLastScript script' := by
  simp only [setLastScript, List.length_modify, List.modify_modify_eq]
  rfl

theorem getLast?_setLastScript (outputs : tx.vout ≠ []) :
    (tx.setLastScript script).vout.getLast?.map TxOut.scriptPubKey = some script := by
  have last : tx.vout.length - 1 < tx.vout.length :=
    Nat.sub_lt (List.length_pos_iff.mpr outputs) Nat.one_pos
  simp [setLastScript, List.getLast?_eq_getElem?, last]

end Transaction

theorem pushData_signetHeader : chain.pushData signetHeader = 4 :: signetHeader :=
  chain.pushData_short _ (by decide)

theorem pushData_signetSolution (size : signature.length = 64) :
    chain.pushData (signetHeader ++ signetSolution signature) =
      71 :: (signetHeader ++ signetSolution signature) := by
  have length : (signetHeader ++ signetSolution signature).length = 71 := by
    simp [signetHeader, signetSolution, size]
  rw [chain.pushData_short _ (by omega), length]
  rfl

structure Assembled (chain : TransactionChain Hash Outpoint Text) (blockTimestamp : UInt32)
    (block : CBlock Hash Outpoint) : Prop where
  time : block.nTime = blockTimestamp
  merkleRoot : block.hashMerkleRoot = chain.blockMerkleRoot block.vtx
  coinbase : ∃ (coinbase : Transaction Outpoint) (commitment : Script)
    (rest : List (Transaction Outpoint)), coinbase.vout ≠ [] ∧
    block.vtx = coinbase.setLastScript (commitment ++ 4 :: signetHeader) :: rest

theorem Assembled.of_assembleBlock
    (made : chain.assembleBlock blockTemplate scriptPubKey blockTimestamp = .ok block) :
    Assembled chain blockTimestamp block := by
  unfold TransactionChain.assembleBlock at made
  obtain ⟨previousBlockHash, -, made⟩ := bind_eq_ok_iff.mp made
  obtain ⟨coinbaseTx, -, made⟩ := bind_eq_ok_iff.mp made
  dsimp only at made
  split at made
  · cases made
  obtain ⟨nBits, -, made⟩ := bind_eq_ok_iff.mp made
  obtain ⟨transactions, -, made⟩ := bind_eq_ok_iff.mp made
  cases made
  refine ⟨rfl, rfl, _, _, transactions, ?_, by rw [pushData_signetHeader]⟩
  simp [TransactionChain.appendCommitment]

theorem mineBlock_eq_ok_iff (enough : 2 ^ 32 ≤ fuel) :
    chain.mineBlock fuel unmined = some (.ok block) ↔
      ∃ nonce, chain.FirstNonce unmined.toBlockHeader nonce ∧
        block = { unmined with nNonce := nonce } := by
  obtain ⟨found, ended, first⟩ := chain.exists_grindTask unmined.toBlockHeader enough
  rw [TransactionChain.mineBlock, HeaderChain.grind, chain.decode_hexStr]
  simp only [ended, Option.map_some, Option.some.injEq, ← first, bind_eq_ok_iff]
  constructor
  · rintro ⟨newHeaderHex, grinded, newHeader, read, same⟩
    cases found with
    | none => cases grinded
    | some nonce =>
      cases grinded
      rw [TransactionChain.readHeader, chain.decode_hexStr] at read
      cases read
      cases same
      exact ⟨nonce, rfl, rfl⟩
  · rintro ⟨nonce, rfl, rfl⟩
    refine ⟨_, rfl, { unmined.toBlockHeader with nNonce := nonce }, ?_, rfl⟩
    rw [TransactionChain.readHeader, chain.decode_hexStr]

theorem appendSignetSolution_eq {coinbase : Transaction Outpoint} {commitment : Script}
    {rest : List (Transaction Outpoint)} (solution : List UInt8) (outputs : coinbase.vout ≠ [])
    (transactions :
      block.vtx = coinbase.setLastScript (commitment ++ 4 :: signetHeader) :: rest) :
    chain.appendSignetSolution solution block = .ok { block with
      vtx := coinbase.setLastScript
        (commitment ++ chain.pushData (signetHeader ++ solution)) :: rest } := by
  have ends : (coinbase.setLastScript (commitment ++ 4 :: signetHeader)).vout.getLast?.map
      TxOut.scriptPubKey = some (commitment ++ 4 :: signetHeader) :=
    Transaction.getLast?_setLastScript outputs
  obtain ⟨last, found, script⟩ := Option.map_eq_some_iff.mp ends
  have long : ¬ (commitment ++ 4 :: signetHeader).length < 5 := by
    simp [signetHeader]
  have kept : (commitment ++ 4 :: signetHeader).take
      ((commitment ++ 4 :: signetHeader).length - 5) = commitment :=
    List.take_left' (by simp [signetHeader])
  simp only [TransactionChain.appendSignetSolution, transactions, found, script, if_neg long, kept,
    Transaction.setLastScript_setLastScript]

theorem Assembled.of_generateBlock (enough : 2 ^ 32 ≤ fuel)
    (generated : chain.generateBlock fuel blockTemplate scriptPubKey blockTimestamp =
      some (.ok block)) :
    Assembled chain blockTimestamp block ∧ chain.ValidTarget block.nBits ∧
      chain.hash block.toBlockHeader ≤ (chain.setCompact block.nBits).1 := by
  unfold TransactionChain.generateBlock at generated
  split at generated
  · cases generated
  rename_i unmined made
  obtain ⟨time, merkleRoot, coinbase⟩ := Assembled.of_assembleBlock made
  obtain ⟨nonce, first, rfl⟩ := (mineBlock_eq_ok_iff enough).mp generated
  exact ⟨⟨time, merkleRoot, coinbase⟩, first.valid, of_decide_eq_true first.meets⟩

/-- A generated block has the time that was asked for, and it is finalized whenever its
signature is made; this changes nothing that the Merkle root, the hash or the signers have
seen. -/
theorem finalizeBlock_generateBlock (enough : 2 ^ 32 ≤ fuel)
    (generated : chain.generateBlock fuel blockTemplate scriptPubKey blockTimestamp =
      some (.ok block))
    (hashed : chain.taprootSignatureHash signetChallenge block = .ok hashOut)
    (aggregated : aggregateSignatureShares hashOut = .ok signature)
    (size : signature.length = 64) :
    block.nTime = blockTimestamp ∧ ∃ final,
      chain.finalizeBlock signetChallenge aggregateSignatureShares block = .ok final ∧
      chain.Seals signetChallenge signature block final := by
  obtain ⟨new, work⟩ := Assembled.of_generateBlock enough generated
  obtain ⟨coinbase, commitment, rest, outputs, transactions⟩ := new.coinbase
  have appended : chain.appendSignetSolution (signetSolution signature) block = _ :=
    appendSignetSolution_eq (signetSolution signature) outputs transactions
  rw [pushData_signetSolution size] at appended
  have finalized : chain.finalizeBlock signetChallenge aggregateSignatureShares block = _ :=
    bind_eq_ok_iff.mpr ⟨hashOut, hashed, bind_eq_ok_iff.mpr ⟨signature, aggregated, appended⟩⟩
  exact ⟨new.time, _, finalized, ⟨rfl, rfl, work, new.merkleRoot,
    coinbase, commitment, rest, outputs, transactions, rfl⟩⟩

/-- A chain whose hashes are numbers, and any header meets the target. -/
def plainChain : TransactionChain ℕ ℕ (BlockHeader ℕ) where
  setCompact _ := (1, false, false)
  hash header := header.nNonce.toNat
  hexStr := id
  decodeHexBlockHeader := some
  decode_hexStr _ := rfl
  serializeHeader header := List.replicate 80 (UInt8.ofNat header.hashMerkleRoot)
  setHex text := text.toList.length
  bytes hash := List.replicate 32 (UInt8.ofNat hash)
  zero := 0
  hashBytes bytes := bytes.take 32
  outpoint hash n := hash + n.toNat
  txid tx := tx.vin.length
  pushData data := if data.length < 0x4C then UInt8.ofNat data.length :: data
    else 0x4C :: UInt8.ofNat data.length :: data
  pushData_short _ short := if_pos short
  pushInt n := [1, UInt8.ofNat n]
  txFromHex _ := .ok ⟨1, [], [], 0⟩
  blockMerkleRoot txs := txs.length
  blockWitnessMerkleRoot txs := txs.length
  signatureHash _ toSpend := some (toSpend.vin.flatMap TxIn.scriptSig)

def firstTemplate : BlockTemplate where
  previousblockhash := String.ofList (List.replicate 64 '0')
  height := 1
  coinbasevalue := 100
  version := 1
  mintime := 59
  bits := "1d00ffff"
  transactions := ["00"]

theorem finalizeBlock_generateBlock_plain : ∃ block final,
    plainChain.generateBlock (2 ^ 32) firstTemplate [op1] 60 = some (.ok block) ∧
    plainChain.finalizeBlock [op1] (fun _ => .ok (List.replicate 64 7)) block = .ok final ∧
    plainChain.Seals [op1] (List.replicate 64 7) block final := by
  have assembled : ∃ unmined, plainChain.assembleBlock firstTemplate [op1] 60 = .ok unmined :=
    ⟨_, rfl⟩
  obtain ⟨unmined, made⟩ := assembled
  have first : plainChain.FirstNonce unmined.toBlockHeader 0 :=
    ⟨⟨one_ne_zero, rfl⟩, by decide, rfl, fun k before => absurd before (by simp)⟩
  have generated : plainChain.generateBlock (2 ^ 32) firstTemplate [op1] 60 =
      some (.ok { unmined with nNonce := 0 }) := by
    rw [TransactionChain.generateBlock, made]
    exact (mineBlock_eq_ok_iff (le_refl _)).mpr ⟨0, first, rfl⟩
  have sealed : _ ∧ ∃ final, plainChain.finalizeBlock [op1] (fun _ => .ok (List.replicate 64 7))
      { unmined with nNonce := 0 } = .ok final ∧
      plainChain.Seals [op1] (List.replicate 64 7) { unmined with nNonce := 0 } final :=
    finalizeBlock_generateBlock (le_refl _) generated rfl rfl (by decide)
  obtain ⟨-, final, finalized, seals⟩ := sealed
  exact ⟨_, final, generated, finalized, seals⟩

end Fbft
