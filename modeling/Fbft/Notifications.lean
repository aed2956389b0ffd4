import Fbft.Buffers
import Fbft.Hex

/-! How the replica hears of a block of the chain: three parts with the topic, forty bytes for
the hash, the height and the time, and a sequence number that is only logged. -/

/-! Numbers as bytes, the least significant one first. -/
namespace LittleEndian

variable {bytes : List UInt8} {k n : ℕ}

def load : List UInt8 → ℕ
  | [] => 0
  | b :: rest => b.toNat + 256 * load rest

def store : ℕ → ℕ → List UInt8
  | 0, _ => []
  | k + 1, n => UInt8.ofNat n :: store k (n / 256)

@[simp] theorem length_store : (store k n).length = k := by
  induction k generalizing n with
  | zero => rfl
  | succ k ih => simp [store, ih]

theorem load_store (fits : n < 256 ^ k) : load (store k n) = n := by
  induction k generalizing n with
  | zero =>
    rw [Nat.pow_zero] at fits
    simp [store, load]
    omega
  | succ k ih =>
    rw [Nat.pow_succ] at fits
    have rest : load (store k (n / 256)) = n / 256 := ih (Nat.div_lt_of_lt_mul (by omega))
    have low : (UInt8.ofNat n).toNat = n % 256 := UInt8.toNat_ofNat'
    rw [store, load, rest, low]
    exact Nat.mod_add_div n 256

theorem load_lt : load bytes < 256 ^ bytes.length := by
  induction bytes with
  | nil => simp [load]
  | cons b bytes ih =>
    have bound := b.toNat_lt
    rw [load, List.length_cons, Nat.pow_succ]
    omega

theorem store_load : store bytes.length (load bytes) = bytes := by
  induction bytes with
  | nil => rfl
  | cons b bytes ih =>
    have bound := b.toNat_lt
    have low : UInt8.ofNat (b.toNat + 256 * load bytes) = b := by
      apply UInt8.toNat_inj.mp
      rw [UInt8.toNat_ofNat']
      omega
    have high : (b.toNat + 256 * load bytes) / 256 = load bytes := by omega
    rw [List.length_cons, load, store, low, high, ih]

end LittleEndian

namespace Fbft

open LittleEndian

def loadLittleU32 (bytes : List UInt8) : UInt32 := UInt32.ofNat (load (bytes.take 4))

def loadLittleS32 (bytes : List UInt8) : Int32 := (loadLittleU32 bytes).toInt32

def itcoinblockMsgSize : ℕ := 40

def itcoinblockTopicName : List UInt8 := bytesOf "itcoinblock"

def decodeItcoinblockPayload (binBuffer : List UInt8) : Option (String × Int32 × UInt32) :=
  if binBuffer.length ≠ itcoinblockMsgSize then none
  else some (stringToHex (binBuffer.take 32), loadLittleS32 (binBuffer.drop 32),
    loadLittleU32 (binBuffer.drop 36))

structure Notification where
  hash : String
  height : Int32
  time : UInt32
  seqNumber : UInt32
  deriving DecidableEq

/-- What becomes of a message: an error is logged, the assertion on the size of a number fails,
or the signal is emitted. -/
inductive Reception where
  | logged
  | assertFails
  | emitted (n : Notification)
  deriving DecidableEq

/-- `ZComm::handler_itcoin_block` on the parts of a message. -/
def handlerItcoinBlock (recvMsgs : List (List UInt8)) : Reception :=
  match recvMsgs with
  | [topicName, payload, seqNumber] =>
    if topicName ≠ itcoinblockTopicName then .logged
    else match decodeItcoinblockPayload payload with
      | none => .logged
      | some (hash, height, time) =>
        if seqNumber.length = 4 then .emitted ⟨hash, height, time, loadLittleU32 seqNumber⟩
        else .assertFails
  | _ => .logged

/-- The message that the handler of the signal makes. A height is read with a sign and kept
without. -/
def Notification.message (n : Notification) : Messages.Block :=
  ⟨n.height.toUInt32.toNat, n.time.toNat, n.hash⟩

def announcement (hash : List UInt8) (height time seqNumber : UInt32) : List (List UInt8) :=
  [itcoinblockTopicName, hash ++ (store 4 height.toNat ++ store 4 time.toNat),
    store 4 seqNumber.toNat]

variable {bytes : List UInt8} {x : UInt32} {recvMsgs : List (List UInt8)} {m : Messages.Block}

theorem loadLittleU32_store (rest : List UInt8) : loadLittleU32 (store 4 x.toNat ++ rest) = x := by
  have whole : (store 4 x.toNat ++ rest).take 4 = store 4 x.toNat := List.take_left' length_store
  rw [loadLittleU32, whole, load_store x.toNat_lt]
  exact UInt32.ofNat_toNat

theorem store_loadLittleU32 (size : bytes.length = 4) :
    store 4 (loadLittleU32 bytes).toNat = bytes := by
  have bound : load bytes < UInt32.size := by
    have lt : load bytes < 256 ^ bytes.length := load_lt
    rwa [size] at lt
  rw [loadLittleU32, List.take_of_length_le (le_of_eq size), UInt32.toNat_ofNat_of_lt' bound]
  exact size ▸ store_load

theorem loadLittleU32_take : loadLittleU32 (bytes.take 4) = loadLittleU32 bytes := by
  rw [loadLittleU32, List.take_take, Nat.min_self, ← loadLittleU32]

theorem decodeItcoinblockPayload_eq_some_iff {payload : List UInt8} {text : String}
    {height : Int32} {time : UInt32} :
    decodeItcoinblockPayload payload = some (text, height, time) ↔
      ∃ hash h, hash.length = 32 ∧ payload = hash ++ (store 4 h.toNat ++ store 4 time.toNat) ∧
        text = stringToHex hash ∧ height = UInt32.toInt32 h := by
  constructor
  · intro decoded
    unfold decodeItcoinblockPayload at decoded
    split at decoded
    · cases decoded
    rename_i size
    rw [not_not, itcoinblockMsgSize] at size
    simp only [Option.some.injEq, Prod.mk.injEq] at decoded
    obtain ⟨rfl, rfl, rfl⟩ := decoded
    refine ⟨payload.take 32, loadLittleU32 (payload.drop 32), by simp [size], ?_, rfl, rfl⟩
    have middle : store 4 (loadLittleU32 (payload.drop 32)).toNat = (payload.drop 32).take 4 := by
      rw [← loadLittleU32_take]
      exact store_loadLittleU32 (by simp [size])
    have last : store 4 (loadLittleU32 (payload.drop 36)).toNat = (payload.drop 32).drop 4 := by
      rw [List.drop_drop]
      exact store_loadLittleU32 (by simp [size])
    rw [middle, last, List.take_append_drop, List.take_append_drop]
  · rintro ⟨hash, h, size, rfl, rfl, rfl⟩
    have whole : (hash ++ (store 4 h.toNat ++ store 4 time.toNat)).length = itcoinblockMsgSize := by
      simp [size, itcoinblockMsgSize]
    have after :
        (hash ++ (store 4 h.toNat ++ store 4 time.toNat)).drop 36 = store 4 time.toNat := by
      rw [← List.append_assoc]
      exact List.drop_left' (by simp [size])
    have last := loadLittleU32_store (x := time) []
    rw [List.append_nil] at last
    rw [decodeItcoinblockPayload, if_neg (not_not.mpr whole), List.take_left' size,
      List.drop_left' size, after, last, loadLittleS32, loadLittleU32_store]

theorem handlerItcoinBlock_cases (kept : handlerItcoinBlock recvMsgs ≠ .logged) :
    ∃ payload seqNumber text height time,
      recvMsgs = [itcoinblockTopicName, payload, seqNumber] ∧
      decodeItcoinblockPayload payload = some (text, height, time) ∧
      handlerItcoinBlock recvMsgs = if seqNumber.length = 4 then
        .emitted ⟨text, height, time, loadLittleU32 seqNumber⟩ else .assertFails := by
  unfold handlerItcoinBlock at kept ⊢
  split at kept
  · rename_i topicName payload seqNumber
    by_cases topic : topicName = itcoinblockTopicName
    · subst topic
      rw [if_neg (not_not.mpr rfl)] at kept ⊢
      split at kept
      · exact absurd rfl kept
      · rename_i text height time decoded
        exact ⟨payload, seqNumber, text, height, time, rfl, decoded, rfl⟩
    · exact absurd (if_pos topic) kept
  · exact absurd rfl kept

theorem handlerItcoinBlock_announcement {hash : List UInt8} {height time seqNumber : UInt32}
    (size : hash.length = 32) :
    handlerItcoinBlock (announcement hash height time seqNumber) =
      .emitted ⟨stringToHex hash, height.toInt32, time, seqNumber⟩ := by
  have decoded : decodeItcoinblockPayload
      (hash ++ (store 4 height.toNat ++ store 4 time.toNat)) =
        some (stringToHex hash, height.toInt32, time) :=
    decodeItcoinblockPayload_eq_some_iff.mpr ⟨hash, height, size, rfl, rfl, rfl⟩
  have number := loadLittleU32_store (x := seqNumber) []
  rw [List.append_nil] at number
  simp only [handlerItcoinBlock, announcement, decoded, number, length_store, ne_eq,
    not_true_eq_false, if_false, if_true]

/-- The handler emits the announcement of each block, with the height, the time and the hash that
were announced, and nothing else; an announcement with a sequence number of another size ends
the process. -/
theorem handlerItcoinBlock_iff :
    ((∃ n, handlerItcoinBlock recvMsgs = .emitted n ∧ n.message = m) ↔
      ∃ hash height time seqNumber, hash.length = 32 ∧
        recvMsgs = announcement hash height time seqNumber ∧
        m = ⟨height.toNat, time.toNat, stringToHex hash⟩) ∧
    (handlerItcoinBlock recvMsgs = .assertFails ↔
      ∃ payload seqNumber, recvMsgs = [itcoinblockTopicName, payload, seqNumber] ∧
        payload.length = itcoinblockMsgSize ∧ seqNumber.length ≠ 4) := by
  refine ⟨⟨?_, ?_⟩, ⟨?_, ?_⟩⟩
  · rintro ⟨n, emitted, rfl⟩
    obtain ⟨payload, seqNumber, text, height, time, rfl, decoded, result⟩ :=
      handlerItcoinBlock_cases (by rw [emitted]; exact nofun)
    rw [emitted] at result
    split at result
    · rename_i four
      cases result
      obtain ⟨hash, h, size, rfl, rfl, rfl⟩ := decodeItcoinblockPayload_eq_some_iff.mp decoded
      refine ⟨hash, h, time, loadLittleU32 seqNumber, size, ?_, ?_⟩
      · rw [announcement, store_loadLittleU32 four]
      · rw [Notification.message, UInt32.toUInt32_toInt32]
    · cases result
  · rintro ⟨hash, height, time, seqNumber, size, rfl, rfl⟩
    refine ⟨_, handlerItcoinBlock_announcement size, ?_⟩
    rw [Notification.message, UInt32.toUInt32_toInt32]
  · intro fails
    obtain ⟨payload, seqNumber, text, height, time, rfl, decoded, result⟩ :=
      handlerItcoinBlock_cases (by rw [fails]; exact nofun)
    rw [fails] at result
    split at result
    · cases result
    · rename_i other
      obtain ⟨hash, h, size, rfl, -, -⟩ := decodeItcoinblockPayload_eq_some_iff.mp decoded
      exact ⟨_, seqNumber, rfl, by simp [size, itcoinblockMsgSize], other⟩
  · rintro ⟨payload, seqNumber, rfl, size, other⟩
    have decoded : decodeItcoinblockPayload payload = some (stringToHex (payload.take 32),
        loadLittleS32 (payload.drop 32), loadLittleU32 (payload.drop 36)) :=
      if_neg (not_not.mpr size)
    simp only [handlerItcoinBlock, decoded, other, ne_eq, not_true_eq_false, if_false]

end Fbft
