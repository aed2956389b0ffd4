import Fbft.Wallet

/-! Blocks as texts: two hexadecimal digits for each byte of the serialization. The chain's
serialization is a parameter, and its reader undoes its writer. -/
namespace Fbft

open CppString Throwing

def bytesOf (text : String) : List UInt8 := text.toList.flatMap String.utf8EncodeChar

/-- `std::hex` with a width of two and zeros to fill. -/
def byteDigits (b : UInt8) : List Char :=
  [Nat.digitChar (b.toNat / 16), Nat.digitChar (b.toNat % 16)]

def stringToHex (bytes : List UInt8) : String := String.ofList (bytes.flatMap byteDigits)

def isSpaceByte (b : UInt8) : Bool := [32, 9, 10, 11, 12, 13].contains b.toNat

def hexValue (b : UInt8) : Option ℕ :=
  let code := b.toNat
  if 48 ≤ code ∧ code ≤ 57 then some (code - 48)
  else if 97 ≤ code ∧ code ≤ 102 then some (code - 87)
  else if 65 ≤ code ∧ code ≤ 70 then some (code - 55)
  else none

/-- The digits up to the first byte that is none. -/
def hexNumber : List UInt8 → ℕ → ℕ
  | [], value => value
  | b :: rest, value =>
    match hexValue b with
    | some digit => hexNumber rest (16 * value + digit)
    | none => value

/-- `ss >> s` for a `uint32_t`; where no digit is read the value is 0. Two bytes leave no room
for digits after a prefix `0x`. -/
def extractHex (text : List UInt8) : ℕ :=
  match text.dropWhile isSpaceByte with
  | [] => 0
  | b :: rest =>
    if b.toNat = 45 then (2 ^ 32 - hexNumber rest 0) % 2 ^ 32
    else if b.toNat = 43 then hexNumber rest 0
    else hexNumber (b :: rest) 0

def extractBytes : List UInt8 → List UInt8
  | a :: b :: rest => UInt8.ofNat (extractHex [a, b]) :: extractBytes rest
  | _ => []

def hexToString (text : String) : Except Thrown (List UInt8) :=
  if (bytesOf text).length % 2 ≠ 0 then .error .runtimeError
  else .ok (extractBytes (bytesOf text))

variable {b : UInt8} {bytes : List UInt8}

theorem utf8EncodeChar_digitChar : ∀ d : Fin 16,
    String.utf8EncodeChar (Nat.digitChar d) = [(Nat.digitChar d).val.toUInt8] := by
  decide

theorem extractHex_digits : ∀ high low : Fin 16,
    extractHex [(Nat.digitChar high).val.toUInt8, (Nat.digitChar low).val.toUInt8] =
      16 * high + low := by
  decide +kernel

theorem bytesOf_byteDigits (b : UInt8) : (byteDigits b).flatMap String.utf8EncodeChar =
    [(Nat.digitChar (b.toNat / 16)).val.toUInt8, (Nat.digitChar (b.toNat % 16)).val.toUInt8] := by
  have bound := b.toNat_lt
  have high := utf8EncodeChar_digitChar ⟨b.toNat / 16, by omega⟩
  have low := utf8EncodeChar_digitChar ⟨b.toNat % 16, by omega⟩
  simp only at high low
  simp [byteDigits, high, low]

theorem bytesOf_stringToHex (bytes : List UInt8) : bytesOf (stringToHex bytes) =
    bytes.flatMap fun b =>
      [(Nat.digitChar (b.toNat / 16)).val.toUInt8, (Nat.digitChar (b.toNat % 16)).val.toUInt8] := by
  simp only [bytesOf, stringToHex, String.toList_ofList, List.flatMap_assoc, bytesOf_byteDigits]

theorem extractBytes_digits (bytes : List UInt8) :
    extractBytes (bytes.flatMap fun b =>
      [(Nat.digitChar (b.toNat / 16)).val.toUInt8, (Nat.digitChar (b.toNat % 16)).val.toUInt8]) =
      bytes := by
  induction bytes with
  | nil => rfl
  | cons b bytes ih =>
    have bound := b.toNat_lt
    have read := extractHex_digits ⟨b.toNat / 16, by omega⟩ ⟨b.toNat % 16, by omega⟩
    simp only at read
    have value : 16 * (b.toNat / 16) + b.toNat % 16 = b.toNat := by omega
    simp only [List.flatMap_cons, List.cons_append, List.nil_append, extractBytes, ih, read, value]
    simp

theorem hexToString_stringToHex (bytes : List UInt8) :
    hexToString (stringToHex bytes) = .ok bytes := by
  have even : (bytesOf (stringToHex bytes)).length % 2 = 0 := by
    rw [bytesOf_stringToHex]
    simp
  rw [hexToString, if_neg (by simpa using even), bytesOf_stringToHex, extractBytes_digits]

/-- `CBlock::Serialize` and `CBlock::Unserialize`. -/
structure BlockSerialization (Block : Type) where
  serialize : Block → List UInt8
  unserialize : List UInt8 → Except Thrown Block
  unserialize_serialize : ∀ block, unserialize (serialize block) = .ok block

/-- The constructor from a text, and `GetHex`. -/
def hexSerializableCBlock {Block : Type} (cblock : BlockSerialization Block) : BlockCodec Block where
  parse blockHex := do
    let blockStr ← hexToString blockHex
    cblock.unserialize blockStr
  getHex block := stringToHex (cblock.serialize block)
  parse_getHex block := by
    rw [hexToString_stringToHex]
    exact cblock.unserialize_serialize block

end Fbft
