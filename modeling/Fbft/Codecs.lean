import Fbft.Hex
import Fbft.Roast

/-! Commitments and shares in bytes: the texts of `Wallet` with what `CharArrayToHex` writes to
its buffer and `HexToCharArray` to its field. The offsets of all writes are kept. Every text
ends with a NUL that the buffer has no room for, and the text read as the binding commitment
goes on into the hiding one, past the end of the field. -/
namespace Fbft

open CppString Throwing

structure FrostNonceCommitment where
  index : UInt32
  bindingBytes : Vector UInt8 64
  hidingBytes : Vector UInt8 64
  deriving DecidableEq, Repr

structure FrostSignatureShare where
  index : UInt32
  response : Vector UInt8 32
  deriving DecidableEq, Repr

/-- What `sprintf(buffer + i, "%02x", b)` writes: two digits and the end of the text. -/
def sprintfHex (i : ℕ) (b : UInt8) : List (ℕ × Char) :=
  [(i, Nat.digitChar (b.toNat / 16)), (i + 1, Nat.digitChar (b.toNat % 16)), (i + 2, nul)]

def hexWrites (i : ℕ) : List UInt8 → List (ℕ × Char)
  | [] => []
  | b :: bytes => sprintfHex i b ++ hexWrites (i + 2) bytes

def lastWrite (k : ℕ) : List (ℕ × Char) → Option Char
  | [] => none
  | write :: writes => lastWrite k writes <|> if write.1 = k then some write.2 else none

/-- The text from an offset on, up to its NUL. -/
def cString (writes : List (ℕ × Char)) : ℕ → ℕ → List Char
  | 0, _ => []
  | fuel + 1, k =>
    match lastWrite k writes with
    | none => []
    | some c => if c = nul then [] else c :: cString writes fuel (k + 1)

/-- The text in the buffer; it cannot be longer than all writes. -/
def charArrayToHex (bytes : List UInt8) : List Char :=
  cString (hexWrites 0 bytes) (2 * bytes.length + 1) 0

def hexDigit (c : Char) : Option ℕ :=
  let code := c.toNat
  if 48 ≤ code ∧ code ≤ 57 then some (code - 48)
  else if 97 ≤ code ∧ code ≤ 102 then some (code - 87)
  else if 65 ≤ code ∧ code ≤ 70 then some (code - 55)
  else none

def hexDigits : List Char → Option ℕ
  | [] => none
  | c :: rest => (hexDigit c).map fun high =>
    match rest.head?.bind hexDigit with
    | some low => 16 * high + low
    | none => high

/-- `sscanf(text, "%02x", &d)`, where `none` leaves `d` as it is. Two characters have no room
for digits after a prefix `0x`. -/
def scanHex (text : List Char) : Option ℕ :=
  match (text.dropWhile isSpace).take 2 with
  | [] => none
  | c :: rest =>
    if c.toNat = 45 then (hexDigits rest).map fun n => 2 ^ 32 - n
    else if c.toNat = 43 then hexDigits rest
    else hexDigits (c :: rest)

/-- The bytes written, one after the other from the start of the field; `d` has no value before
the first digits are read. -/
def hexToCharArray (d : UInt8) : List Char → List UInt8
  | [] => []
  | [c] => [((scanHex [c]).map UInt8.ofNat).getD d]
  | c :: c' :: rest =>
    let d := ((scanHex (c :: c' :: rest)).map UInt8.ofNat).getD d
    d :: hexToCharArray d rest

/-- A field of `n` bytes, with what was in it where nothing is written. -/
def field (n : ℕ) (before : UInt8) (writes : List UInt8) : Vector UInt8 n :=
  Vector.ofFn fun k => writes.getD k before

def FrostNonceCommitment.text (c : FrostNonceCommitment) : NonceCommitment :=
  ⟨c.index.toNat, charArrayToHex c.bindingBytes.toList, charArrayToHex c.hidingBytes.toList⟩

def FrostNonceCommitment.serialize (c : FrostNonceCommitment) : String :=
  serializeSigningCommitment c.text

/-- What `DeserializeSigningCommitment` returns, and what it writes to each field. -/
structure ReadCommitment where
  commitment : FrostNonceCommitment
  bindingWrites : List UInt8
  hidingWrites : List UInt8

def readSigningCommitment (d : UInt8) (serialized : List Char) : Except Thrown ReadCommitment := do
  let c ← deserializeSigningCommitment serialized
  let bindingWrites := hexToCharArray d c.bindingCommitment
  let hidingWrites := hexToCharArray d c.hidingCommitment
  return ⟨⟨UInt32.ofNat c.index, field 64 0 bindingWrites, field 64 0 hidingWrites⟩,
    bindingWrites, hidingWrites⟩

def FrostSignatureShare.serialize (s : FrostSignatureShare) : String :=
  serializeSignatureShare ⟨s.index.toNat, charArrayToHex s.response.toList⟩

structure ReadShare where
  share : FrostSignatureShare
  responseWrites : List UInt8

def readSignatureShare (d before : UInt8) (serialized : List Char) : Except Thrown ReadShare := do
  let s ← deserializeSignatureShare serialized
  let responseWrites := hexToCharArray d s.response
  return ⟨⟨UInt32.ofNat s.index, field 32 before responseWrites⟩, responseWrites⟩

/-- A position that is stored in a `uint32_t`; `npos` is the greatest. -/
def position32 (pos : Option ℕ) : UInt32 :=
  match pos with
  | some pos => UInt32.ofNat pos
  | none => UInt32.ofNat (2 ^ 32 - 1)

/-- The loop; `none` when it has not ended. -/
def splitLoop (text : List Char) : ℕ → UInt32 → UInt32 → List (List Char) →
    Option (Except Thrown (List (List Char)))
  | 0, _, _, _ => none
  | fuel + 1, start, stop, items =>
    if stop.toNat < text.length then
      let stop := position32 (findFrom ['+'] text start.toNat)
      match substr text start.toNat (some (stop - start).toNat) with
      | .error thrown => some (.error thrown)
      | .ok item => splitLoop text fuel (stop + 1) stop (items ++ [item])
    else some (.ok items)

variable {bytes : List UInt8} {i k : ℕ}

theorem lastWrite_append (writes later : List (ℕ × Char)) :
    lastWrite k (writes ++ later) = (lastWrite k later <|> lastWrite k writes) := by
  induction writes with
  | nil => simp [lastWrite]
  | cons write writes ih =>
    simp only [List.cons_append, lastWrite, ih]
    cases lastWrite k later <;> rfl

theorem le_of_mem_hexWrites {write : ℕ × Char} (written : write ∈ hexWrites i bytes) :
    i ≤ write.1 := by
  induction bytes generalizing i with
  | nil => cases written
  | cons b bytes ih =>
    rcases List.mem_append.mp written with here | later
    · simp only [sprintfHex, List.mem_cons, List.not_mem_nil, or_false] at here
      rcases here with rfl | rfl | rfl <;> simp
    · have le := ih later
      omega

theorem lastWrite_eq_none {writes : List (ℕ × Char)} (apart : ∀ write ∈ writes, write.1 ≠ k) :
    lastWrite k writes = none := by
  induction writes with
  | nil => rfl
  | cons write writes ih =>
    obtain ⟨first, others⟩ := List.forall_mem_cons.mp apart
    rw [lastWrite, ih others, if_neg first]
    rfl

theorem lastWrite_hexWrites_of_lt (below : k < i) : lastWrite k (hexWrites i bytes) = none := by
  apply lastWrite_eq_none
  intro write written
  have le := le_of_mem_hexWrites written
  omega

theorem nul_mem_hexWrites (nonempty : bytes ≠ []) :
    (i + 2 * bytes.length, nul) ∈ hexWrites i bytes := by
  induction bytes generalizing i with
  | nil => exact absurd rfl nonempty
  | cons b bytes ih =>
    cases bytes with
    | nil => simp [hexWrites, sprintfHex]
    | cons b' rest =>
      have later := ih (i := i + 2) (by simp)
      have offset : i + 2 + 2 * (b' :: rest).length = i + 2 * (b :: b' :: rest).length := by
        simp only [List.length_cons]
        omega
      rw [offset] at later
      exact List.mem_append_right _ later

theorem digitChar_ne_nul {d : ℕ} (lt : d < 16) : Nat.digitChar d ≠ nul := by
  have all : ∀ d : Fin 16, Nat.digitChar d ≠ nul := by decide
  exact all ⟨d, lt⟩

theorem cString_hexWrites (before : List (ℕ × Char))
    (ended : lastWrite i before = some nul ∨ bytes ≠ []) :
    cString (before ++ hexWrites i bytes) (2 * bytes.length + 1) i = bytes.flatMap byteDigits := by
  induction bytes generalizing before i with
  | nil =>
    have last : lastWrite i before = some nul := ended.resolve_right (by simp)
    simp [hexWrites, cString, last]
  | cons b bytes ih =>
    have bound := b.toNat_lt
    have rest := ih (i := i + 2) (before ++ sprintfHex i b) (Or.inl (by
      rw [lastWrite_append]
      simp [sprintfHex, lastWrite]))
    have high : lastWrite i (before ++ hexWrites i (b :: bytes)) =
        some (Nat.digitChar (b.toNat / 16)) := by
      rw [lastWrite_append, hexWrites, lastWrite_append, lastWrite_hexWrites_of_lt (by omega)]
      simp [sprintfHex, lastWrite]
    have low : lastWrite (i + 1) (before ++ hexWrites i (b :: bytes)) =
        some (Nat.digitChar (b.toNat % 16)) := by
      rw [lastWrite_append, hexWrites, lastWrite_append, lastWrite_hexWrites_of_lt (by omega)]
      simp [sprintfHex, lastWrite]
    have fuel : 2 * (b :: bytes).length + 1 = 2 * bytes.length + 1 + 1 + 1 := by
      rw [List.length_cons]
      omega
    rw [fuel, cString, high]
    simp only
    rw [if_neg (digitChar_ne_nul (by omega)), cString, low]
    simp only
    rw [if_neg (digitChar_ne_nul (by omega)), List.flatMap_cons]
    rw [hexWrites, ← List.append_assoc, rest]
    rfl

theorem charArrayToHex_eq (nonempty : bytes ≠ []) :
    charArrayToHex bytes = bytes.flatMap byteDigits :=
  cString_hexWrites [] (Or.inr nonempty)

theorem length_hexToCharArray : ∀ (d : UInt8) (text : List Char),
    (hexToCharArray d text).length = (text.length + 1) / 2
  | _, [] => rfl
  | _, [_] => by simp [hexToCharArray]
  | _, _ :: _ :: rest => by
    rw [hexToCharArray, List.length_cons, length_hexToCharArray _ rest]
    simp only [List.length_cons]
    omega

theorem scanHex_digits (high low : Fin 16) (rest : List Char) :
    scanHex (Nat.digitChar high :: Nat.digitChar low :: rest) = some (16 * high.val + low.val) := by
  have noSpace : ∀ d : Fin 16, isSpace (Nat.digitChar d) = false := by decide
  have read : ∀ high low : Fin 16,
      scanHex [Nat.digitChar high, Nat.digitChar low] = some (16 * high.val + low.val) := by
    decide +kernel
  rw [← read high low]
  simp only [scanHex, List.dropWhile_cons, noSpace, Bool.false_eq_true, if_false, List.take_succ_cons,
    List.take_zero]

theorem hexToCharArray_digits (d : UInt8) (bytes : List UInt8) (rest : List Char) :
    hexToCharArray d (bytes.flatMap byteDigits ++ rest) =
      bytes ++ hexToCharArray (bytes.getLastD d) rest := by
  induction bytes generalizing d with
  | nil => rfl
  | cons b bytes ih =>
    have bound := b.toNat_lt
    have read := scanHex_digits ⟨b.toNat / 16, by omega⟩ ⟨b.toNat % 16, by omega⟩
      (bytes.flatMap byteDigits ++ rest)
    have value : 16 * (b.toNat / 16) + b.toNat % 16 = b.toNat := by omega
    simp only [value] at read
    simp only [List.flatMap_cons, byteDigits, List.cons_append, List.nil_append, hexToCharArray, read,
      Option.map_some, Option.getD_some, UInt8.ofNat_toNat]
    rw [ih b, List.getLastD_cons]

theorem field_eq {n : ℕ} (v : Vector UInt8 n) (before : UInt8) (rest : List UInt8) :
    field n before (v.toList ++ rest) = v := by
  ext k lt
  have inside : (v.toList ++ rest)[k]? = some v[k] := by
    rw [List.getElem?_append_left (by simpa using lt)]
    simp [lt]
  simp [field, inside]

theorem length_digits (bytes : List UInt8) : (bytes.flatMap byteDigits).length = 2 * bytes.length := by
  induction bytes with
  | nil => rfl
  | cons b bytes ih =>
    rw [List.flatMap_cons, List.length_append, ih]
    simp only [byteDigits, List.length_cons, List.length_nil]
    omega

theorem not_mem_digits (bytes : List UInt8) :
    ':' ∉ bytes.flatMap byteDigits ∧ '+' ∉ bytes.flatMap byteDigits := by
  have digit : ∀ d : Fin 16, Nat.digitChar d ≠ ':' ∧ Nat.digitChar d ≠ '+' := by decide
  have other : ∀ c ∈ bytes.flatMap byteDigits, c ≠ ':' ∧ c ≠ '+' := by
    intro c member
    obtain ⟨b, -, inside⟩ := List.mem_flatMap.mp member
    have bound := b.toNat_lt
    simp only [byteDigits, List.mem_cons, List.not_mem_nil, or_false] at inside
    rcases inside with rfl | rfl
    · exact digit ⟨b.toNat / 16, by omega⟩
    · exact digit ⟨b.toNat % 16, by omega⟩
  exact ⟨fun member => (other _ member).1 rfl, fun member => (other _ member).2 rfl⟩

theorem not_mem_index (n : ℕ) : ':' ∉ Nat.toDigits 10 n ∧ '+' ∉ Nat.toDigits 10 n := by
  have digit (c : Char) (member : c ∈ Nat.toDigits 10 n) : c.isDigit = true :=
    Nat.isDigit_of_mem_toDigits (by decide) (by decide) member
  exact ⟨fun member => absurd (digit _ member) (by decide),
    fun member => absurd (digit _ member) (by decide)⟩

/-- A text of three parts between delimiters: the second part is cut at a length that is a
position, and has the start of the third in it. -/
theorem deserializeSigningCommitment_parts {n : ℕ} {binding hidden : List Char} (lt : n < 2 ^ 32)
    (apart : ':' ∉ binding) :
    deserializeSigningCommitment (Nat.toDigits 10 n ++ delim ++ (binding ++ delim ++ hidden)) =
      .ok ⟨n, binding ++ (delim ++ hidden).take ((Nat.toDigits 10 n).length + 2), hidden⟩ := by
  let index := Nat.toDigits 10 n
  let text := index ++ delim ++ (binding ++ delim ++ hidden)
  have two : delim.length = 2 := rfl
  have first : find delim text = some index.length :=
    find_append (not_mem_index n).1 (binding ++ delim ++ hidden)
  have length : (index ++ delim).length = index.length + 2 := List.length_append
  have second : findFrom delim text (index.length + 2) = some (index.length + 2 + binding.length) := by
    have found : findFrom delim ((index ++ delim) ++ (binding ++ delim ++ hidden))
        (index ++ delim).length = some ((index ++ delim).length + binding.length) :=
      findFrom_append (index ++ delim) apart hidden
    rw [length] at found
    exact found
  have rawIndex : substr text 0 (some index.length) = .ok index := by
    simp [substr, text]
  have rawBinding : substr text (index.length + 2) (some (index.length + 2 + binding.length)) =
      .ok (binding ++ (delim ++ hidden).take (index.length + 2)) := by
    have rest := substr_append (index ++ delim) (binding ++ (delim ++ hidden))
      (index.length + 2 + binding.length)
    rw [length, Nat.add_comm _ binding.length, List.take_length_add_append, Nat.add_comm binding.length,
      ← List.append_assoc binding] at rest
    exact rest
  have rawHiding : substr text (index.length + 2 + binding.length + 2) (some text.length) =
      .ok hidden := by
    have before : (index ++ delim ++ (binding ++ delim)).length =
        index.length + 2 + binding.length + 2 := by
      simp only [List.length_append, two]
      omega
    have whole : text = (index ++ delim ++ (binding ++ delim)) ++ hidden := by
      simp only [text, List.append_assoc]
    have rest : hidden.length ≤ ((index ++ delim ++ (binding ++ delim)) ++ hidden).length := by
      rw [List.length_append]
      exact Nat.le_add_left _ _
    rw [← before, whole, substr_append, List.take_of_length_le rest]
  have read : stoul index = .ok n := stoul_repr (by omega)
  change deserializeSigningCommitment text = _
  unfold deserializeSigningCommitment
  simp only [first, rawIndex, bind, Except.bind, past, two, second, rawBinding, rawHiding, read,
    pure, Except.pure, Nat.mod_eq_of_lt lt]
  rfl

theorem FrostNonceCommitment.text_eq (c : FrostNonceCommitment) :
    c.text = ⟨c.index.toNat, c.bindingBytes.toList.flatMap byteDigits,
      c.hidingBytes.toList.flatMap byteDigits⟩ := by
  have some64 (v : Vector UInt8 64) : v.toList ≠ [] := by
    rw [← List.length_pos_iff]
    simp
  rw [FrostNonceCommitment.text, charArrayToHex_eq (some64 _), charArrayToHex_eq (some64 _)]

theorem FrostNonceCommitment.toList_serialize (c : FrostNonceCommitment) :
    c.serialize.toList = Nat.toDigits 10 c.index.toNat ++ delim ++
      (c.bindingBytes.toList.flatMap byteDigits ++ delim ++
        c.hidingBytes.toList.flatMap byteDigits) := by
  simp [FrostNonceCommitment.serialize, serializeSigningCommitment, text_eq, delim]

theorem length_index_le (n : UInt32) : (Nat.toDigits 10 n.toNat).length ≤ 10 := by
  have bound := n.toNat_lt
  exact (Nat.length_toDigits_le_iff (by omega) (by omega)).mpr (by omega)

/-- What `DeserializeSigningCommitment` makes of the text of a commitment: the fields have the
bytes, and the binding field is written past its end. -/
theorem FrostNonceCommitment.read_serialize (d : UInt8) (c : FrostNonceCommitment) :
    ∃ r, readSigningCommitment d c.serialize.toList = .ok r ∧ r.commitment = c ∧
      r.bindingWrites.length = 65 + ((Nat.toDigits 10 c.index.toNat).length + 1) / 2 ∧
      r.hidingWrites.length = 64 := by
  have short := length_index_le c.index
  have read := @deserializeSigningCommitment_parts _ _ (c.hidingBytes.toList.flatMap byteDigits)
    c.index.toNat_lt (not_mem_digits c.bindingBytes.toList).1
  rw [← toList_serialize] at read
  have hidingWrites : hexToCharArray d (c.hidingBytes.toList.flatMap byteDigits) =
      c.hidingBytes.toList ++ [] := by
    have written := hexToCharArray_digits d c.hidingBytes.toList []
    rwa [List.append_nil] at written
  refine ⟨_, by rw [readSigningCommitment, read]; rfl, ?_, ?_, ?_⟩
  · simp only [hexToCharArray_digits, hidingWrites, field_eq]
    simp
  · simp only [length_hexToCharArray, List.length_append, length_digits, List.length_take,
      Vector.length_toList]
    have two : delim.length = 2 := rfl
    omega
  · simp only [length_hexToCharArray, length_digits, Vector.length_toList]

theorem toNat_position32 {k : ℕ} (lt : k < 2 ^ 32) : (position32 (some k)).toNat = k := by
  simp only [position32, UInt32.toNat_ofNat']
  exact Nat.mod_eq_of_lt lt

/-- While the text is shorter than a `uint32_t` can count, the loop splits what is left. -/
theorem splitLoop_eq {text : List Char} (short : text.length < 2 ^ 32) (fuel : ℕ)
    (start stop : UInt32) (items : List (List Char)) (inside : start.toNat ≤ text.length)
    (goesOn : stop.toNat < text.length) (enough : text.length - start.toNat + 1 < fuel) :
    splitLoop text fuel start stop items =
      some (.ok (items ++ (text.drop start.toNat).splitOn '+')) := by
  induction fuel generalizing start stop items with
  | zero => omega
  | succ fuel ih =>
    have notBefore : ¬ text.length < start.toNat := by omega
    rw [splitLoop, if_pos goesOn, findFrom, if_neg notBefore]
    rcases find_singleton_cases '+' (text.drop start.toNat) with
      ⟨apart, none⟩ | ⟨pre, post, apart, parts, found⟩
    · -- the last item: `npos` is past the end of the text
      have last : (position32 Option.none).toNat = 2 ^ 32 - 1 := by decide
      have rest : (text.drop start.toNat).length ≤ (position32 Option.none - start).toNat := by
        rw [UInt32.toNat_sub_of_le _ _ (by rw [UInt32.le_iff_toNat_le, last]; omega), last,
          List.length_drop]
        omega
      simp only [none, Option.map_none, substr, notBefore, if_false]
      rw [List.take_of_length_le rest, List.splitOn_eq_singleton apart]
      cases fuel with
      | zero => omega
      | succ fuel =>
        rw [splitLoop, if_neg (by rw [last]; omega)]
    · have total := congrArg List.length parts
      simp only [List.length_drop, List.length_append, List.length_cons] at total
      have stops := toNat_position32 (k := pre.length + start.toNat) (by omega)
      have length : (position32 (some (pre.length + start.toNat)) - start).toNat = pre.length := by
        rw [UInt32.toNat_sub_of_le _ _ (by rw [UInt32.le_iff_toNat_le, stops]; omega), stops]
        omega
      have next : (position32 (some (pre.length + start.toNat)) + 1).toNat =
          pre.length + start.toNat + 1 := by
        rw [UInt32.toNat_add, stops]
        exact Nat.mod_eq_of_lt (by simp; omega)
      have left : text.drop (pre.length + start.toNat + 1) = post := by
        have dropped := congrArg (List.drop (pre.length + 1)) parts
        rw [List.drop_drop] at dropped
        rw [show pre.length + start.toNat + 1 = start.toNat + (pre.length + 1) by omega, dropped]
        simp
      simp only [found, Option.map_some, substr, notBefore, if_false, length]
      rw [ih _ _ _ (by rw [next]; omega) (by rw [stops]; omega) (by rw [next]; omega), next, left,
        parts, List.take_left, List.splitOn_append_cons_self_of_not_mem apart,
        List.append_assoc]
      rfl

/-- The loop as `SplitPreSignatures` starts it. -/
def splitPreSignatures32 (fuel : ℕ) (serializedList : String) :
    Option (Except Thrown (List (List Char))) :=
  splitLoop serializedList.toList fuel 0 0 []

theorem splitPreSignatures32_eq {serializedList : String} {fuel : ℕ}
    (short : serializedList.length < 2 ^ 32) (enough : serializedList.length + 1 < fuel) :
    splitPreSignatures32 fuel serializedList = some (.ok (splitPreSignatures serializedList)) := by
  unfold splitPreSignatures32 splitPreSignatures
  rw [← String.length_toList] at short enough
  by_cases empty : serializedList = ""
  · obtain ⟨fuel, rfl⟩ : ∃ n, fuel = n + 1 := ⟨fuel - 1, by omega⟩
    rw [if_pos empty, empty]
    rfl
  · have positive : 0 < serializedList.toList.length := by
      rw [List.length_pos_iff]
      simpa using empty
    rw [if_neg empty, splitLoop_eq short fuel 0 0 [] (by simp) (by simpa using positive)
      (by simpa using enough)]
    rfl

/-- `roast_crypto_pre_sig_aggregate_impl`: a delimiter after every text, and the last one
taken off. -/
def preSigAggregateImpl (presigShares : List String) : List Char :=
  (presigShares.flatMap fun presig => presig.toList ++ ['+']).dropLast

theorem preSigAggregateImpl_eq (presigShares : List String) :
    preSigAggregateImpl presigShares = (roastCryptoPreSigAggregate presigShares).toList := by
  unfold preSigAggregateImpl roastCryptoPreSigAggregate
  induction presigShares with
  | nil => rfl
  | cons presig rest ih =>
    cases rest with
    | nil => simp
    | cons presig' rest =>
      rw [List.flatMap_cons, List.dropLast_append_of_ne_nil (by simp), ih,
        String.intercalate_cons_cons]
      simp

/-- The pre-signature that is made of commitments. -/
def preSignatureOf (cs : List FrostNonceCommitment) : String :=
  String.ofList (preSigAggregateImpl (cs.map FrostNonceCommitment.serialize))

theorem splitPreSignatures_serialize {cs : List FrostNonceCommitment} (nonempty : cs ≠ []) :
    splitPreSignatures (preSignatureOf cs) = cs.map fun c => c.serialize.toList := by
  have text : ∀ item ∈ cs.map FrostNonceCommitment.serialize, item ≠ "" ∧ '+' ∉ item.toList := by
    intro item member
    obtain ⟨c, -, rfl⟩ := List.mem_map.mp member
    have delimiter : '+' ∉ delim := by decide
    refine ⟨fun blank => ?_, ?_⟩
    · have same := congrArg String.toList blank
      simp [FrostNonceCommitment.toList_serialize, delim] at same
    · simp only [FrostNonceCommitment.toList_serialize, List.mem_append, not_or]
      exact ⟨⟨(not_mem_index _).2, delimiter⟩, ⟨(not_mem_digits _).2, delimiter⟩,
        (not_mem_digits _).2⟩
  rw [preSignatureOf, preSigAggregateImpl_eq, String.ofList_toList, roastCryptoPreSigAggregate,
    splitPreSignatures_intercalate (by simpa using nonempty)
    (fun item member => (text item member).1) fun item member => (text item member).2]
  simp [Function.comp_def]

/-- `CharArrayToHex` writes only to its buffer of two characters a byte. -/
def HexInBounds (bytes : List UInt8) : Prop :=
  ∀ write ∈ hexWrites 0 bytes, write.1 < 2 * bytes.length

theorem not_hexInBounds (nonempty : bytes ≠ []) : ¬ HexInBounds bytes := by
  intro bounded
  have inside := bounded _ (nul_mem_hexWrites nonempty)
  omega

/-- The commitments that `GetSignatureShare` and `AggregateSignatureShares` read from a
pre-signature. -/
def readPreSignatures (d : UInt8) (preSignature : String) :
    Option (Except Thrown (List ReadCommitment)) :=
  (splitPreSignatures32 (preSignature.length + 2) preSignature).map fun items => do
    (← items).mapM (readSigningCommitment d)

/-- The commitments come back in their order, and every call stays inside its own memory. -/
structure LosslessInBounds (d : UInt8) (cs : List FrostNonceCommitment) : Prop where
  buffers : ∀ c ∈ cs, HexInBounds c.bindingBytes.toList ∧ HexInBounds c.hidingBytes.toList
  fields : ∃ reads, readPreSignatures d (preSignatureOf cs) = some (.ok reads) ∧
    reads.map ReadCommitment.commitment = cs ∧
    ∀ r ∈ reads, r.bindingWrites.length = 64 ∧ r.hidingWrites.length = 64

/-- Fewer commitments than a `uint32_t` counts characters for come back as they were. -/
theorem readPreSignatures_serialize (d : UInt8) {cs : List FrostNonceCommitment} (nonempty : cs ≠ [])
    (short : (preSignatureOf cs).length < 2 ^ 32) :
    ∃ reads, readPreSignatures d (preSignatureOf cs) = some (.ok reads) ∧
      reads.map ReadCommitment.commitment = cs := by
  choose read eq same _ _ using FrostNonceCommitment.read_serialize d
  refine ⟨cs.map read, ?_, ?_⟩
  · rw [readPreSignatures, splitPreSignatures32_eq short (by omega),
      splitPreSignatures_serialize nonempty, Option.map_some]
    congr 1
    change (cs.map fun c => c.serialize.toList).mapM (readSigningCommitment d) = _
    rw [mapM_eq_ok_iff, List.forall₂_map_left_iff, List.forall₂_map_right_iff]
    exact List.forall₂_same.mpr fun c _ => eq c
  · rw [List.map_map]
    exact List.map_id'' same cs

theorem deserializeSignatureShare_parts {n : ℕ} (lt : n < 2 ^ 32) (response : List Char) :
    deserializeSignatureShare (Nat.toDigits 10 n ++ delim ++ response) = .ok ⟨n, response⟩ := by
  let index := Nat.toDigits 10 n
  let text := index ++ delim ++ response
  have two : delim.length = 2 := rfl
  have first : find delim text = some index.length := find_append (not_mem_index n).1 response
  have rawIndex : substr text 0 (some index.length) = .ok index := by
    simp [substr, text]
  have rawResponse : substr text (index.length + 2) (some text.length) = .ok response := by
    have before : (index ++ delim).length = index.length + 2 := List.length_append
    have rest : response.length ≤ text.length := by
      rw [List.length_append]
      exact Nat.le_add_left _ _
    rw [← before, substr_append, List.take_of_length_le rest]
  have read : stoul index = .ok n := stoul_repr (by omega)
  change deserializeSignatureShare text = _
  unfold deserializeSignatureShare
  simp only [first, rawIndex, bind, Except.bind, past, two, rawResponse, read, pure, Except.pure,
    Nat.mod_eq_of_lt lt]

theorem FrostSignatureShare.read_serialize (d before : UInt8) (s : FrostSignatureShare) :
    ∃ r, readSignatureShare d before s.serialize.toList = .ok r ∧ r.share = s ∧
      r.responseWrites.length = 32 := by
  have nonempty : s.response.toList ≠ [] := by
    rw [← List.length_pos_iff]
    simp
  have text : s.serialize.toList =
      Nat.toDigits 10 s.index.toNat ++ delim ++ s.response.toList.flatMap byteDigits := by
    simp [FrostSignatureShare.serialize, serializeSignatureShare, charArrayToHex_eq nonempty, delim]
  have read := deserializeSignatureShare_parts s.index.toNat_lt
    (s.response.toList.flatMap byteDigits)
  rw [← text] at read
  have writes : hexToCharArray d (s.response.toList.flatMap byteDigits) =
      s.response.toList ++ [] := by
    have written := hexToCharArray_digits d s.response.toList []
    rwa [List.append_nil] at written
  refine ⟨_, by rw [readSignatureShare, read]; rfl, ?_, ?_⟩
  · simp only [writes, field_eq]
    simp
  · simp only [length_hexToCharArray, length_digits, Vector.length_toList]

/-- No list of commitments meets the bounds: each commitment is written past the buffers of both
its texts and past its binding field. The values come back all the same, and a share is read
into its own 32 bytes. -/
theorem codecs_exceed_bounds (d before : UInt8) {cs : List FrostNonceCommitment}
    (nonempty : cs ≠ []) :
    ¬ LosslessInBounds d cs ∧
    (∀ c ∈ cs, ¬ HexInBounds c.bindingBytes.toList ∧ ¬ HexInBounds c.hidingBytes.toList ∧
      ∃ r, readSigningCommitment d c.serialize.toList = .ok r ∧ r.commitment = c ∧
        64 < r.bindingWrites.length ∧ r.hidingWrites.length = 64) ∧
    ((preSignatureOf cs).length < 2 ^ 32 →
      ∃ reads, readPreSignatures d (preSignatureOf cs) = some (.ok reads) ∧
        reads.map ReadCommitment.commitment = cs) ∧
    ∀ s : FrostSignatureShare, ¬ HexInBounds s.response.toList ∧
      ∃ r, readSignatureShare d before s.serialize.toList = .ok r ∧ r.share = s ∧
        r.responseWrites.length = 32 := by
  have bytes {n : ℕ} (v : Vector UInt8 (n + 1)) : v.toList ≠ [] := by
    rw [← List.length_pos_iff]
    simp
  refine ⟨?_, ?_, readPreSignatures_serialize d nonempty, ?_⟩
  · intro bounded
    obtain ⟨c, member⟩ := List.exists_mem_of_ne_nil cs nonempty
    exact not_hexInBounds (bytes _) (bounded.buffers c member).1
  · intro c _
    obtain ⟨r, read, same, binding, hidden⟩ := c.read_serialize d
    exact ⟨not_hexInBounds (bytes _), not_hexInBounds (bytes _), r, read, same, by omega, hidden⟩
  · intro s
    exact ⟨not_hexInBounds (bytes _), s.read_serialize d before⟩

def zeroCommitment : FrostNonceCommitment := ⟨1, Vector.replicate 64 0, Vector.replicate 64 0⟩

/-- It takes 129 characters of a buffer of 128 for each text, and 66 bytes of a field of 64. -/
theorem zeroCommitment_exceeds_bounds :
    (128, nul) ∈ hexWrites 0 zeroCommitment.bindingBytes.toList ∧
    (readSigningCommitment 0 zeroCommitment.serialize.toList).toOption.map
      (fun r => r.bindingWrites.length) = some 66 ∧ ¬ LosslessInBounds 0 [zeroCommitment] := by
  have overrun : (128, nul) ∈ hexWrites 0 zeroCommitment.bindingBytes.toList := by
    have last : (0 + 2 * zeroCommitment.bindingBytes.toList.length, nul) ∈
        hexWrites 0 zeroCommitment.bindingBytes.toList := nul_mem_hexWrites (by simp [zeroCommitment])
    rwa [Vector.length_toList] at last
  have read : (readSigningCommitment 0 zeroCommitment.serialize.toList).toOption.map
      (fun r => r.bindingWrites.length) = some 66 := by
    obtain ⟨r, read, -, writes, -⟩ := zeroCommitment.read_serialize 0
    have oneDigit : (Nat.toDigits 10 zeroCommitment.index.toNat).length = 1 := by decide
    rw [read, Except.toOption, Option.map_some, writes, oneDigit]
  refine ⟨overrun, read, fun bounded => ?_⟩
  have inside := (bounded.buffers _ List.mem_cons_self).1 _ overrun
  exact absurd inside (by decide)

theorem codecs_exceed_bounds_zeroCommitment : ¬ LosslessInBounds 0 [zeroCommitment, zeroCommitment] :=
  (codecs_exceed_bounds 0 0 (List.cons_ne_nil _ _)).1

end Fbft
