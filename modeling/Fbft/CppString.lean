import Fbft.Returns
import Mathlib.Algebra.Group.Nat.Defs
import Mathlib.Data.List.TakeWhile

/-! The parts of the C++ standard library that take texts apart, with their exceptions. A
position past the end of any text, `npos`, is `none`. -/
namespace CppString

open Throwing

inductive Thrown where
  | invalidArgument
  | outOfRange
  | runtimeError
  deriving DecidableEq, Repr

variable {text : List Char} {pos : ℕ}

def find (delim : List Char) : List Char → Option ℕ
  | [] => if delim = [] then some 0 else none
  | c :: text => if delim.isPrefixOf (c :: text) then some 0 else (find delim text).map (· + 1)

def findFrom (delim text : List Char) (start : ℕ) : Option ℕ :=
  if text.length < start then none else (find delim (text.drop start)).map (· + start)

/-- `substr(pos, len)`; a length that reaches past the end is cut. -/
def substr (text : List Char) (pos : ℕ) (len : Option ℕ) : Except Thrown (List Char) :=
  if text.length < pos then .error .outOfRange
  else .ok (match len with
    | some len => (text.drop pos).take len
    | none => text.drop pos)

/-- `pos + len` in `size_t`, where `npos + len` is `len - 1`. -/
def past (pos : Option ℕ) (len : ℕ) : ℕ :=
  match pos with
  | some pos => pos + len
  | none => len - 1

def isSpace (c : Char) : Bool := [32, 9, 10, 11, 12, 13].contains c.toNat

def digitsValue (digits : List Char) : ℕ :=
  digits.foldl (fun n c => 10 * n + (c.toNat - 48)) 0

def unsignedText (text : List Char) : Bool × List Char :=
  match text.dropWhile isSpace with
  | [] => (false, [])
  | c :: rest =>
    if c.toNat = 45 then (true, rest.takeWhile Char.isDigit)
    else if c.toNat = 43 then (false, rest.takeWhile Char.isDigit)
    else (false, (c :: rest).takeWhile Char.isDigit)

/-- `stoul`: what follows the digits is ignored, a minus sign negates modulo `2^64`. -/
def stoul (text : List Char) : Except Thrown ℕ :=
  let (negative, digits) := unsignedText text
  if digits = [] then .error .invalidArgument
  else if 2 ^ 64 ≤ digitsValue digits then .error .outOfRange
  else .ok (if negative then (2 ^ 64 - digitsValue digits) % 2 ^ 64 else digitsValue digits)

def Numeric (text : List Char) : Prop :=
  (unsignedText text).2 ≠ [] ∧ digitsValue (unsignedText text).2 < 2 ^ 64

instance : Decidable (Numeric text) := inferInstanceAs (Decidable (_ ∧ _))

theorem returns_stoul : Returns (stoul text) ↔ Numeric text := by
  simp only [stoul, Numeric, returns_ite_error, returns_ok, and_true, Nat.not_le, ne_eq]

theorem returns_substr (len : Option ℕ) : Returns (substr text pos len) ↔ pos ≤ text.length := by
  simp only [substr, returns_ite_error, returns_ok, and_true, Nat.not_lt]

theorem substr_append (before rest : List Char) (len : ℕ) :
    substr (before ++ rest) before.length (some len) = .ok (rest.take len) := by
  have inside : ¬ (before ++ rest).length < before.length := by simp
  rw [substr, if_neg inside, List.drop_left]

/-- The end of a C string. -/
def nul : Char := Char.ofNat 0

/-- What `c_str()` leaves of a text. -/
def cStr (text : String) : String := String.ofList (text.toList.takeWhile (· ≠ nul))

theorem find_le {delim : List Char} {k : ℕ} (found : find delim text = some k) :
    k + delim.length ≤ text.length := by
  induction text generalizing k with
  | nil =>
    simp only [find] at found
    split at found
    · rename_i empty
      cases found
      simp [empty]
    · cases found
  | cons c text ih =>
    simp only [find] at found
    split at found
    · rename_i here
      cases found
      have le := (List.isPrefixOf_iff_prefix.mp here).length_le
      simpa using le
    · obtain ⟨k', later, rfl⟩ := Option.map_eq_some_iff.mp found
      have le := ih later
      simp only [List.length_cons]
      omega

theorem past_findFrom_le (delim : List Char) (start : ℕ)
    (room : (findFrom delim text start) = none → delim.length - 1 ≤ text.length) :
    past (findFrom delim text start) delim.length ≤ text.length := by
  cases found : findFrom delim text start with
  | none => exact room found
  | some k =>
    simp only [findFrom] at found
    split at found
    · cases found
    · obtain ⟨k', later, rfl⟩ := Option.map_eq_some_iff.mp found
      have le := find_le later
      rw [List.length_drop] at le
      simp only [past]
      omega

theorem find_append {delim : List Char} {c : Char} {pre : List Char} (apart : c ∉ pre)
    (rest : List Char) : find (c :: delim) (pre ++ (c :: delim) ++ rest) = some pre.length := by
  induction pre with
  | nil =>
    have here : (c :: delim).isPrefixOf (c :: (delim ++ rest)) = true := by
      rw [List.isPrefixOf_iff_prefix]
      exact ⟨rest, rfl⟩
    simp only [List.nil_append, List.cons_append, find, here, if_true, List.length_nil]
  | cons c' pre ih =>
    rw [List.mem_cons, not_or] at apart
    have other : ¬ (c :: delim).isPrefixOf (c' :: (pre ++ (c :: delim) ++ rest)) = true := by
      simp [List.isPrefixOf, apart.1]
    rw [List.cons_append, List.cons_append, find, if_neg other, ih apart.2]
    rfl

theorem findFrom_append {delim : List Char} {c : Char} {pre : List Char} (before : List Char)
    (apart : c ∉ pre) (rest : List Char) :
    findFrom (c :: delim) (before ++ (pre ++ (c :: delim) ++ rest)) before.length =
      some (before.length + pre.length) := by
  rw [findFrom, if_neg (by rw [List.length_append]; omega), List.drop_left, find_append apart,
    Option.map_some, Nat.add_comm]

theorem find_singleton_cases (c : Char) (text : List Char) :
    (c ∉ text ∧ find [c] text = none) ∨
      ∃ pre post, c ∉ pre ∧ text = pre ++ c :: post ∧ find [c] text = some pre.length := by
  by_cases inside : c ∈ text
  · obtain ⟨pre, post, rfl, apart⟩ := List.eq_append_cons_of_mem inside
    refine Or.inr ⟨pre, post, apart, rfl, ?_⟩
    have found : find [c] (pre ++ [c] ++ post) = some pre.length := find_append apart post
    rwa [List.append_assoc] at found
  · refine Or.inl ⟨inside, ?_⟩
    induction text with
    | nil => simp [find]
    | cons c' text ih =>
      rw [List.mem_cons, not_or] at inside
      simp [find, List.isPrefixOf, inside.1, ih inside.2]

theorem digitsValue_toDigits (n : ℕ) : digitsValue (Nat.toDigits 10 n) = n := by
  have value := Nat.ofDigitChars_ten_toDigits (n := n)
  rwa [Nat.ofDigitChars_eq_foldl] at value

theorem stoul_repr {n : ℕ} (lt : n < 2 ^ 64) : stoul (Nat.toDigits 10 n) = .ok n := by
  have digits : ∀ c ∈ Nat.toDigits 10 n, c.isDigit = true :=
    fun c member => Nat.isDigit_of_mem_toDigits (by decide) (by decide) member
  have read : unsignedText (Nat.toDigits 10 n) = (false, Nat.toDigits 10 n) := by
    have first : ∀ c ∈ Nat.toDigits 10 n, isSpace c = false ∧ c.toNat ≠ 45 ∧ c.toNat ≠ 43 := by
      intro c member
      have bounds := digits c member
      simp only [Char.isDigit, Bool.and_eq_true, decide_eq_true_eq] at bounds
      have low : 48 ≤ c.toNat := bounds.1
      refine ⟨?_, by omega, by omega⟩
      simp only [isSpace, List.contains_eq_mem, List.mem_cons, List.not_mem_nil, or_false,
        decide_eq_false_iff_not]
      omega
    cases written : Nat.toDigits 10 n with
    | nil => exact absurd written Nat.toDigits_ne_nil
    | cons c rest =>
      rw [written] at digits first
      obtain ⟨noSpace, noMinus, noPlus⟩ := first c List.mem_cons_self
      have all : (c :: rest).takeWhile Char.isDigit = c :: rest :=
        List.takeWhile_eq_self_iff.mpr digits
      simp only [unsignedText, List.dropWhile_cons, noSpace, Bool.false_eq_true, if_false, noMinus,
        noPlus, all]
  rw [stoul, read]
  simp only [Nat.toDigits_ne_nil, if_false, digitsValue_toDigits, Nat.not_le.mpr lt,
    Bool.false_eq_true]

end CppString
