import Fbft.Returns
import Mathlib.Data.Rat.Floor

/-! JSON values behind accessors that convert what they can: null reads as zero and as the
empty text, numbers and truth values read as each other, and only what is left throws. A real
number comes with the text that it prints as. -/

inductive Json where
  | null
  | bool (b : Bool)
  | int (i : ℤ)
  | real (value : ℚ) (printed : String)
  | str (s : String)
  | arr (elements : List Json)
  | obj (members : List (String × Json))

namespace Json

open Throwing

inductive AccessError where
  | notAnObject
  | notConvertible
  | outOfRange
  deriving DecidableEq, Repr

variable {j : Json} {key : String} {i : ℤ} {n : ℕ} {s : String}

def lookup (key : String) : Json → Option Json
  | .obj members => (members.find? fun m => m.1 = key).map Prod.snd
  | _ => none

def get (key : String) (j : Json) : Json := (j.lookup key).getD .null

def member (key : String) : Json → Except AccessError Json
  | .null => .ok .null
  | .obj members => .ok (get key (.obj members))
  | _ => .error .notAnObject

def asUInt : Json → Except AccessError ℕ
  | .null => .ok 0
  | .bool b => .ok b.toNat
  | .int i => if 0 ≤ i ∧ i < 2 ^ 32 then .ok i.toNat else .error .outOfRange
  | .real value _ =>
    if 0 ≤ value ∧ value ≤ 2 ^ 32 - 1 then .ok ⌊value⌋₊ else .error .outOfRange
  | _ => .error .notConvertible

def asString : Json → Except AccessError String
  | .null => .ok ""
  | .bool b => .ok (if b then "true" else "false")
  | .int i => .ok (toString i)
  | .real _ printed => .ok printed
  | .str s => .ok s
  | _ => .error .notConvertible

def elements : Json → List Json
  | .arr elements => elements
  | .obj members => members.map Prod.snd
  | _ => []

/-- A value with members, or null, which has none. -/
def HasMembers : Json → Prop
  | .null | .obj _ => True
  | _ => False

def ReadsAsUInt : Json → Prop
  | .null | .bool _ => True
  | .int i => 0 ≤ i ∧ i < 2 ^ 32
  | .real value _ => 0 ≤ value ∧ value ≤ 2 ^ 32 - 1
  | _ => False

def ReadsAsString : Json → Prop
  | .arr _ | .obj _ => False
  | _ => True

/-- An object, a number that fits, a text and a list, with no conversion. -/
def IsObject (j : Json) : Prop := ∃ members, j = .obj members

def IsUInt (j : Json) : Prop := ∃ n < 2 ^ 32, j = .int (n : ℕ)

def IsString (j : Json) : Prop := ∃ s, j = .str s

def IsArray (j : Json) : Prop := ∃ elements, j = .arr elements

theorem member_eq_ok_iff {value : Json} :
    j.member key = .ok value ↔ j.HasMembers ∧ value = j.get key := by
  cases j <;> simp [member, HasMembers, get, lookup, eq_comm]

theorem returns_asUInt : Returns j.asUInt ↔ j.ReadsAsUInt := by
  cases j <;> simp [asUInt, ReadsAsUInt, returns_guard]

theorem returns_asString : Returns j.asString ↔ j.ReadsAsString := by
  cases j <;> simp [asString, ReadsAsString]

theorem IsUInt.asUInt_eq (lt : n < 2 ^ 32) : (Json.int n).asUInt = .ok n := by
  simp only [asUInt, Nat.cast_nonneg, true_and]
  rw [if_pos (by exact_mod_cast lt), Int.toNat_natCast]

end Json
