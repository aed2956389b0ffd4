import Fbft.CppString
import Mathlib.Data.List.Iterate

/-! Proof of work. The nonces are tried in chunks, each of which ends when its last nonce is met
exactly; what they find is what one pass over the nonces finds. -/
namespace Fbft

open CppString

/-- `CBlockHeader`. -/
structure BlockHeader (Hash : Type) where
  nVersion : ℤ
  hashPrevBlock : Hash
  hashMerkleRoot : Hash
  nTime : UInt32
  nBits : UInt32
  nNonce : UInt32
  deriving DecidableEq, Repr

/-- What the chain knows of headers: the target behind `nBits` with its signs of a bad one, the
hash as a number, and the serialization. -/
structure HeaderChain (Hash Text : Type) where
  setCompact : UInt32 → ℕ × Bool × Bool
  hash : BlockHeader Hash → ℕ
  hexStr : BlockHeader Hash → Text
  decodeHexBlockHeader : Text → Option (BlockHeader Hash)
  decode_hexStr : ∀ header, decodeHexBlockHeader (hexStr header) = some header

/-- The inner loop: whether a nonce is found before `next`, and the nonce. -/
def grindChunk (meets : UInt32 → Bool) (step next : UInt32) : ℕ → UInt32 → Option (Bool × UInt32)
  | 0, _ => none
  | fuel + 1, nonce =>
    if meets nonce then some (true, nonce)
    else if nonce + step ≠ next then grindChunk meets step next fuel (nonce + step)
    else some (false, next)

/-- The outer loop. -/
def grindLoop (meets : UInt32 → Bool) (step finish : UInt32) : ℕ → UInt32 → Option (Option UInt32)
  | 0, _ => none
  | fuel + 1, nonce =>
    if nonce < finish then
      let next := if finish - nonce < 5000 * step then finish else nonce + 5000 * step
      (grindChunk meets step next (fuel + 1) nonce).bind fun r =>
        if r.1 then some (some r.2) else grindLoop meets step finish fuel r.2
    else some none

namespace HeaderChain

variable {Hash Text : Type} (chain : HeaderChain Hash Text)

def meets (header : BlockHeader Hash) (nonce : UInt32) : Bool :=
  chain.hash { header with nNonce := nonce } ≤ (chain.setCompact header.nBits).1

/-- The target is positive and fits. -/
def ValidTarget (nBits : UInt32) : Prop :=
  (chain.setCompact nBits).1 ≠ 0 ∧ (chain.setCompact nBits).2 = (false, false)

instance (nBits : UInt32) : Decidable (chain.ValidTarget nBits) :=
  inferInstanceAs (Decidable (_ ∧ _))

/-- `grind_task`: the nonce that it finds. -/
def grindTask (header : BlockHeader Hash) (offset step : UInt32) (fuel : ℕ) :
    Option (Option UInt32) :=
  if chain.ValidTarget header.nBits then
    let last := 0xFFFFFFFF - step
    grindLoop (chain.meets header) step (last - last % step + offset) fuel offset
  else some none

def grind (fuel : ℕ) (hexHeader : Text) : Option (Except Thrown Text) :=
  match chain.decodeHexBlockHeader hexHeader with
  | none => some (.error .invalidArgument)
  | some header => (chain.grindTask header 0 1 fuel).map fun found =>
    found.elim (.error .runtimeError) fun nonce =>
      .ok (chain.hexStr { header with nNonce := nonce })

end HeaderChain

section

variable {meets : UInt32 → Bool} {step next nonce finish : UInt32} {fuel k m : ℕ}

theorem toNat_add_of_le {a b c : UInt32} (le : a.toNat + b.toNat ≤ c.toNat) :
    (a + b).toNat = a.toNat + b.toNat := by
  have small := c.toNat_lt
  rw [UInt32.toNat_add, Nat.mod_eq_of_lt (by omega)]

theorem iterate_step (reaches : next.toNat = nonce.toNat + k * step.toNat) :
    (· + step)^[k] nonce = next := by
  induction k generalizing nonce with
  | zero =>
    apply UInt32.toNat_inj.mp
    simpa using reaches.symm
  | succ k ih =>
    rw [Nat.succ_mul] at reaches
    rw [Function.iterate_succ_apply]
    apply ih
    rw [toNat_add_of_le (c := next) (by omega)]
    omega

theorem grindChunk_eq (positive : 0 < step.toNat)
    (reaches : next.toNat = nonce.toNat + (k + 1) * step.toNat) (enough : k < fuel) :
    grindChunk meets step next fuel nonce =
      some (((List.iterate (· + step) nonce (k + 1)).find? meets).elim (false, next)
        (Prod.mk true)) := by
  induction k generalizing nonce fuel with
  | zero =>
    obtain ⟨fuel, rfl⟩ := Nat.exists_eq_add_of_lt enough
    have last : nonce + step = next := iterate_step (k := 1) reaches
    by_cases found : meets nonce
    · simp [grindChunk, List.iterate, found]
    · simp [grindChunk, List.iterate, found, last]
  | succ k ih =>
    obtain ⟨fuel, rfl⟩ := Nat.exists_eq_add_of_lt enough
    rw [Nat.succ_mul, Nat.succ_mul] at reaches
    have moved : (nonce + step).toNat = nonce.toNat + step.toNat :=
      toNat_add_of_le (c := next) (by omega)
    have before : nonce + step ≠ next := by
      rintro same
      rw [same] at moved
      omega
    by_cases found : meets nonce
    · simp [grindChunk, List.iterate, found]
    · have later : next.toNat = (nonce + step).toNat + (k + 1) * step.toNat := by
        rw [moved, Nat.succ_mul]
        omega
      have rest := ih later (show k < k + 1 + fuel by omega)
      rw [List.iterate, List.find?_cons_of_neg found, ← rest, grindChunk, if_neg found,
        if_pos before]

theorem exists_chunk (positive : 0 < step.toNat) (small : 5000 * step.toNat < 2 ^ 32)
    (started : 0 < m) (reaches : finish.toNat = nonce.toNat + m * step.toNat) :
    ∃ k < m, (if finish - nonce < 5000 * step then finish else nonce + 5000 * step).toNat =
      nonce.toNat + (k + 1) * step.toNat := by
  have chunk : (5000 * step : UInt32).toNat = 5000 * step.toNat := by
    rw [UInt32.toNat_mul]
    exact Nat.mod_eq_of_lt small
  have distance : (finish - nonce).toNat = m * step.toNat := by
    rw [UInt32.toNat_sub_of_le _ _ (UInt32.le_iff_toNat_le.mpr (by omega))]
    omega
  split
  · refine ⟨m - 1, by omega, ?_⟩
    rw [reaches, Nat.sub_add_cancel started]
  · rename_i far
    rw [UInt32.lt_iff_toNat_lt, chunk, distance, Nat.not_lt] at far
    have whole : 4999 < m := by
      by_contra less
      have bound := Nat.mul_le_mul_right step.toNat (show m ≤ 4999 by omega)
      omega
    refine ⟨4999, whole, ?_⟩
    rw [toNat_add_of_le (c := finish) (by omega), chunk]

theorem grindLoop_eq (positive : 0 < step.toNat) (small : 5000 * step.toNat < 2 ^ 32)
    (reaches : finish.toNat = nonce.toNat + m * step.toNat) (enough : m < fuel) :
    grindLoop meets step finish fuel nonce =
      some ((List.iterate (· + step) nonce m).find? meets) := by
  induction m using Nat.strong_induction_on generalizing nonce fuel with
  | _ m ih =>
    obtain ⟨fuel, rfl⟩ := Nat.exists_eq_add_of_lt enough
    rcases Nat.eq_zero_or_pos m with rfl | started
    · have ended : ¬ nonce < finish := by
        rw [UInt32.lt_iff_toNat_lt]
        omega
      simp [grindLoop, ended, List.iterate]
    have before : nonce < finish := by
      rw [UInt32.lt_iff_toNat_lt, reaches]
      have := Nat.mul_pos started positive
      omega
    obtain ⟨k, within, ends⟩ := exists_chunk positive small started reaches
    rw [grindLoop, if_pos before]
    simp only
    rw [grindChunk_eq positive ends (by omega), Option.bind_some]
    have split : m = (k + 1) + (m - (k + 1)) := by omega
    conv_rhs => rw [split, List.iterate_add, List.find?_append, iterate_step ends]
    cases found : (List.iterate (· + step) nonce (k + 1)).find? meets with
    | some n => simp
    | none =>
      simp only [Option.elim_none, Bool.false_eq_true, if_false, Option.none_or]
      apply ih (m - (k + 1)) (by omega) _ (by omega)
      rw [ends, reaches, Nat.add_assoc, ← Nat.add_mul]
      congr 2

/-- The nonces that a task tries. -/
def taskNonces (offset step : UInt32) : List UInt32 :=
  List.iterate (· + step) offset ((2 ^ 32 - 1 - step.toNat) / step.toNat)

theorem finish_toNat (step offset : UInt32) (within : offset < step) :
    ((0xFFFFFFFF : UInt32) - step - (0xFFFFFFFF - step) % step + offset).toNat =
      offset.toNat + (2 ^ 32 - 1 - step.toNat) / step.toNat * step.toNat := by
  have most : (0xFFFFFFFF : UInt32).toNat = 2 ^ 32 - 1 := rfl
  have bound := step.toNat_lt
  rw [UInt32.lt_iff_toNat_lt] at within
  have last : ((0xFFFFFFFF : UInt32) - step).toNat = 2 ^ 32 - 1 - step.toNat :=
    UInt32.toNat_sub_of_le _ _ (UInt32.le_iff_toNat_le.mpr (by omega))
  have whole := Nat.div_add_mod' (2 ^ 32 - 1 - step.toNat) step.toNat
  have rounded : ((0xFFFFFFFF : UInt32) - step - (0xFFFFFFFF - step) % step).toNat =
      (2 ^ 32 - 1 - step.toNat) / step.toNat * step.toNat := by
    rw [UInt32.toNat_sub_of_le, UInt32.toNat_mod, last]
    · omega
    · rw [UInt32.le_iff_toNat_le, UInt32.toNat_mod]
      exact Nat.mod_le _ _
  rw [toNat_add_of_le (c := 0xFFFFFFFF) (by rw [rounded, most]; omega), rounded, Nat.add_comm]

variable {Hash Text : Type} {chain : HeaderChain Hash Text} {header : BlockHeader Hash}
  {offset : UInt32}

/-- `grind_task` in one pass. -/
theorem HeaderChain.grindTask_eq (within : offset < step) (small : 5000 * step.toNat < 2 ^ 32)
    (valid : chain.ValidTarget header.nBits)
    (enough : (2 ^ 32 - 1 - step.toNat) / step.toNat < fuel) :
    chain.grindTask header offset step fuel =
      some ((taskNonces offset step).find? (chain.meets header)) := by
  rw [grindTask, if_pos valid]
  have positive : 0 < step.toNat := by
    rw [UInt32.lt_iff_toNat_lt] at within
    omega
  exact grindLoop_eq positive small (finish_toNat step offset within) enough

/-- The nonce meets the target and no smaller one does. The two largest nonces are not tried. -/
structure HeaderChain.FirstNonce (chain : HeaderChain Hash Text) (header : BlockHeader Hash)
    (nonce : UInt32) : Prop where
  valid : chain.ValidTarget header.nBits
  tried : nonce < 0xFFFFFFFE
  meets : chain.meets header nonce = true
  first : ∀ k < nonce, chain.meets header k = false

theorem iterate_one {k : UInt32} : (· + (1 : UInt32))^[k.toNat] 0 = k := by
  apply iterate_step
  simp

theorem find?_taskNonces {p : UInt32 → Bool} : (taskNonces 0 1).find? p = some nonce ↔
    nonce < 0xFFFFFFFE ∧ p nonce = true ∧ ∀ k < nonce, p k = false := by
  have count : (taskNonces 0 1).length = 2 ^ 32 - 2 := by
    rw [taskNonces, List.length_iterate]
    rfl
  have nth : ∀ (k : UInt32) (inside : k.toNat < (taskNonces 0 1).length),
      (taskNonces 0 1)[k.toNat] = k := by
    intro k inside
    simp only [taskNonces, List.getElem_iterate]
    exact iterate_one
  rw [List.find?_eq_some_iff_getElem]
  constructor
  · rintro ⟨meets, i, inside, same, before⟩
    obtain ⟨k, rfl⟩ : ∃ k : UInt32, k.toNat = i :=
      ⟨UInt32.ofNat i, UInt32.toNat_ofNat_of_lt' (by rw [UInt32.size]; omega)⟩
    rw [nth k inside] at same
    subst same
    have tried : k < 0xFFFFFFFE := by
      rw [count] at inside
      exact UInt32.lt_iff_toNat_lt.mpr inside
    refine ⟨tried, meets, fun j earlier => ?_⟩
    have below := UInt32.lt_iff_toNat_lt.mp earlier
    have missed := before j.toNat below
    rw [nth j (below.trans inside)] at missed
    simpa using missed
  · rintro ⟨tried, meets, first⟩
    have inside : nonce.toNat < (taskNonces 0 1).length := by
      rw [count]
      exact UInt32.lt_iff_toNat_lt.mp tried
    refine ⟨meets, nonce.toNat, inside, nth nonce inside, fun i earlier => ?_⟩
    obtain ⟨k, rfl⟩ : ∃ k : UInt32, k.toNat = i :=
      ⟨UInt32.ofNat i, UInt32.toNat_ofNat_of_lt' (by rw [UInt32.size]; omega)⟩
    rw [nth k (earlier.trans inside), first k (UInt32.lt_iff_toNat_lt.mpr earlier)]
    rfl

theorem HeaderChain.exists_grindTask (chain : HeaderChain Hash Text) (header : BlockHeader Hash)
    (enough : 2 ^ 32 ≤ fuel) :
    ∃ found, chain.grindTask header 0 1 fuel = some found ∧
      ∀ nonce, found = some nonce ↔ chain.FirstNonce header nonce := by
  by_cases valid : chain.ValidTarget header.nBits
  · refine ⟨_, chain.grindTask_eq (by decide) (by decide) valid
      (lt_of_lt_of_le (by decide) enough), fun nonce => ?_⟩
    rw [find?_taskNonces]
    constructor
    · rintro ⟨tried, meets, first⟩
      exact ⟨valid, tried, meets, first⟩
    · intro one
      exact ⟨one.tried, one.meets, one.first⟩
  · refine ⟨none, by rw [HeaderChain.grindTask, if_neg valid], fun nonce => ?_⟩
    constructor
    · intro none
      cases none
    · intro one
      exact absurd one.valid valid

variable {text : Text}

/-- `Grind` returns the header with the first nonce, and fails where there is none. -/
theorem grind_first (chain : HeaderChain Hash Text) (header : BlockHeader Hash)
    (enough : 2 ^ 32 ≤ fuel) :
    (chain.grind fuel (chain.hexStr header) = some (.ok text) ↔
      ∃ nonce, chain.FirstNonce header nonce ∧
        text = chain.hexStr { header with nNonce := nonce }) ∧
    (chain.grind fuel (chain.hexStr header) = some (.error .runtimeError) ↔
      ∀ nonce, ¬ chain.FirstNonce header nonce) := by
  obtain ⟨found, ended, first⟩ := chain.exists_grindTask header enough
  rw [HeaderChain.grind, chain.decode_hexStr]
  simp only [ended, Option.map_some, Option.some.injEq, ← first]
  cases found with
  | none => simp
  | some nonce => simp [eq_comm]

end

def fallingChain : HeaderChain Unit (BlockHeader Unit) where
  setCompact _ := (5, false, false)
  hash header := 8 - header.nNonce.toNat
  hexStr := id
  decodeHexBlockHeader := some
  decode_hexStr _ := rfl

theorem grind_first_falling :
    fallingChain.grind (2 ^ 32) ⟨1, (), (), 60, 0, 0⟩ = some (.ok ⟨1, (), (), 60, 0, 3⟩) := by
  refine (grind_first fallingChain ⟨1, (), (), 60, 0, 0⟩ (le_refl _)).1.mpr
    ⟨3, ⟨by decide, by decide, by decide, fun k before => ?_⟩, rfl⟩
  have below : k.toNat < 3 := UInt32.lt_iff_toNat_lt.mp before
  have above : ¬ 8 - k.toNat ≤ 5 := by omega
  exact decide_eq_false above

end Fbft
