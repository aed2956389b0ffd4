import Fbft.State
import Mathlib.Data.List.Sort
import Mathlib.Data.String.Basic
import Mathlib.Algebra.Order.Field.Rat

/-! The auxiliary functions of the engine. A predicate that backtracks over
several values is the list of its solutions in backtracking order; a test is a
decidable proposition. -/
namespace Fbft

open Database

def maxFaulty (cfg : Config) : ℕ := (cfg.clusterSize - 1) / 3

def quorum (cfg : Config) : ℕ := 2 * maxFaulty cfg + 1

/-- One less than the byzantine quorum: the PRE_PREPARE of the primary counts separately. -/
def quorumPrepare (cfg : Config) : ℕ := quorum cfg - 1

def sigQuorum (cfg : Config) : ℕ := maxFaulty cfg + 1

def primary (cfg : Config) (v : ℕ) : ℕ := v % cfg.clusterSize

def getSyntheticTime (now : ℚ) (s : Replica) : ℚ := s.syntheticTime.getD now

def getH (s : Replica) : Option ℕ := (s.checkpoint.map Checkpoint.n).min?

def inW (n : ℕ) (s : Replica) : Prop :=
  match getH s with
  | some hi => n ≤ hi + requestBufferLen ∧ hi < n
  | none => False

instance : Decidable (inW n s) := by
  unfold inW; cases getH s <;> infer_instance

def inWv (v n : ℕ) (s : Replica) : Prop := inW n s ∧ v = s.view

instance : Decidable (inWv v n s) := inferInstanceAs (Decidable (_ ∧ _))

/-- Solutions `(N, Req_digest, V)` of `pre_prepared`. -/
def prePreparedSolutions (cfg : Config) (s : Replica) : List PiEntry :=
  s.viewChangeQi.map (fun q => ⟨q.n, q.reqDigest, q.v⟩) ++
  s.msgLogRequest.flatMap fun r =>
    (s.msgLogPrePrepare.filter fun m =>
      m.reqDigest = r.reqDigest ∧ m.senderId = primary cfg m.v).map fun m => ⟨m.n, m.reqDigest, m.v⟩

def prePrepared (cfg : Config) (reqDigest : String) (v n : ℕ) (s : Replica) : Prop :=
  ⟨n, reqDigest, v⟩ ∈ prePreparedSolutions cfg s

instance : Decidable (prePrepared cfg d v n s) := inferInstanceAs (Decidable (_ ∈ _))

def preparesFor (reqDigest : String) (v n : ℕ) (s : Replica) : List Prepare :=
  s.msgLogPrepare.filter fun m => m.v = v ∧ m.n = n ∧ m.reqDigest = reqDigest

def commitsFor (v n : ℕ) (s : Replica) : List Commit :=
  s.msgLogCommit.filter fun m => m.v = v ∧ m.n = n

def preparedSolutions (cfg : Config) (s : Replica) : List PiEntry :=
  s.viewChangePi ++
  (prePreparedSolutions cfg s).filter fun e =>
    quorumPrepare cfg ≤ (preparesFor e.reqDigest e.v e.n s).length

def prepared (cfg : Config) (reqDigest : String) (v n : ℕ) (s : Replica) : Prop :=
  ⟨n, reqDigest, v⟩ ∈ preparedSolutions cfg s

instance : Decidable (prepared cfg d v n s) := inferInstanceAs (Decidable (_ ∈ _))

def committed (cfg : Config) (reqDigest : String) (v n : ℕ) (s : Replica) : Prop :=
  prepared cfg reqDigest v n s ∧ quorum cfg ≤ (commitsFor v n s).length

instance : Decidable (committed cfg d v n s) := inferInstanceAs (Decidable (_ ∧ _))

/-- The window a VIEW_CHANGE for view `mv` and checkpoint `mh` leaves to its certificates. -/
def inViewChangeWindow (mv mh v n : ℕ) : Prop := v < mv ∧ mh < n ∧ n ≤ mh + requestBufferLen

instance : Decidable (inViewChangeWindow mv mh v n) := inferInstanceAs (Decidable (_ ∧ _))

def correctViewChange (mv mh : ℕ) (mp : List PiEntry) (mq : List QiEntry) : Prop :=
  (∀ e ∈ mp, inViewChangeWindow mv mh e.v e.n) ∧ (∀ e ∈ mq, inViewChangeWindow mv mh e.v e.n)

instance : Decidable (correctViewChange mv mh mp mq) := inferInstanceAs (Decidable (_ ∧ _))

/-- Solutions `[J, D]` of `correct_nu_element`. The test on the view stands left of
`; true` inside `once/1`, so it never rejects a VIEW_CHANGE. -/
def correctNuElement (cfg : Config) (replicaId : ℕ) (s : Replica) : List NuEntry :=
  (s.msgLogViewChange.filter fun m =>
    decide (m.v = s.view ∧ replicaId ≠ primary cfg s.view) || true).map fun m =>
      ⟨m.senderId, m.vcDigest⟩

/-- Standard order on `[J, D]`: the sender first, then the digest. -/
def NuEntry.le (a b : NuEntry) : Prop := a.j < b.j ∨ a.j = b.j ∧ a.d ≤ b.d

instance : DecidableRel NuEntry.le := fun a b =>
  inferInstanceAs (Decidable (a.j < b.j ∨ a.j = b.j ∧ a.d ≤ b.d))

/-- `sort/2`: standard order, duplicates removed. -/
def sortNu (nu : List NuEntry) : List NuEntry := (nu.insertionSort NuEntry.le).dedup

def correctNuOnce (cfg : Config) (replicaId : ℕ) (s : Replica) : Option (List NuEntry) :=
  let unsortedNu := correctNuElement cfg replicaId s
  if quorum cfg ≤ unsortedNu.length then some (sortNu unsortedNu) else none

def subsets : List NuEntry → List (List NuEntry)
  | [] => [[]]
  | e :: tail => (subsets tail).map (e :: ·) ++ subsets tail

def filterSubsetsBySize (maxNu : List NuEntry) (minSize : ℕ) : List (List NuEntry) :=
  (subsets maxNu).filter fun sub => minSize ≤ sub.length

/-- Every Nu that can be built from the message log. -/
def correctNuAll (cfg : Config) (replicaId : ℕ) (s : Replica) : List (List NuEntry) :=
  (filterSubsetsBySize (correctNuElement cfg replicaId s) (quorum cfg)).map sortNu

/-- The logged VIEW_CHANGEs whose digest occurs in Nu, in the order of Nu. -/
def nuVset (nu : List NuEntry) (s : Replica) : List ViewChange :=
  nu.flatMap fun e => s.msgLogViewChange.filter fun m => m.vcDigest = e.d

def between (low high : ℕ) : List ℕ := List.range' low (high + 1 - low)

/-- The nested `forall` of `correct_chi`: within its own list `p`, the entry `e` has
the highest view for its sequence number, and no other digest has that view. -/
def topmost (p : List PiEntry) (e : PiEntry) : Prop :=
  ∀ e' ∈ p, e'.n = e.n → e'.v < e.v ∨ e'.v = e.v ∧ e'.reqDigest = e.reqDigest

instance : Decidable (topmost p e) := inferInstanceAs (Decidable (∀ _ ∈ p, _))

/-- CASE1 of `correct_chi` for sequence number `n`: its solutions, where the outer
choice is the message that supplies Pi and the next one the message that supplies Qi. -/
def chiCase1 (viewChangeMsgs : List ViewChange) (n : ℕ) : List ChiEntry :=
  viewChangeMsgs.flatMap fun mp => viewChangeMsgs.flatMap fun mq =>
    (mp.pi.filter fun p => p.n = n).flatMap fun p =>
      (mq.qi.filter fun q =>
        q.n = n ∧ q.reqDigest = p.reqDigest ∧ q.v = p.v ∧ topmost mp.pi p).map fun q =>
          ⟨n, p.reqDigest, q.data⟩

def chiEntry (viewChangeMsgs : List ViewChange) (n : ℕ) : ChiEntry :=
  (chiCase1 viewChangeMsgs n).head?.getD ⟨n, nullDigest, none⟩

/-- The greatest sequence number in a Pi, or `minS` when every Pi is empty. -/
def maxPreparedN (viewChangeMsgs : List ViewChange) (minS : ℕ) : ℕ :=
  ((viewChangeMsgs.flatMap ViewChange.pi).map PiEntry.n).max?.getD minS

def correctChi (cfg : Config) (nu : List NuEntry) (s : Replica) : Option (List ChiEntry) :=
  let viewChangeMsgs := nuVset nu s
  if quorum cfg ≤ viewChangeMsgs.length then
    (viewChangeMsgs.map ViewChange.hi).min?.map fun minS =>
      (between (minS + 1) (maxPreparedN viewChangeMsgs minS)).map (chiEntry viewChangeMsgs)
  else none

/-- Solutions `(Nu, Chi)` of `correct_new_view`: the logged Chi is unified with the
one computed from the log. -/
def correctNewView (cfg : Config) (replicaId : ℕ) (s : Replica) :
    List (List NuEntry × List ChiEntry) :=
  (s.msgLogNewView.filter fun m => m.v = s.view).flatMap fun m =>
    ((correctNuAll cfg replicaId s).filter fun nu => nu = m.nu).filterMap fun nu =>
      ((correctChi cfg nu s).bind (unifyChi m.chi)).map fun chi => (nu, chi)

/-- Pi is emptied first, so `prepared` answers from the message log alone. -/
def updateViewChangePi (cfg : Config) (s : Replica) : Replica :=
  let cleared := { s with viewChangePi := [] }
  let solutions := preparedSolutions cfg cleared
  { s with viewChangePi :=
      assertzAll (solutions.filter fun e => ∀ e' ∈ solutions, e'.n = e.n → ¬ e.v < e'.v) [] }

/-- Qi is emptied first, so `pre_prepared` answers from the message log alone. -/
def updateViewChangeQi (cfg : Config) (s : Replica) : Replica :=
  let cleared := { s with viewChangeQi := [] }
  let solutions := prePreparedSolutions cfg cleared
  let latest := solutions.filter fun e =>
    ∀ e' ∈ solutions, e'.n = e.n → e'.reqDigest = e.reqDigest → ¬ e.v < e'.v
  let entries := latest.flatMap fun e =>
    (s.msgLogPrePrepare.filter fun m =>
      m.v = e.v ∧ m.n = e.n ∧ m.reqDigest = e.reqDigest ∧ m.senderId = primary cfg e.v).map
        fun m => ⟨e.n, e.reqDigest, m.data, e.v⟩
  { s with viewChangeQi := assertzAll entries [] }

def viewTimeout (cfg : Config) (v : ℕ) : ℚ := 2 ^ v * ((cfg.targetBlockTime : ℚ) / 2)

def setView (cfg : Config) (v : ℕ) (s : Replica) : Replica :=
  { s with view := v, timeout := viewTimeout cfg v }

/-- Five of the six tables are cleaned: the goal meant for the view recovery table
retracts `msg_log_commit/4`, which does not exist. -/
def msgLogClearWhereViewLessThan (v : ℕ) (s : Replica) : Replica :=
  { s with
    msgLogPrePrepare := s.msgLogPrePrepare.filter fun m => ¬ m.v < v
    msgLogPrepare := s.msgLogPrepare.filter fun m => ¬ m.v < v
    msgLogCommit := s.msgLogCommit.filter fun m => ¬ m.v < v
    msgLogViewChange := s.msgLogViewChange.filter fun m => ¬ m.v < v
    msgLogNewView := s.msgLogNewView.filter fun m => ¬ m.v < v }

def msgOutAdd (m : Message) (s : Replica) : Replica :=
  { s with msgOut := assertzOnce m s.msgOut }

end Fbft
