import Fbft.RoastStart

/-! A run of the replica as a run on its ROAST tables. Every action makes some steps on
them, and a share that is heard carries the number of the delivery that brought it. -/
namespace Fbft

open Database LabelledPath

variable {cfg : Config} {i : ℕ} {now : ℚ} {s t : Replica} {a : Action} {r r' : Roast}
  {labels : List (ℚ × Action)}

inductive RoastOp where
  | start (active : RoastActive)
  | resetCounter
  | stop
  | collectGarbage
  | clearOut
  | answer (signatureShare nextPreSignatureShare : String)
  | receive (delivery signerId : ℕ) (signatureShare : Option String)
      (nextPreSignatureShare : String)
  deriving DecidableEq

namespace RoastOp

def apply (cfg : Config) (replicaId : ℕ) (r : Roast) : RoastOp → Option Roast
  | start active => some (setRoastActive (some active) r)
  | resetCounter => some (setRoastSessionCounter 0 r)
  | stop => some (setRoastActive none r)
  | collectGarbage => some roastCollectGarbage
  | clearOut => some { r with msgOut := [] }
  | answer signatureShare nextPreSignatureShare =>
    if r.active.isSome then
      some (roastMsgOutAdd (.roastSignatureShare signatureShare nextPreSignatureShare) r)
    else none
  | receive _ signerId signatureShare nextPreSignatureShare =>
    applyReceiveSigShare cfg signerId signatureShare nextPreSignatureShare replicaId r

/-- The signer who is heard. -/
def signer : RoastOp → Option ℕ
  | receive _ signerId _ _ => some signerId
  | _ => none

def delivery : RoastOp → Option ℕ
  | receive delivery _ _ _ => some delivery
  | _ => none

end RoastOp

def RoastStep (cfg : Config) (i : ℕ) (r : Roast) (op : RoastOp) (r' : Roast) : Prop :=
  op.apply cfg i r = some r'

theorem RoastStep.functional {op : RoastOp} (step : RoastStep cfg i r op r₁)
    (other : RoastStep cfg i r op r₂) : r₁ = r₂ :=
  Option.some.inj (step.symm.trans other)

/-- A replica with the steps that its ROAST tables have made. Each logged COMMIT is kept
with the number of the action that logged it. -/
structure Ledger where
  replica : Replica
  commits : List (Commit × ℕ)
  history : List RoastOp
  time : ℕ

namespace Ledger

variable {x y : Ledger}

def start (s : Replica) : Ledger := ⟨s, [], [], 0⟩

/-- The logged COMMITs that ROAST_INIT goes through. -/
def commitsFor (v n : ℕ) (x : Ledger) : List (Commit × ℕ) :=
  x.commits.filter fun e => e.1.v = v ∧ e.1.n = n

def ops (cfg : Config) (i : ℕ) (x : Ledger) : Action → List RoastOp
  | .msgOutClearAll => [.clearOut]
  | .receiveCommit v n data senderId _ =>
    if inWv v n x.replica ∧ commitFeedsRoast cfg v n i x.replica.roast then
      [.receive x.time senderId none data]
    else []
  | .receiveBlock _ _ _ => [.collectGarbage]
  | .sendViewChange _ => [.stop]
  | .roastInit reqDigest v n =>
    if primary cfg v = i then
      .start ⟨v, n, reqDigest⟩ :: .resetCounter ::
        (x.commitsFor v n).map fun e => .receive e.2 e.1.senderId none e.1.data
    else [.start ⟨v, n, reqDigest⟩]
  | .receivePreSignature _ _ signatureShare nextPreSignatureShare =>
    [.answer signatureShare nextPreSignatureShare]
  | .receiveSigShare signerId signatureShare nextPreSignatureShare =>
    [.receive x.time signerId (some signatureShare) nextPreSignatureShare]
  | _ => []

def newCommits (i : ℕ) (x : Ledger) (a : Action) : List (Commit × ℕ) :=
  (a.newCommits i x.replica).map fun m => (m, x.time)

def record (cfg : Config) (i : ℕ) (x : Ledger) (a : Action) (t : Replica) : Ledger where
  replica := t
  commits := (assertzAllBy (fun e e' => decide (e.1 = e'.1)) (x.newCommits i a) x.commits).filter
    fun e => a.keeps e.1.v e.1.n
  history := x.history ++ x.ops cfg i a
  time := x.time + 1

end Ledger

structure LedgerStep (cfg : Config) (i : ℕ) (x : Ledger) (l : ℚ × Action) (y : Ledger) : Prop where
  step : Step cfg i x.replica l y.replica
  recorded : y = x.record cfg i l.2 y.replica

namespace Ledger

variable {x y : Ledger}

theorem of_run (run : Path (Step cfg i) s labels t) (x : Ledger) (same : x.replica = s) :
    ∃ y, Path (LedgerStep cfg i) x labels y ∧ y.replica = t := by
  induction run generalizing x with
  | nil => exact ⟨x, .nil, same⟩
  | @cons s l m labels t step rest ih =>
    obtain ⟨y, later, ends⟩ := ih (x.record cfg i l.2 m) rfl
    exact ⟨y, .cons ⟨same ▸ step, rfl⟩ later, ends⟩

end Ledger

/-- Every logged COMMIT stands in the ledger. -/
theorem LedgerStep.commits_log (step : LedgerStep cfg i x l y)
    (same : x.commits.map Prod.fst = x.replica.msgLogCommit) :
    y.commits.map Prod.fst = y.replica.msgLogCommit := by
  have log := step.step.tables.commit
  have commits : y.commits = (x.record cfg i l.2 y.replica).commits :=
    congrArg Ledger.commits step.recorded
  rw [commits, log, ← same]
  have new : (x.newCommits i l.2).map Prod.fst = l.2.newCommits i x.replica := by
    simp [Ledger.newCommits, Function.comp_def]
  rw [← new, ← map_assertzAllBy, List.filter_map]
  rfl

theorem receiveCommitShares_path {tagged : List (Commit × ℕ)}
    (h : receiveCommitShares cfg i (tagged.map Prod.fst) r = some r') :
    Path (RoastStep cfg i) r
      (tagged.map fun e => .receive e.2 e.1.senderId none e.1.data) r' := by
  induction tagged generalizing r with
  | nil =>
    cases h
    exact .nil
  | cons e tagged ih =>
    obtain ⟨m, first, rest⟩ := Option.bind_eq_some_iff.mp h
    exact .cons first (ih rest)

theorem LedgerStep.roast_path (step : LedgerStep cfg i x (now, a) y)
    (same : x.commits.map Prod.fst = x.replica.msgLogCommit) :
    Path (RoastStep cfg i) x.replica.roast (x.ops cfg i a) y.replica.roast := by
  have next := step.step.tables.roast
  cases a with
  | msgOutClearAll | receiveBlock _ _ _ | sendViewChange _ => exact .single next
  | receiveCommit v n data j sig =>
    simp only [Action.nextRoast] at next
    simp only [Ledger.ops]
    split at next
    · rename_i feeds
      rw [if_pos feeds]
      exact .single next
    · rename_i feeds
      rw [if_neg feeds, Option.some.inj next]
      exact .nil
  | roastInit d v n =>
    simp only [Action.nextRoast, applyRoastInit] at next
    simp only [Ledger.ops]
    split at next
    · rename_i coordinator
      have tagged : commitsFor v n x.replica = (x.commitsFor v n).map Prod.fst := by
        rw [commitsFor, ← same, List.filter_map]
        rfl
      rw [tagged] at next
      rw [if_pos coordinator]
      exact .cons rfl (.cons rfl (receiveCommitShares_path next))
    · rename_i backup
      rw [if_neg backup]
      exact .single next
  | receivePreSignature _ _ _ _ | receiveSigShare _ _ _ => exact .single next
  | _ =>
    rw [← Option.some.inj next]
    exact .nil

namespace Ledger

variable {x y : Ledger}

def deliveries (x : Ledger) : List ℕ := x.history.filterMap RoastOp.delivery

end Ledger

theorem LedgerStep.deliveries_eq (step : LedgerStep cfg i x (now, a) y) :
    y.deliveries = x.deliveries ++ (x.ops cfg i a).filterMap RoastOp.delivery := by
  rw [step.recorded]
  simp [Ledger.deliveries, Ledger.record]

theorem Action.newCommits_cases (a : Action) (i : ℕ) (s : Replica) :
    a.newCommits i s = [] ∨ ∃ m, a.newCommits i s = [m] := by
  cases a with
  | sendCommit d v n data => exact Or.inr ⟨_, rfl⟩
  | receiveCommit v n data j sig =>
    simp only [Action.newCommits]
    split
    · exact Or.inr ⟨_, rfl⟩
    · exact Or.inl rfl
  | _ => exact Or.inl rfl

theorem deliveries_commits (tagged : List (Commit × ℕ)) :
    (tagged.map fun e => RoastOp.receive e.2 e.1.senderId none e.1.data).filterMap
      RoastOp.delivery = tagged.map Prod.snd := by
  rw [List.filterMap_map, ← List.filterMap_eq_map]
  rfl

/-- An action hears its own delivery while ROAST is active, or starts ROAST and hears some
of the logged COMMITs. -/
theorem LedgerStep.new_deliveries (step : LedgerStep cfg i x (now, a) y) :
    (x.ops cfg i a).filterMap RoastOp.delivery = [] ∨
    ((x.ops cfg i a).filterMap RoastOp.delivery = [x.time] ∧ x.replica.roast.active ≠ none) ∨
    (x.replica.roast.active = none ∧ y.replica.roast.active ≠ none ∧
      ((x.ops cfg i a).filterMap RoastOp.delivery).Sublist (x.commits.map Prod.snd)) := by
  have next := step.step.tables.roast
  cases a with
  | receiveCommit v n data j sig =>
    simp only [Ledger.ops]
    split
    · rename_i feeds
      obtain ⟨active, running, -⟩ := feeds.2.1
      exact Or.inr (Or.inl ⟨rfl, by simp [Option.mem_def.mp running]⟩)
    · exact Or.inl rfl
  | roastInit d v n =>
    simp only [Action.nextRoast, applyRoastInit] at next
    simp only [Ledger.ops]
    split at next
    · rename_i coordinator
      have running := receiveCommitShares_active next
      refine Or.inr (Or.inr ⟨step.step.pre.2.2.1, by simp [running, setRoastActive,
        setRoastSessionCounter], ?_⟩)
      rw [if_pos coordinator, List.filterMap_cons_none rfl, List.filterMap_cons_none rfl,
        deliveries_commits]
      exact List.filter_sublist.map _
    · rename_i backup
      rw [if_neg backup]
      exact Or.inl rfl
  | receiveSigShare j share nextShare =>
    exact Or.inr (Or.inl ⟨rfl, (applyReceiveSigShare_active next).1⟩)
  | _ => exact Or.inl rfl

/-- No delivery is heard twice: a COMMIT that was heard is gone from the log when ROAST
starts again. -/
structure HearsOnce (cfg : Config) (i : ℕ) (x : Ledger) : Prop where
  invariant : Invariant cfg i x.replica
  log : x.commits.map Prod.fst = x.replica.msgLogCommit
  past : ∀ e ∈ x.commits, e.2 < x.time
  distinct : (x.commits.map Prod.snd).Nodup
  heard : ∀ p ∈ x.deliveries, p < x.time
  once : x.deliveries.Nodup
  unheard : x.replica.roast.active = none → ∀ e ∈ x.commits, e.2 ∉ x.deliveries

namespace HearsOnce

variable {x y : Ledger}

theorem initial (start : Initial cfg s) : HearsOnce cfg i (Ledger.start s) := by
  refine ⟨Invariant.initial start, ?_, ?_, ?_, ?_, ?_, ?_⟩
  · obtain ⟨height, blockHash, timestamp, view, rfl⟩ := start
    simp [Ledger.start, initNotx, setView]
  all_goals simp [Ledger.start, Ledger.deliveries]

theorem commits_cases (x : Ledger) (a : Action) :
    (assertzAllBy (fun e e' => decide (e.1 = e'.1)) (x.newCommits i a) x.commits = x.commits) ∨
    ∃ m, assertzAllBy (fun e e' => decide (e.1 = e'.1)) (x.newCommits i a) x.commits =
      x.commits ++ [(m, x.time)] := by
  rcases a.newCommits_cases i x.replica with none | ⟨m, one⟩
  · exact Or.inl (by simp [Ledger.newCommits, none])
  · simp only [Ledger.newCommits, one, List.map_cons, List.map_nil, assertzAllBy_cons,
      assertzAllBy_nil]
    rcases assertzOnceBy_cases (fun e e' : Commit × ℕ => decide (e.1 = e'.1)) (m, x.time)
      x.commits with ⟨same, -⟩ | ⟨same, -⟩
    · exact Or.inl same
    · exact Or.inr ⟨m, same⟩

theorem mem_commits (step : LedgerStep cfg i x (now, a) y) (inside : e ∈ y.commits) :
    e ∈ x.commits ∨ e.2 = x.time := by
  rw [step.recorded] at inside
  have member := (List.mem_filter.mp inside).1
  rcases commits_cases (i := i) x a with same | ⟨m, same⟩
  · rw [same] at member
    exact Or.inl member
  · rw [same, List.mem_append, List.mem_singleton] at member
    exact member.imp id fun new => by rw [new]

private theorem step_distinct (hears : HearsOnce cfg i x) (step : LedgerStep cfg i x (now, a) y) :
    (y.commits.map Prod.snd).Nodup := by
  have kept : (y.commits.map Prod.snd).Sublist
      ((assertzAllBy (fun e e' => decide (e.1 = e'.1)) (x.newCommits i a) x.commits).map
        Prod.snd) := by
    rw [step.recorded]
    exact List.filter_sublist.map _
  refine List.Nodup.sublist kept ?_
  rcases commits_cases (i := i) x a with same | ⟨m, same⟩
  · rw [same]
    exact hears.distinct
  · rw [same, List.map_append, List.nodup_append]
    refine ⟨hears.distinct, by simp, ?_⟩
    intro p inside p' last same
    obtain ⟨e, old, rfl⟩ := List.mem_map.mp inside
    simp only [List.map_cons, List.map_nil, List.mem_singleton] at last
    have past := hears.past e old
    omega

theorem fresh (hears : HearsOnce cfg i x) : x.time ∉ x.deliveries :=
  fun inside => absurd (hears.heard _ inside) (lt_irrefl _)

private theorem step_heard (hears : HearsOnce cfg i x) (step : LedgerStep cfg i x (now, a) y) :
    ∀ p ∈ y.deliveries, p ≤ x.time := by
  intro p inside
  rw [step.deliveries_eq, List.mem_append] at inside
  rcases inside with old | new
  · exact (hears.heard p old).le
  · rcases step.new_deliveries with none | ⟨one, -⟩ | ⟨-, -, some⟩
    · rw [none] at new
      cases new
    · rw [one, List.mem_singleton] at new
      exact new.le
    · obtain ⟨e, listed, rfl⟩ := List.mem_map.mp (some.subset new)
      exact (hears.past e listed).le

private theorem step_once (hears : HearsOnce cfg i x) (step : LedgerStep cfg i x (now, a) y) :
    y.deliveries.Nodup := by
  rw [step.deliveries_eq]
  rcases step.new_deliveries with none | ⟨one, -⟩ | ⟨idle, -, some⟩
  · rw [none, List.append_nil]
    exact hears.once
  · rw [one]
    exact hears.once.append (List.nodup_singleton _) (by simpa using hears.fresh)
  · refine hears.once.append (hears.distinct.sublist some) ?_
    intro p inside inside'
    obtain ⟨e, listed, rfl⟩ := List.mem_map.mp (some.subset inside')
    exact hears.unheard idle e listed inside

/-- While ROAST is idle and COMMITs are in the log, nothing was heard in the step. -/
private theorem step_unheard (hears : HearsOnce cfg i x) (step : LedgerStep cfg i x (now, a) y)
    (idle : y.replica.roast.active = none) : ∀ e ∈ y.commits, e.2 ∉ y.deliveries := by
  intro e inside heard
  have logged : e.1 ∈ y.replica.msgLogCommit :=
    step.commits_log hears.log ▸ List.mem_map_of_mem inside
  have idle' := (step.step.idle_of_logged hears.invariant idle logged).1
  have quiet : y.deliveries = x.deliveries := by
    rw [step.deliveries_eq]
    rcases step.new_deliveries with none | ⟨-, active⟩ | ⟨-, active, -⟩
    · rw [none, List.append_nil]
    · exact absurd idle' active
    · exact absurd idle active
  rw [quiet] at heard
  rcases mem_commits step inside with old | new
  · exact hears.unheard idle' e old heard
  · exact hears.fresh (new ▸ heard)

theorem step (hears : HearsOnce cfg i x) (step : LedgerStep cfg i x (now, a) y) :
    HearsOnce cfg i y := by
  have time : y.time = x.time + 1 := congrArg Ledger.time step.recorded
  refine ⟨hears.invariant.step step.step, step.commits_log hears.log, ?_,
    step_distinct hears step, ?_, step_once hears step, step_unheard hears step⟩
  · intro e inside
    rcases mem_commits step inside with old | new
    · have past := hears.past e old
      omega
    · omega
  · intro p inside
    have heard := step_heard hears step p inside
    omega

end HearsOnce

theorem Ledger.roast_path (start : Initial cfg s)
    (recorded : Path (LedgerStep cfg i) (Ledger.start s) labels y) :
    HearsOnce cfg i y ∧
      Path (RoastStep cfg i) roastCollectGarbage y.history y.replica.roast := by
  apply recorded.invariant
  · rintro x ⟨now, a⟩ y ⟨hears, path⟩ step
    refine ⟨hears.step step, ?_⟩
    have history : y.history = x.history ++ x.ops cfg i a :=
      congrArg Ledger.history step.recorded
    rw [history]
    exact path.append (step.roast_path hears.log)
  · refine ⟨HearsOnce.initial start, ?_⟩
    obtain ⟨height, blockHash, timestamp, view, rfl⟩ := start
    exact .nil

end Fbft
