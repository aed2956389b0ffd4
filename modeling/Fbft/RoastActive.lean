import Fbft.PrePrepareLog
import Fbft.RoastStart

/-! What an active ROAST names. `FindByV_N_Req` looks a pre-prepare up by its digest
alone; that this finds the block of the active view and number is an invariant of all
actions, broken by a recovery into another view and by a second block. -/
namespace Fbft

open Database LabelledPath

variable {cfg : Config} {i j : ℕ} {now : ℚ} {s t : Replica} {a : Action}
  {labels : List (ℚ × Action)}

/-- The log has entries for the view, number and digest with one block, which the lookup
by digest returns. -/
def NamesOneBlock (v n : ℕ) (d : String) (s : Replica) : Prop :=
  ∃ block, (∃ m ∈ s.msgLogPrePrepare, m.v = v ∧ m.n = n ∧ m.reqDigest = d) ∧
    (∀ m ∈ s.msgLogPrePrepare, m.v = v → m.n = n → m.reqDigest = d → m.data = some block) ∧
    ∃ m, findByVNReq v n d s = some m ∧ m.v = v ∧ m.n = n ∧ m.data = some block

/-- An active ROAST is of the present view and the next block, and the lookup by digest gives both
of its callers the one block of their request. -/
structure ActiveCoherent (cfg : Config) (i : ℕ) (s : Replica) : Prop where
  current : ∀ active ∈ s.roast.active, active.v = s.view ∧ active.n = lowWatermark s + 1
  names : ∀ active ∈ s.roast.active, NamesOneBlock active.v active.n active.reqDigest s
  execute : ∀ d v n, preExecute cfg d v n i s → NamesOneBlock v n d s

/-- RECOVER_VIEW happens while ROAST is idle, and no second block is received for a logged
view, number and digest. -/
def KeepsBlock (s : Replica) (l : ℚ × Action) : Prop :=
  match l.2 with
  | .recoverView _ => s.roast.active = none
  | .receivePrePrepare v n d data _ _ =>
    ∀ m ∈ s.msgLogPrePrepare, m.v = v → m.n = n → m.reqDigest = d → m.data = some data
  | _ => True

instance : Decidable (KeepsBlock s l) := by
  obtain ⟨now, a⟩ := l
  apply a.casesOn (motive := fun a => Decidable (KeepsBlock s (now, a))) <;> intros <;>
    dsimp only [KeepsBlock] <;> infer_instance

/-- What ROAST relies on in the tables of the agreement protocol. -/
structure ActiveEntry (s : Replica) : Prop where
  oneBlock : ∀ m ∈ s.msgLogPrePrepare, ∀ m' ∈ s.msgLogPrePrepare, m.n = m'.n → m.data = m'.data
  current : ∀ active ∈ s.roast.active, active.v = s.view ∧ active.n = lowWatermark s + 1 ∧
    active.reqDigest ≠ nullDigest ∧
    ∃ m ∈ s.msgLogPrePrepare, m.v = active.v ∧ m.n = active.n ∧ m.reqDigest = active.reqDigest

theorem LoggedPrePrepared.named (inv : Invariant cfg i s) (logged : LoggedPrePrepared cfg s e) :
    e.reqDigest ≠ nullDigest := by
  obtain ⟨⟨r, known, digest⟩, -⟩ := logged
  exact digest ▸ inv.request r known

/-- The first entry with the digest of a window entry is itself a window entry. -/
theorem find_window (inv : Invariant cfg i s) (log : PrePrepareLog s)
    (inside : m ∈ s.msgLogPrePrepare) (window : m.n = lowWatermark s + 1) :
    ∃ m' ∈ s.msgLogPrePrepare, findByVNReq v n m.reqDigest s = some m' ∧
      m'.n = lowWatermark s + 1 ∧ m'.v = s.view ∧ m'.reqDigest = m.reqDigest := by
  obtain ⟨m', found⟩ : ∃ m', findByVNReq v n m.reqDigest s = some m' := by
    apply Option.isSome_iff_exists.mp
    rw [findByVNReq, List.find?_isSome]
    exact ⟨m, inside, by simp⟩
  obtain ⟨match', before, after, split, none⟩ := List.find?_eq_some_iff_append.mp found
  have digest : m'.reqDigest = m.reqDigest := by simpa using match'
  have member : m' ∈ s.msgLogPrePrepare := by
    rw [split]
    simp
  obtain ⟨view, above, -⟩ := inv.prePrepare m' member
  refine ⟨m', member, found, ?_, view, digest⟩
  by_contra other
  have positive : ∀ x ∈ s.msgLogPrePrepare, lowWatermark s < x.n :=
    fun x logged => (inv.prePrepare x logged).2.1
  obtain ⟨m'', earlier, number⟩ := log.stacked.window positive split (by omega)
  have logged : m'' ∈ s.msgLogPrePrepare := by
    rw [split]
    exact List.mem_append_left _ earlier
  have same := inv.oneDigest m'' logged m inside (number.trans window.symm)
  simpa [same] using none m'' earlier

theorem namesOneBlock_of_entry (inv : Invariant cfg i s) (log : PrePrepareLog s)
    (entry : ActiveEntry s) (inside : m ∈ s.msgLogPrePrepare)
    (window : m.n = lowWatermark s + 1) (named : m.reqDigest ≠ nullDigest) :
    NamesOneBlock m.v m.n m.reqDigest s := by
  obtain ⟨block, data⟩ := Option.ne_none_iff_exists'.mp (log.bound m inside named)
  have same : ∀ x ∈ s.msgLogPrePrepare, x.n = m.n → x.data = some block := by
    intro x logged number
    rw [entry.oneBlock x logged m inside number, data]
  obtain ⟨m', member, found, number, view, -⟩ := find_window (v := m.v) (n := m.n) inv log inside window
  refine ⟨block, ⟨m, inside, rfl, rfl, rfl⟩, fun x logged _ number _ => same x logged number, m',
    found, ?_, number.trans window.symm, same m' member (number.trans window.symm)⟩
  exact view.trans (inv.prePrepare m inside).1.symm

theorem Step.active_some (step : Step cfg i s (now, a) t) (running : t.roast.active = some x) :
    s.roast.active = some x ∨ a = .roastInit x.reqDigest x.v x.n := by
  have next := step.tables.roast
  cases a with
  | receiveCommit v n data j sig =>
    simp only [Action.nextRoast] at next
    split at next
    · exact Or.inl ((applyReceiveSigShare_active next).2.symm.trans running)
    · rw [← Option.some.inj next] at running
      exact Or.inl running
  | roastInit d v n =>
    have started : t.roast.active = some ⟨v, n, d⟩ := by
      simp only [Action.nextRoast, applyRoastInit] at next
      split at next
      · exact receiveCommitShares_active next
      · rw [← Option.some.inj next]
        rfl
    rw [started] at running
    cases running
    exact Or.inr rfl
  | receivePreSignature signers preSignature share nextShare =>
    simp only [Action.nextRoast, applyReceivePreSignature] at next
    split at next
    · rw [← Option.some.inj next] at running
      exact Or.inl running
    · cases next
  | receiveSigShare j share nextShare =>
    exact Or.inl ((applyReceiveSigShare_active next).2.symm.trans running)
  | receiveBlock _ _ _ | sendViewChange _ =>
    rw [← Option.some.inj next] at running
    cases running
  | _ =>
    rw [← Option.some.inj next] at running
    exact Or.inl running

namespace ActiveEntry

theorem initial (start : Initial cfg s) : ActiveEntry s := by
  obtain ⟨height, blockHash, timestamp, view, rfl⟩ := start
  constructor <;> simp [initNotx, setView, roastCollectGarbage]

private theorem new_old (inv : Invariant cfg i s) (step : Step cfg i s (now, a) t)
    (keeps : KeepsBlock s (now, a)) (new : m ∈ a.newPrePrepares cfg i s)
    (old : m' ∈ s.msgLogPrePrepare) (same : m.n = m'.n) : m.data = m'.data := by
  have digest := inv.new_old_digest step new old same
  cases a with
  | sendPrePrepare d data v n =>
    obtain ⟨-, sender, next, -⟩ := step.pre
    simp only [Action.newPrePrepares, List.mem_singleton] at new
    subst new
    have bound := inv.proposed sender m' old
    simp only at same
    omega
  | receivePrePrepare v n d data j sig =>
    have view := (step.new_prePrepare inv.checkpoint new).1
    simp only [Action.newPrePrepares, List.mem_singleton] at new
    subst new
    have view' := (inv.prePrepare m' old).1
    exact (keeps m' old (view'.trans view.symm) same.symm digest.symm).symm
  | processNewView hi nu chi =>
    rw [inv.inactive step.pre.1] at old
    cases old
  | _ => cases new

theorem oneBlock_step (inv : Invariant cfg i s)
    (one : ∀ m ∈ s.msgLogPrePrepare, ∀ m' ∈ s.msgLogPrePrepare, m.n = m'.n → m.data = m'.data)
    (step : Step cfg i s (now, a) t) (keeps : KeepsBlock s (now, a)) :
    ∀ m ∈ t.msgLogPrePrepare, ∀ m' ∈ t.msgLogPrePrepare, m.n = m'.n → m.data = m'.data := by
  intro m logged m' logged' same
  obtain ⟨old | new, -⟩ := step.mem_prePrepare logged
  · obtain ⟨old' | new', -⟩ := step.mem_prePrepare logged'
    · exact one m old m' old' same
    · exact (new_old inv step keeps new' old same.symm).symm
  · obtain ⟨old' | new', -⟩ := step.mem_prePrepare logged'
    · exact new_old inv step keeps new old' same
    · rw [Invariant.new_prePrepare_unique step new new' same]

private theorem step_current (entry : ActiveEntry s) (inv : Invariant cfg i s)
    (step : Step cfg i s (now, a) t) (keeps : KeepsBlock s (now, a)) :
    ∀ x ∈ t.roast.active, x.v = t.view ∧ x.n = lowWatermark t + 1 ∧ x.reqDigest ≠ nullDigest ∧
      ∃ m ∈ t.msgLogPrePrepare, m.v = x.v ∧ m.n = x.n ∧ m.reqDigest = x.reqDigest := by
  intro x running
  have kept : ∀ m ∈ s.msgLogPrePrepare, a.keeps m.v m.n → m ∈ t.msgLogPrePrepare := by
    intro m logged keep
    rw [step.tables.prePrepare]
    exact List.mem_filter.mpr ⟨mem_assertzAllBy_of_mem logged, keep⟩
  rcases step.active_some running with before | rfl
  · obtain ⟨view, number, named, m, logged, atEntry⟩ := entry.current x before
    have still : a.keeps m.v m.n = true ∧ t.view = s.view ∧ lowWatermark t = lowWatermark s := by
      have height := step.lowWatermark_cases inv.checkpoint
      have next := step.tables.view
      have roast := step.tables.roast
      cases a with
      | recoverView v =>
        rw [show s.roast.active = none from keeps] at before
        cases before
      | sendViewChange v | receiveBlock _ _ _ =>
        rw [← Option.some.inj roast] at running
        cases running
      | _ => exact ⟨rfl, next, by simpa using height⟩
    obtain ⟨keep, sameView, sameHeight⟩ := still
    rw [sameView, sameHeight]
    exact ⟨view, number, named, m, kept m logged keep, atEntry⟩
  · obtain ⟨-, certificate, -⟩ := step.pre
    obtain ⟨view, number, logged, -⟩ := committed_logged inv certificate
    have named := logged.named inv
    obtain ⟨-, m, inside, viewM, numberM, digest, -⟩ := logged
    have sameView : t.view = s.view := step.tables.view
    have sameHeight : lowWatermark t = lowWatermark s := by
      simpa using step.lowWatermark_cases inv.checkpoint
    rw [sameView, sameHeight]
    exact ⟨view, number, named, m, kept m inside rfl, viewM, numberM, digest⟩

theorem step (entry : ActiveEntry s) (inv : Invariant cfg i s) (step : Step cfg i s (now, a) t)
    (keeps : KeepsBlock s (now, a)) : ActiveEntry t where
  oneBlock := oneBlock_step inv entry.oneBlock step keeps
  current := step_current entry inv step keeps

theorem run (start : Initial cfg s) (run : Path (Guarded (Step cfg i) KeepsBlock) s labels t) :
    Invariant cfg i t ∧ PrePrepareLog t ∧ ActiveEntry t := by
  apply run.invariant _ ⟨Invariant.initial start, PrePrepareLog.initial start, initial start⟩
  rintro u l w ⟨inv, log, entry⟩ ⟨next, keeps⟩
  exact ⟨inv.step next, log.step inv next, entry.step inv next keeps⟩

end ActiveEntry

/-- The active ROAST names the one block of the current view and the next height, and the
lookup by digest finds it, along every run that keeps the block. -/
theorem activeCoherent_of_keepsBlock (start : Initial cfg s)
    (run : Path (Guarded (Step cfg i) KeepsBlock) s labels t) : ActiveCoherent cfg i t := by
  obtain ⟨inv, log, entry⟩ := ActiveEntry.run start run
  refine ⟨fun x running => ?_, fun x running => ?_, fun d v n enabled => ?_⟩
  · obtain ⟨view, number, -⟩ := entry.current x running
    exact ⟨view, number⟩
  · obtain ⟨-, number, named, m, inside, view, number', digest⟩ := entry.current x running
    rw [← view, ← number', ← digest]
    exact namesOneBlock_of_entry inv log entry inside (number'.trans number) (digest ▸ named)
  · obtain ⟨-, number, logged, -⟩ := committed_logged inv enabled.2.1
    have named := logged.named inv
    obtain ⟨-, m, inside, rfl, rfl, rfl, -⟩ := logged
    exact namesOneBlock_of_entry inv log entry inside number named

def joinsRoast : List (ℚ × Action) :=
  [(60, .receiveRequest "(H=1, T=60)" 60),
    (60, .receivePrePrepare 0 1 "(H=1, T=60)" "B60" 0 "S0"),
    (60, .sendPrepare "(H=1, T=60)" 0 1), (60, .receivePrepare 0 1 "(H=1, T=60)" 2 "S2"),
    (60, .sendCommit "(H=1, T=60)" 0 1 "p1"), (60, .receiveCommit 0 1 "p0" 0 "S0"),
    (60, .receiveCommit 0 1 "p2" 2 "S2"), (60, .roastInit "(H=1, T=60)" 0 1)]

theorem activeCoherent_joinsRoast : ∃ t,
    exec fourReplicas 1 KeepsBlock joinsRoast genesis = some t ∧
    t.roast.active = some ⟨0, 1, "(H=1, T=60)"⟩ ∧ ActiveCoherent fourReplicas 1 t := by
  have runs : ∃ t, exec fourReplicas 1 KeepsBlock joinsRoast genesis = some t ∧
      t.roast.active = some ⟨0, 1, "(H=1, T=60)"⟩ := by
    decide +kernel
  obtain ⟨t, ran, running⟩ := runs
  exact ⟨t, ran, running, activeCoherent_of_keepsBlock genesis_initial (exec_path ran)⟩

def secondBlock : List (ℚ × Action) :=
  joinsRoast ++ [(60, .receivePrePrepare 0 1 "(H=1, T=60)" "B61" 0 "S0b")]

def recoversDuringRoast : List (ℚ × Action) :=
  joinsRoast ++
    [(60, .receiveCommit 1 0 "q0" 0 "S0"), (60, .receiveCommit 1 0 "q2" 2 "S2"),
      (60, .receiveCommit 1 0 "q3" 3 "S3"), (60, .recoverView 1)]

/-- After a second block the log names two; after a recovery ROAST runs on in the old view
and the lookup throws. -/
theorem activeCoherent_broken :
    (∃ s, Reachable (Initial fourReplicas) (Step fourReplicas 1) s ∧
      s.roast.active = some ⟨0, 1, "(H=1, T=60)"⟩ ∧ ¬ ActiveCoherent fourReplicas 1 s) ∧
    ∃ s, Reachable (Initial fourReplicas) (Step fourReplicas 1) s ∧
      s.roast.active = some ⟨0, 1, "(H=1, T=60)"⟩ ∧
      findByVNReq 0 1 "(H=1, T=60)" s = none ∧ ¬ ActiveCoherent fourReplicas 1 s := by
  constructor
  · have runs : ∃ s, exec fourReplicas 1 Always secondBlock genesis = some s ∧
        s.roast.active = some ⟨0, 1, "(H=1, T=60)"⟩ ∧
        s.msgLogPrePrepare = [⟨0, 1, "(H=1, T=60)", some "B60", 0, "S0"⟩,
          ⟨0, 1, "(H=1, T=60)", some "B61", 0, "S0b"⟩] := by
      decide +kernel
    obtain ⟨s, ran, running, log⟩ := runs
    refine ⟨s, exec_reachable genesis_initial ran, running, fun coherent => ?_⟩
    obtain ⟨block, -, one, -⟩ := coherent.names _ running
    have first := one ⟨0, 1, "(H=1, T=60)", some "B60", 0, "S0"⟩ (by simp [log]) rfl rfl rfl
    have second := one ⟨0, 1, "(H=1, T=60)", some "B61", 0, "S0b"⟩ (by simp [log]) rfl rfl rfl
    exact absurd (first.trans second.symm) (by decide)
  · have runs : ∃ s, exec fourReplicas 1 Always recoversDuringRoast genesis = some s ∧
        s.roast.active = some ⟨0, 1, "(H=1, T=60)"⟩ ∧ s.view = 1 ∧
        findByVNReq 0 1 "(H=1, T=60)" s = none := by
      decide +kernel
    obtain ⟨s, ran, running, view, thrown⟩ := runs
    refine ⟨s, exec_reachable genesis_initial ran, running, thrown, fun coherent => ?_⟩
    have current := (coherent.current _ running).1
    rw [view] at current
    exact absurd current (by decide)

end Fbft
