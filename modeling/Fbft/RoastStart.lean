import Fbft.RoastSessions
import Fbft.Counting

/-! How a ROAST run starts. While no run is active the coordinator's tables are empty,
unless a view change left them behind and no block has come since; from empty tables and one
COMMIT for each sender the initial loop cannot fail. -/
namespace Fbft

open Database LabelledPath

variable {cfg : Config} {i j : ℕ} {now : ℚ} {s t : Replica} {a : Action} {r r' : Roast}
  {labels : List (ℚ × Action)}

/-- Nothing is left of an earlier run. -/
structure CleanTables (r : Roast) : Prop where
  responsive : r.responsiveSigner = []
  sid : r.signersSid = []
  latest : r.latestPreSignatureShare = []
  session : r.signatureSession = []

instance : Decidable (CleanTables r) :=
  decidable_of_iff (r.responsiveSigner = [] ∧ r.signersSid = [] ∧ r.latestPreSignatureShare = [] ∧
    r.signatureSession = []) ⟨fun ⟨a, b, c, d⟩ => ⟨a, b, c, d⟩, fun ⟨a, b, c, d⟩ => ⟨a, b, c, d⟩⟩

/-- A new pre-signature aggregates shares of these COMMITs. -/
def AggregatesShares (commits : List Commit) (m : Message) : Prop :=
  ∃ signers shares, m = .roastPreSignature signers (roastCryptoPreSigAggregate shares) ∧
    ∀ x ∈ shares, ∃ c ∈ commits, c.data = x

/-- The state of the loop: `heard` are the COMMITs already processed. -/
structure InitialLoop (heard : List Commit) (r₀ r : Roast) (active : RoastActive) : Prop where
  running : r.active = some active
  noShares : ∀ e ∈ r.signatureSession, e.signatureShares = []
  counter : r.sessionCounter ≠ none
  malicious : r.maliciousSigner = r₀.maliciousSigner
  responsive : ∀ j ∈ r.responsiveSigner, j ∈ heard.map Commit.senderId
  sid : ∀ j, roastSignersSid j r ≠ none → j ∈ heard.map Commit.senderId
  latest : ∀ x ∈ r.latestPreSignatureShare, ∃ c ∈ heard, c.data = x.2
  out : ∀ m ∈ r.msgOut, m ∈ r₀.msgOut ∨ AggregatesShares heard m

theorem sigQuorum_pos (cfg : Config) : 0 < sigQuorum cfg := by simp [sigQuorum]

theorem AggregatesShares.mono {heard heard' : List Commit} {m : Message}
    (shares : AggregatesShares heard m) (more : ∀ c ∈ heard, c ∈ heard') :
    AggregatesShares heard' m := by
  obtain ⟨signers, shares, rfl, source⟩ := shares
  refine ⟨signers, shares, rfl, fun x inside => ?_⟩
  obtain ⟨c, heard, data⟩ := source x inside
  exact ⟨c, more c heard, data⟩

theorem InitialLoop.not_final (cfg : Config) (loop : InitialLoop heard r₀ r active) :
    ¬ roastFinalSignatureSession cfg r := by
  rintro ⟨-, e, inside, full⟩
  have positive := sigQuorum_pos cfg
  rw [loop.noShares e inside, List.length_nil] at full
  omega

/-- The signers whose shares are aggregated were all heard. -/
theorem lookup_heard {heard : List Commit} {signers : List ℕ}
    (latest : ∀ x ∈ r.latestPreSignatureShare, ∃ c ∈ heard, c.data = x.2) :
    ∀ x ∈ lookupPreSignatureShares signers r, ∃ c ∈ heard, c.data = x := by
  intro x inside
  simp only [lookupPreSignatureShares, List.mem_flatMap, List.mem_map, List.mem_filter] at inside
  obtain ⟨-, -, y, ⟨listed, -⟩, rfl⟩ := inside
  exact latest y listed

theorem exists_initiateSession (cfg : Config) (counter : r.sessionCounter ≠ none) :
    ∃ r', initiateSession cfg r = some r' := by
  obtain ⟨c, current⟩ := Option.ne_none_iff_exists'.mp counter
  by_cases enough : r.responsiveSigner.length = sigQuorum cfg
  · simp [initiateSession, enough, current]
  · simp [initiateSession, enough]

/-- A COMMIT of a signer in no session, who is not responsive, only makes him responsive. -/
theorem applyReceiveSigShare_fresh {active : RoastActive} {share : Option String} {next : String}
    (running : r.active = some active) (notFinal : ¬ roastFinalSignatureSession cfg r)
    (coordinator : primary cfg active.v = i) (absent : roastSignersSid j r = none)
    (quiet : j ∉ r.responsiveSigner) :
    applyReceiveSigShare cfg j share next i r = initiateSession cfg
      (roastMarkResponsive j (setLatestPreSignatureShare j next r)) := by
  have marked : markUnsolicited j r = r := by simp [markUnsolicited, quiet]
  have stored : storeSignatureShare j share r = some r := by simp [storeSignatureShare, absent]
  simp only [applyReceiveSigShare, running, if_neg notFinal, coordinator, ne_eq,
    not_true_eq_false, if_false, marked, stored, Option.bind_some]

theorem InitialLoop.initiate (cfg : Config) (loop : InitialLoop heard r₀ r active) :
    ∃ r', initiateSession cfg r = some r' ∧ InitialLoop heard r₀ r' active := by
  obtain ⟨r', found⟩ := exists_initiateSession cfg loop.counter
  refine ⟨r', found, ?_⟩
  rcases initiateSession_spec found with ⟨-, rfl⟩ | ⟨-, counter', current', active', responsive,
    malicious, latest, next, sid, sessions, out⟩
  · exact loop
  constructor
  · exact active'.trans loop.running
  · intro e inside
    rcases (sessions e).mp inside with ⟨old, -⟩ | rfl
    · exact loop.noShares e old
    · rfl
  · simp [next]
  · exact malicious.trans loop.malicious
  · simp [responsive]
  · intro j recorded
    rw [sid j] at recorded
    split at recorded
    · rename_i present
      exact loop.responsive j present
    · exact loop.sid j recorded
  · rw [latest]
    exact loop.latest
  · intro m inside
    rcases out m inside with old | rfl
    · exact loop.out m old
    · exact Or.inr ⟨_, _, rfl, lookup_heard loop.latest⟩

theorem InitialLoop.hear (loop : InitialLoop heard r₀ r active) (coordinator : primary cfg active.v = i)
    (m : Commit) (fresh : m.senderId ∉ heard.map Commit.senderId) :
    ∃ r', applyReceiveSigShare cfg m.senderId none m.data i r = some r' ∧
      InitialLoop (heard ++ [m]) r₀ r' active := by
  have quiet : m.senderId ∉ r.responsiveSigner := fun inside => fresh (loop.responsive _ inside)
  have absent : roastSignersSid m.senderId r = none := by
    by_contra recorded
    exact fresh (loop.sid _ recorded)
  have heardLater : ∀ c ∈ heard, c ∈ heard ++ [m] := fun c inside => List.mem_append_left _ inside
  have next : InitialLoop (heard ++ [m]) r₀
      (roastMarkResponsive m.senderId (setLatestPreSignatureShare m.senderId m.data r)) active := by
    constructor
    · exact loop.running
    · exact loop.noShares
    · exact loop.counter
    · exact loop.malicious
    · intro j inside
      rw [List.map_append, List.mem_append]
      rcases mem_assertzOnce.mp inside with old | new
      · exact Or.inl (loop.responsive j old)
      · exact Or.inr (by simp [new])
    · intro j recorded
      rw [List.map_append, List.mem_append]
      exact Or.inl (loop.sid j recorded)
    · intro x inside
      rcases mem_setLatestPreSignatureShare.mp inside with ⟨old, -⟩ | rfl
      · obtain ⟨c, known, data⟩ := loop.latest x old
        exact ⟨c, heardLater c known, data⟩
      · exact ⟨m, by simp, rfl⟩
    · intro message inside
      exact (loop.out message inside).imp id fun shares => shares.mono heardLater
  obtain ⟨r', opened, loop'⟩ := next.initiate cfg
  refine ⟨r', ?_, loop'⟩
  rw [applyReceiveSigShare_fresh loop.running (loop.not_final cfg) coordinator absent quiet]
  exact opened

theorem InitialLoop.run {commits heard : List Commit} (loop : InitialLoop heard r₀ r active)
    (coordinator : primary cfg active.v = i)
    (distinct : ((heard ++ commits).map Commit.senderId).Nodup) :
    ∃ r', receiveCommitShares cfg i commits r = some r' ∧
      InitialLoop (heard ++ commits) r₀ r' active := by
  induction commits generalizing heard r with
  | nil => exact ⟨r, rfl, by simpa using loop⟩
  | cons m commits ih =>
    have fresh : m.senderId ∉ heard.map Commit.senderId := by
      rw [List.map_append, List.map_cons] at distinct
      intro inside
      exact (List.nodup_append.mp distinct).2.2 _ inside _ List.mem_cons_self rfl
    obtain ⟨r₁, first, loop₁⟩ := loop.hear coordinator m fresh
    obtain ⟨r₂, rest, loop₂⟩ := ih loop₁ (by simpa using distinct)
    refine ⟨r₂, ?_, by simpa using loop₂⟩
    simp [receiveCommitShares, first, rest]

theorem applyReceiveSigShare_active {share : Option String} {next : String}
    (h : applyReceiveSigShare cfg j share next i r = some r') :
    r.active ≠ none ∧ r'.active = r.active := by
  obtain ⟨active, running, -, -, stored, store, rest⟩ := applyReceiveSigShare_spec h
  obtain ⟨malicious, marked, -⟩ := markUnsolicited_frame j r
  refine ⟨by simp [running], ?_⟩
  have same : stored.active = r.active := by
    rw [marked] at store
    rcases storeSignatureShare_spec store with ⟨-, rfl⟩ | ⟨session, -, -, rfl⟩ <;> rfl
  rcases rest with ⟨-, rfl⟩ | ⟨-, opened⟩
  · exact same
  · rcases initiateSession_spec opened with ⟨-, rfl⟩ | ⟨-, -, -, active', -⟩
    · exact same
    · exact active'.trans same

theorem receiveCommitShares_active {commits : List Commit}
    (h : receiveCommitShares cfg i commits r = some r') : r'.active = r.active := by
  induction commits generalizing r with
  | nil => rw [Option.some.inj h]
  | cons m commits ih =>
    obtain ⟨r₁, first, rest⟩ := Option.bind_eq_some_iff.mp h
    exact (ih rest).trans (applyReceiveSigShare_active first).2

/-- ROAST stops being active through a view change or a block only. -/
theorem Step.active_none (step : Step cfg i s (now, a) t) (idle : t.roast.active = none) :
    (∃ v, a = .sendViewChange v ∧ t.roast = setRoastActive none s.roast) ∨
    (∃ height time blockHash, a = .receiveBlock height time blockHash ∧
      t.roast = roastCollectGarbage) ∨
    (s.roast.active = none ∧ ∃ out, t.roast = { s.roast with msgOut := out }) := by
  have next := step.tables.roast
  cases a with
  | msgOutClearAll =>
    rw [← Option.some.inj next] at idle ⊢
    exact Or.inr (Or.inr ⟨idle, [], rfl⟩)
  | receiveCommit v n data j sig =>
    simp only [Action.nextRoast] at next
    split at next
    · obtain ⟨running, same⟩ := applyReceiveSigShare_active next
      exact absurd (same.symm.trans idle) running
    · rw [← Option.some.inj next] at idle ⊢
      exact Or.inr (Or.inr ⟨idle, s.roast.msgOut, rfl⟩)
  | receiveBlock height time blockHash =>
    exact Or.inr (Or.inl ⟨height, time, blockHash, rfl, (Option.some.inj next).symm⟩)
  | sendViewChange v => exact Or.inl ⟨v, rfl, (Option.some.inj next).symm⟩
  | roastInit d v n =>
    simp only [Action.nextRoast, applyRoastInit] at next
    split at next
    · rw [receiveCommitShares_active next] at idle
      cases idle
    · rw [← Option.some.inj next] at idle
      cases idle
  | receivePreSignature signers preSignature share nextShare =>
    simp only [Action.nextRoast, applyReceivePreSignature] at next
    split at next
    · rw [← Option.some.inj next] at idle ⊢
      exact Or.inr (Or.inr ⟨idle, _, rfl⟩)
    · cases next
  | receiveSigShare j share nextShare =>
    obtain ⟨running, same⟩ := applyReceiveSigShare_active next
    exact absurd (same.symm.trans idle) running
  | _ =>
    rw [← Option.some.inj next] at idle ⊢
    exact Or.inr (Or.inr ⟨idle, s.roast.msgOut, rfl⟩)

/-- The actions that end a run of ROAST leave no COMMIT in the log. -/
theorem Step.idle_of_logged (inv : Invariant cfg i s) (step : Step cfg i s (now, a) t)
    (idle : t.roast.active = none) (logged : m ∈ t.msgLogCommit) :
    s.roast.active = none ∧ ∃ out, t.roast = { s.roast with msgOut := out } := by
  obtain ⟨member, kept⟩ := step.mem_commit.mp logged
  rcases step.active_none idle with ⟨v, rfl, -⟩ | ⟨height, time, blockHash, rfl, -⟩ | before
  · rcases member with old | new
    · have view := (inv.commit m old).1
      have raised : v = s.view + 1 := step.pre.1
      simp [Action.keeps] at kept
      omega
    · cases new
  · rcases member with old | new
    · have number := (inv.commit m old).2
      have grown := step.admissible _ (getH_eq inv.checkpoint)
      simp [Action.keeps] at kept
      omega
    · cases new
  · exact before

theorem Step.view_of_logged (inv : Invariant cfg i s) (step : Step cfg i s (now, a) t)
    (logged : m ∈ t.msgLogCommit) : s.view = t.view := by
  obtain ⟨old | new, kept⟩ := step.mem_commit.mp logged
  · obtain ⟨view, number⟩ := inv.commit m old
    exact (step.kept_current inv.checkpoint view (by omega) kept).1.symm
  · exact (step.new_commit inv.checkpoint new).2.2.1.symm

/-- One COMMIT for each sender, while the coordinator has not begun. -/
def OneCommitEach (cfg : Config) (i : ℕ) (s : Replica) : Prop :=
  s.roast.active = none → primary cfg s.view = i →
    ∀ m ∈ s.msgLogCommit, ∀ m' ∈ s.msgLogCommit, m.senderId = m'.senderId → m = m'

/-- The received COMMIT, if any, is the only one of its sender. -/
def CommitsOnce (cfg : Config) (i : ℕ) (s : Replica) (a : Action) : Prop :=
  ∀ v n data j sig, a = .receiveCommit v n data j sig → inWv v n s → primary cfg v = i →
    s.roast.active = none →
      ∀ m ∈ commitsFor v n s, m.senderId = j → m.data = data ∧ m.senderSig = sig

namespace OneCommitEach

private theorem new_old (inv : Invariant cfg i s) (step : Step cfg i s (now, a) t)
    (once : CommitsOnce cfg i s a) (idle : s.roast.active = none)
    (coordinator : primary cfg s.view = i) (new : m ∈ a.newCommits i s)
    (old : m' ∈ s.msgLogCommit) (sender : m.senderId = m'.senderId) : m = m' := by
  obtain ⟨view, number, -⟩ := step.new_commit inv.checkpoint new
  obtain ⟨view', number'⟩ := inv.commit m' old
  have logged : m' ∈ commitsFor m.v m.n s :=
    mem_commitsFor.mpr ⟨old, view'.trans view.symm, number'.trans number.symm⟩
  cases a with
  | sendCommit d v n data =>
    simp only [Action.newCommits, List.mem_singleton] at new
    subst new
    exact absurd ⟨m', logged, sender.symm⟩ step.pre.2.2
  | receiveCommit v n data j sig =>
    simp only [Action.newCommits] at new
    split at new
    · rename_i window
      rw [List.mem_singleton] at new
      subst new
      have same : primary cfg v = i := by rwa [show v = s.view from view]
      obtain ⟨share, signature⟩ := once v n data j sig rfl window same idle m' logged sender.symm
      obtain ⟨v', n', data', j', sig'⟩ := m'
      simp_all
    · cases new
  | _ => cases new

theorem step (one : OneCommitEach cfg i s) (inv : Invariant cfg i s)
    (step : Step cfg i s (now, a) t) (once : CommitsOnce cfg i s a) : OneCommitEach cfg i t := by
  intro stopped coordinator m logged m' logged' sender
  have before := (step.idle_of_logged inv stopped logged).1
  rw [← step.view_of_logged inv logged] at coordinator
  obtain ⟨old | new, -⟩ := step.mem_commit.mp logged
  · obtain ⟨old' | new', -⟩ := step.mem_commit.mp logged'
    · exact one before coordinator m old m' old' sender
    · exact (new_old inv step once before coordinator new' old sender.symm).symm
  · obtain ⟨old' | new', -⟩ := step.mem_commit.mp logged'
    · exact new_old inv step once before coordinator new old' sender
    · exact Action.newCommits_unique new new'

end OneCommitEach

/-- Before a run a COMMIT is logged only when the tables of the coordinator are empty, and each
sender gives the coordinator one. -/
def CommitsClean (cfg : Config) (i : ℕ) (s : Replica) (l : ℚ × Action) : Prop :=
  match l.2 with
  | .sendCommit _ _ _ _ => s.roast.active = none → CleanTables s.roast
  | .receiveCommit v n data j sig => inWv v n s → s.roast.active = none →
      CleanTables s.roast ∧ (primary cfg v = i →
        ∀ m ∈ commitsFor v n s, m.senderId = j → m.data = data ∧ m.senderSig = sig)
  | _ => True

instance : Decidable (CommitsClean cfg i s l) := by
  obtain ⟨now, a⟩ := l
  apply a.casesOn (motive := fun a => Decidable (CommitsClean cfg i s (now, a))) <;> intros <;>
    dsimp only [CommitsClean] <;> infer_instance

theorem CommitsClean.of_newCommit (tidy : CommitsClean cfg i s (now, a))
    (new : m ∈ a.newCommits i s) (idle : s.roast.active = none) : CleanTables s.roast := by
  cases a with
  | sendCommit d v n data => exact tidy idle
  | receiveCommit v n data j sig =>
    simp only [Action.newCommits] at new
    split at new
    · rename_i window
      exact (tidy window idle).1
    · cases new
  | _ => cases new

/-- While ROAST is idle. -/
structure Idle (cfg : Config) (i : ℕ) (s : Replica) : Prop where
  commitNodup : s.msgLogCommit.Nodup
  clean : s.roast.active = none → s.msgLogCommit ≠ [] → CleanTables s.roast
  oneCommit : s.roast.active = none → primary cfg s.view = i →
    ∀ m ∈ s.msgLogCommit, ∀ m' ∈ s.msgLogCommit, m.senderId = m'.senderId → m = m'

namespace Idle

theorem initial (start : Initial cfg s) : Idle cfg i s := by
  obtain ⟨height, blockHash, timestamp, view, rfl⟩ := start
  constructor <;> simp [initNotx, setView]

theorem step (idle : Idle cfg i s) (inv : Invariant cfg i s) (step : Step cfg i s (now, a) t)
    (tidy : CommitsClean cfg i s (now, a)) : Idle cfg i t where
  commitNodup := step.commit_nodup idle.commitNodup
  clean := by
    intro stopped some
    obtain ⟨m, logged⟩ := List.exists_mem_of_ne_nil _ some
    obtain ⟨before, out, same⟩ := step.idle_of_logged inv stopped logged
    have clean : CleanTables s.roast := by
      obtain ⟨old | new, -⟩ := step.mem_commit.mp logged
      · exact idle.clean before (List.ne_nil_of_mem old)
      · exact tidy.of_newCommit new before
    rw [same]
    exact ⟨clean.responsive, clean.sid, clean.latest, clean.session⟩
  oneCommit := by
    refine OneCommitEach.step idle.oneCommit inv step ?_
    rintro v n data j sig rfl window coordinator stopped
    exact (tidy window stopped).2 coordinator

theorem run (start : Initial cfg s)
    (run : Path (Guarded (Step cfg i) (CommitsClean cfg i)) s labels t) :
    Invariant cfg i t ∧ Idle cfg i t := by
  apply run.invariant _ ⟨Invariant.initial start, initial start⟩
  rintro u l w ⟨inv, idle⟩ ⟨next, tidy⟩
  exact ⟨inv.step next, idle.step inv next tidy⟩

end Idle

def commitsInViewZero : List (ℚ × Action) :=
  [(60, .receiveRequest "(H=1, T=60)" 60), (60, .sendPrePrepare "(H=1, T=60)" "B60" 0 1),
    (60, .receivePrepare 0 1 "(H=1, T=60)" 1 "S1"), (60, .receivePrepare 0 1 "(H=1, T=60)" 2 "S2"),
    (60, .sendCommit "(H=1, T=60)" 0 1 "p0"), (60, .receiveCommit 0 1 "p1" 1 "S1"),
    (60, .receiveCommit 0 1 "p2" 2 "S2")]

/-- The block does not arrive; replica 0 runs through four views and coordinates again. -/
def coordinatesAgain : List (ℚ × Action) :=
  commitsInViewZero ++
    [(60, .roastInit "(H=1, T=60)" 0 1), (1000, .sendViewChange 1), (1000, .sendViewChange 2),
      (1000, .sendViewChange 3), (1000, .sendViewChange 4),
      (1000, .receiveViewChange 4 0 "H0" [⟨1, "(H=1, T=60)", 0⟩]
        [⟨1, "(H=1, T=60)", some "B60", 0⟩] 1 "S1"),
      (1000, .receiveViewChange 4 0 "H0" [⟨1, "(H=1, T=60)", 0⟩]
        [⟨1, "(H=1, T=60)", some "B60", 0⟩] 2 "S2"),
      (1000, .sendNewView [⟨0, "4/0"⟩, ⟨1, "4/1"⟩, ⟨2, "4/2"⟩] [⟨1, "(H=1, T=60)", some "B60"⟩]),
      (1000, .processNewView 0 [⟨0, "4/0"⟩, ⟨1, "4/1"⟩, ⟨2, "4/2"⟩]
        [⟨1, "(H=1, T=60)", some "B60"⟩]),
      (1000, .receivePrepare 4 1 "(H=1, T=60)" 1 "S1"),
      (1000, .receivePrepare 4 1 "(H=1, T=60)" 2 "S2"),
      (1000, .sendCommit "(H=1, T=60)" 4 1 "q0"), (1000, .receiveCommit 4 1 "q1" 1 "S1"),
      (1000, .receiveCommit 4 1 "q2" 2 "S2")]

end Fbft
