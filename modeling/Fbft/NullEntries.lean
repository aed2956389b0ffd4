import Fbft.Uniqueness
import Fbft.Certificates
import Fbft.Chi

/-! The null case of `correct_chi`. A VIEW_CHANGE speaks for the heights above its own
checkpoint only; when Nu mixes checkpoints, a height that only the advanced replicas have
passed is listed by none of them. -/
namespace Fbft

open Database LabelledPath

variable {c : Cluster} {w w' : World} {l : ClusterLabel} {cfg : Config} {i k : ℕ} {s : Replica}
  {msgs : List ViewChange} {m : ViewChange}

/-- Some run of its sender puts the VIEW_CHANGE out. -/
def Emitted (cfg : Config) (m : ViewChange) : Prop :=
  ∃ s now t, Reachable (Initial cfg) (Step cfg m.senderId) s ∧
    Step cfg m.senderId s (now, .sendViewChange m.v) t ∧
    m.message ∈ (Action.sendViewChange m.v).newMessages cfg m.senderId s

/-- No entry is the null one: each has the digest of a request, and its block. -/
def RealEntries (chi : List ChiEntry) : Prop :=
  ∀ e ∈ chi, e.reqDigest ≠ nullDigest ∧ e.data ≠ none

/-- Every number between the lowest checkpoint and the greatest prepared number is listed in
some Pi. A cluster too small to need PREPAREs can lose the block of such an entry, so there
it has to be listed too. -/
def ListsEveryNumber (cfg : Config) (msgs : List ViewChange) : Prop :=
  ∀ n, (∃ m ∈ msgs, m.hi < n) → (∃ p ∈ piEntries msgs, n ≤ p.n) →
    ∃ p ∈ piEntries msgs, p.n = n ∧ (cfg.clusterSize < 4 → companions msgs p ≠ [])

/-- A replica has pre-prepared one digest for each view and number. -/
theorem prePreparedSolutions_digest {x : Node} (journal : Journal cfg i x) {e e' : PiEntry}
    (listed : e ∈ prePreparedSolutions cfg x.state) (listed' : e' ∈ prePreparedSolutions cfg x.state)
    (view : e.v = e'.v) (number : e.n = e'.n) : e.reqDigest = e'.reqDigest := by
  have logged : ∀ e ∈ prePreparedSolutions cfg x.state, x.Logged e.v e.n e.reqDigest := by
    intro e listed
    rcases mem_prePreparedSolutions.mp listed with ⟨q, inside, rfl⟩ | ⟨-, m, inside, entry⟩
    · exact journal.qi q inside
    · exact ⟨m, journal.logged m inside, entry.1, entry.2.1, entry.2.2.1⟩
  obtain ⟨m, inside, viewM, numberM, same⟩ := logged e listed
  obtain ⟨m', inside', viewM', numberM', same'⟩ := logged e' listed'
  rw [← same, ← same']
  exact journal.oneDigest m inside m' inside' (by omega) (by omega)

namespace Emitted

theorem lists (emitted : Emitted cfg m) :
    ∃ x : Node, Journal cfg m.senderId x ∧
      m.pi = (updateViewChangePi cfg x.state).viewChangePi ∧
      m.qi = (updateViewChangeQi cfg x.state).viewChangeQi := by
  obtain ⟨s, now, t, reached, step, message⟩ := emitted
  obtain ⟨x, rfl, journal⟩ := Journal.exists_of_reachable reached
  obtain ⟨c, -, same⟩ := List.mem_map.mp message
  injection same with _ _ _ pi qi
  exact ⟨x, journal, pi.symm, qi.symm⟩

theorem pi_topmost (emitted : Emitted cfg m) (listed : p ∈ m.pi) : topmost m.pi p := by
  obtain ⟨x, journal, pi, -⟩ := emitted.lists
  rw [pi] at listed ⊢
  intro p' listed' number
  obtain ⟨⟨solution, enough⟩, highest⟩ := mem_updateViewChangePi.mp listed
  obtain ⟨⟨solution', enough'⟩, highest'⟩ := mem_updateViewChangePi.mp listed'
  have le := highest p' solution' enough' number
  have ge := highest' p solution enough number.symm
  have view : p'.v = p.v := by omega
  exact Or.inr ⟨view, prePreparedSolutions_digest journal solution' solution view number⟩

/-- Where PREPAREs are needed, Pi and Qi are taken from the log of the same view. -/
theorem pi_companion (emitted : Emitted cfg m) (large : 4 ≤ cfg.clusterSize)
    (listed : p ∈ m.pi) : ∃ q ∈ m.qi, q.n = p.n ∧ q.reqDigest = p.reqDigest ∧ q.v = p.v := by
  obtain ⟨x, journal, pi, qi⟩ := emitted.lists
  rw [pi] at listed
  have certificate := (mem_updateViewChangePi_iff journal.state large).mp listed
  obtain ⟨q, inside, number, digest, -⟩ := updateViewChangeQi_covers journal.state certificate
  have logged := (mem_updateViewChangeQi.mp inside).1
  have view := certificate.1.view journal.state
  have view' := logged.view journal.state
  exact ⟨q, qi ▸ inside, number, digest, view'.trans view.symm⟩

/-- Qi lists requests that the replica knows, with the block that it has logged. -/
theorem qi_real (emitted : Emitted cfg m) (listed : q ∈ m.qi) :
    q.reqDigest ≠ nullDigest ∧ q.data ≠ none := by
  obtain ⟨x, journal, -, qi⟩ := emitted.lists
  rw [qi] at listed
  obtain ⟨⟨⟨r, known, digest⟩, -⟩, -, entry, inside, -, -, same, -, data⟩ :=
    mem_updateViewChangeQi.mp listed
  simp only at digest
  have named : q.reqDigest ≠ nullDigest := by
    rw [← digest]
    exact journal.state.request r known
  exact ⟨named, data ▸ journal.log.bound entry inside (same ▸ named)⟩

end Emitted

theorem local_reachable (reached : Reachable c.Initial c.Step w) (correct : c.Correct k) :
    Reachable (Initial c.cfg) (Step c.cfg k) (w k).state := by
  apply reached.invariant
  · intro w start
    obtain ⟨height, hash, timestamp, fresh⟩ := start k correct
    rw [fresh]
    exact .of_init ⟨height, hash, timestamp, none, rfl⟩
  · rintro w ⟨j, l⟩ w' before step
    by_cases same : k = j
    · subst same
      exact before.extend (.single step.step)
    · rw [step.at_other same]
      exact before

theorem emitted_of_sent (reached : Reachable c.Initial c.Step w) (correct : c.Correct k) :
    ∀ m : ViewChange, m.senderId = k → m.message ∈ (w k).sent → Emitted c.cfg m := by
  have holds : (ClusterInvariant c w ∧ Reachable c.Initial c.Step w) ∧
      ∀ m : ViewChange, m.senderId = k → m.message ∈ (w k).sent → Emitted c.cfg m := by
    apply reached.invariant
    · intro w start
      refine ⟨⟨.initial start, .of_init start⟩, fun m _ said => ?_⟩
      obtain ⟨height, hash, timestamp, fresh⟩ := start k correct
      rw [fresh] at said
      cases said
    · rintro w ⟨j, now, a⟩ w' ⟨⟨inv, before⟩, emitted⟩ step
      refine ⟨⟨inv.step step, before.extend (.single step)⟩, fun m sender said => ?_⟩
      by_cases same : k = j
      · subst same
        rw [step.at_self] at said
        have journal := inv.journal k correct
        rcases journal.mem_sent step.step said with old | new
        · exact emitted m sender old
        · obtain ⟨rfl, -⟩ := Action.putsOut_of_mem new
          subst sender
          exact ⟨_, now, _, local_reachable before correct, step.step, new⟩
      · rw [step.at_other same] at said
        exact emitted m sender said
  exact holds.2

theorem companions_ne_nil (inside : m ∈ msgs) (listed : q ∈ m.qi) (number : q.n = p.n)
    (digest : q.reqDigest = p.reqDigest) (view : q.v = p.v) : companions msgs p ≠ [] :=
  List.ne_nil_of_mem (List.mem_filter.mpr
    ⟨List.mem_flatMap.mpr ⟨m, inside, listed⟩, by simp [number, digest, view]⟩)

/-- Of VIEW_CHANGEs that replicas put out, every listed number gets a real entry. -/
theorem chiEntry_real_iff (emitted : ∀ m ∈ msgs, Emitted cfg m) (n : ℕ) :
    (chiEntry msgs n).reqDigest ≠ nullDigest ∧ (chiEntry msgs n).data ≠ none ↔
      ∃ p ∈ piEntries msgs, p.n = n ∧ (cfg.clusterSize < 4 → companions msgs p ≠ []) := by
  constructor
  · rintro ⟨named, -⟩
    rcases chiEntry_cases msgs n with ⟨m, p, q, first, -⟩ | ⟨null, -⟩
    · obtain ⟨before, after, rfl, -⟩ := first.first
      refine ⟨p, List.mem_flatMap.mpr ⟨m, by simp, first.eligible.listed⟩, first.number,
        fun _ => first.eligible.companion⟩
    · rw [null] at named
      exact absurd rfl named
  · rintro ⟨p, listed, rfl, small⟩
    obtain ⟨m, inside, listed⟩ := List.mem_flatMap.mp listed
    have companion : companions msgs p ≠ [] := by
      by_cases large : 4 ≤ cfg.clusterSize
      · obtain ⟨q, listed', number, digest, view⟩ := (emitted m inside).pi_companion large listed
        exact companions_ne_nil inside listed' number digest view
      · exact small (by omega)
    have offer := exists_firstEligible inside
      ⟨listed, (emitted m inside).pi_topmost listed, companion⟩
    rcases chiEntry_cases msgs p.n with ⟨m', p', q, -, head, same⟩ | ⟨-, none⟩
    · obtain ⟨member, matching⟩ := List.mem_filter.mp (List.mem_of_mem_head? head)
      obtain ⟨m'', inside', listed'⟩ := List.mem_flatMap.mp member
      obtain ⟨-, digest, -⟩ := of_decide_eq_true matching
      rw [same, ← digest]
      exact (emitted m'' inside').qi_real listed'
    · exact absurd offer none

/-- The Chi of a correct primary has no null entry exactly when the Pi of the VIEW_CHANGEs
list every number up to the greatest. -/
theorem realEntries_iff_listsEveryNumber (reached : Reachable c.Initial c.Step w)
    (correct : c.Correct i) (pre : preSendNewView c.cfg nu chi i (w i).state)
    (emitted : ∀ m ∈ nuVset nu (w i).state, m.senderId ∈ c.faulty → Emitted c.cfg m) :
    RealEntries chi ↔ ListsEveryNumber c.cfg (nuVset nu (w i).state) := by
  have inv := ClusterInvariant.reachable reached
  have all : ∀ m ∈ nuVset nu (w i).state, Emitted c.cfg m := by
    intro m inside
    by_cases faulty : m.senderId ∈ c.faulty
    · exact emitted m inside faulty
    · have said := (inv.genuine i correct).viewChange m (mem_nuVset.mp inside).1
      obtain ⟨message, sent, read⟩ := said.sent faulty
      have same : message = m.message := Message.readAs_viewChange read
      exact emitted_of_sent reached ⟨said.1, faulty⟩ m rfl (same ▸ sent)
  obtain ⟨-, range, entry⟩ := correctChi_range pre.2.2.1
  constructor
  · intro real n lower upper
    obtain ⟨e, inside, rfl⟩ := List.mem_map.mp ((range n).mpr ⟨lower, upper⟩)
    exact (chiEntry_real_iff all e.n).mp (entry e inside ▸ real e inside)
  · intro lists e inside
    obtain ⟨lower, upper⟩ := (range e.n).mp (List.mem_map_of_mem inside)
    rw [entry e inside]
    exact (chiEntry_real_iff all e.n).mpr (lists e.n lower upper)

/-- The faulty replica 2 lets replica 1 prepare the first block; the others time out. -/
def levelViewChange : List ClusterLabel :=
  [(0, 60, .receiveRequest "(H=1, T=60)" 60), (0, 60, .sendPrePrepare "(H=1, T=60)" "B60" 0 1),
    (1, 60, .receiveRequest "(H=1, T=60)" 60),
    (1, 60, .receivePrePrepare 0 1 "(H=1, T=60)" "B60" 0 "S0"),
    (1, 60, .sendPrepare "(H=1, T=60)" 0 1), (1, 60, .receivePrepare 0 1 "(H=1, T=60)" 2 "S2"),
    (3, 60, .receiveRequest "(H=1, T=60)" 60), (0, 1000, .sendViewChange 1),
    (1, 1000, .sendViewChange 1), (3, 1000, .sendViewChange 1),
    (1, 1000, .receiveViewChange 1 0 "H0" [] [⟨1, "(H=1, T=60)", some "B60", 0⟩] 0 "S0"),
    (1, 1000, .receiveViewChange 1 0 "H0" [] [] 3 "S3")]

theorem realEntries_levelViewChange : ∃ w,
    fourWithOneFaulty.exec Cluster.Always levelViewChange genesisWorld = some w ∧
    RealEntries [⟨1, "(H=1, T=60)", some "B60"⟩] := by
  have runs : ∃ w, fourWithOneFaulty.exec Cluster.Always levelViewChange genesisWorld = some w ∧
      preSendNewView fourReplicas [⟨0, "1/0"⟩, ⟨1, "1/1"⟩, ⟨3, "1/3"⟩]
        [⟨1, "(H=1, T=60)", some "B60"⟩] 1 (w 1).state ∧
      (∀ m ∈ nuVset [⟨0, "1/0"⟩, ⟨1, "1/1"⟩, ⟨3, "1/3"⟩] (w 1).state, m.senderId ≠ 2) ∧
      (nuVset [⟨0, "1/0"⟩, ⟨1, "1/1"⟩, ⟨3, "1/3"⟩] (w 1).state).map ViewChange.pi =
        [[], [⟨1, "(H=1, T=60)", 0⟩], []] := by
    decide +kernel
  obtain ⟨w, ran, sends, honest, listed⟩ := runs
  refine ⟨w, ran, (realEntries_iff_listsEveryNumber
    (Cluster.exec_reachable (genesisWorld_initial rfl) ran) (i := 1) (by decide) sends
    fun m inside faulty => absurd (Finset.mem_singleton.mp faulty) (honest m inside)).mpr ?_⟩
  have entries : piEntries (nuVset [⟨0, "1/0"⟩, ⟨1, "1/1"⟩, ⟨3, "1/3"⟩] (w 1).state) =
      [⟨1, "(H=1, T=60)", 0⟩] := by
    rw [piEntries, List.flatMap, listed]
    rfl
  rintro n ⟨m, -, lower⟩ ⟨p, inside, upper⟩
  rw [entries, List.mem_singleton] at inside
  subst inside
  have number : 1 = n := by
    simp only at upper
    omega
  exact ⟨_, by rw [entries]; exact List.mem_singleton.mpr rfl, number, fun small =>
    absurd small (by decide)⟩

/-- Replicas 0 and 1 have block 1 and replica 1 prepares block 2; replica 3 has not received
block 1 yet when the three of them time out. -/
def laggingViewChange : List ClusterLabel :=
  [(0, 60, .receiveRequest "(H=1, T=60)" 60), (0, 60, .sendPrePrepare "(H=1, T=60)" "B60" 0 1),
    (0, 60, .receiveBlock 1 60 "H1"), (0, 120, .receiveRequest "(H=2, T=120)" 120),
    (0, 120, .sendPrePrepare "(H=2, T=120)" "B120" 0 2),
    (1, 60, .receiveRequest "(H=1, T=60)" 60), (1, 60, .receiveBlock 1 60 "H1"),
    (1, 120, .receiveRequest "(H=2, T=120)" 120),
    (1, 120, .receivePrePrepare 0 2 "(H=2, T=120)" "B120" 0 "S0"),
    (1, 120, .sendPrepare "(H=2, T=120)" 0 2),
    (1, 120, .receivePrepare 0 2 "(H=2, T=120)" 2 "S2"),
    (3, 60, .receiveRequest "(H=1, T=60)" 60), (0, 1000, .sendViewChange 1),
    (1, 1000, .sendViewChange 1), (3, 1000, .sendViewChange 1),
    (1, 1000, .receiveViewChange 1 1 "H1" [] [⟨2, "(H=2, T=120)", some "B120", 0⟩] 0 "S0"),
    (1, 1000, .receiveViewChange 1 0 "H0" [] [] 3 "S3")]

/-- The VIEW_CHANGEs are those of correct replicas, and the Chi of the primary starts with the
null entry for block 1. -/
theorem realEntries_fails : ∃ w nu chi, Reachable fourWithOneFaulty.Initial fourWithOneFaulty.Step w ∧
    preSendNewView fourReplicas nu chi 1 (w 1).state ∧
    (∀ m ∈ nuVset nu (w 1).state, m.senderId ∉ fourWithOneFaulty.faulty) ∧
    ⟨1, nullDigest, none⟩ ∈ chi ∧ ¬ RealEntries chi := by
  have runs : ∃ w, fourWithOneFaulty.exec Cluster.Always laggingViewChange genesisWorld = some w ∧
      preSendNewView fourReplicas [⟨0, "1/0"⟩, ⟨1, "1/1"⟩, ⟨3, "1/3"⟩]
        [⟨1, nullDigest, none⟩, ⟨2, "(H=2, T=120)", some "B120"⟩] 1 (w 1).state ∧
      ∀ m ∈ nuVset [⟨0, "1/0"⟩, ⟨1, "1/1"⟩, ⟨3, "1/3"⟩] (w 1).state, m.senderId ≠ 2 := by
    decide +kernel
  obtain ⟨w, ran, sends, honest⟩ := runs
  refine ⟨w, _, _, Cluster.exec_reachable (genesisWorld_initial rfl) ran, sends,
    fun m inside faulty => honest m inside (Finset.mem_singleton.mp faulty),
    List.mem_cons_self, fun real => ?_⟩
  exact (real _ List.mem_cons_self).1 rfl

end Fbft
