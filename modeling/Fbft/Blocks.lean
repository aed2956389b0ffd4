import Fbft.Uniqueness
import Fbft.RoastActive

/-! The block behind a commit certificate. PREPARE and COMMIT name a request and no block,
so the block is the one of the PRE_PREPARE that each replica happens to have logged: it is
the same everywhere when the primary is correct, or keeps to one block although faulty. -/
namespace Fbft

open Database LabelledPath

variable {c : Cluster} {w w' w₀ : World} {l : ClusterLabel} {i j k : ℕ}
  {labels labels' : List ClusterLabel}

/-- What correct replicas have logged for the view, number and digest has this block. -/
def AgreesWithLogs (c : Cluster) (w : World) (v n : ℕ) (d : String) (data : Data) : Prop :=
  ∀ k ∈ Finset.range c.cfg.clusterSize, k ∉ c.faulty →
    ∀ m ∈ (w k).logged, m.v = v → m.n = n → m.reqDigest = d → m.data = data

instance : Decidable (AgreesWithLogs c w v n d data) := inferInstanceAs (Decidable (∀ _ ∈ _, _))

/-- A faulty primary names to all correct replicas one block for a request, a PREPARE is
repeated under the same signature, and RECOVER_VIEW finds ROAST idle. -/
def NamesBlockOnce (c : Cluster) (w : World) (l : ClusterLabel) : Prop :=
  match l.2.2 with
  | .receivePrePrepare v n d data j _ => j ∈ c.faulty → AgreesWithLogs c w v n d (some data)
  | .processNewView _ _ chi => primary c.cfg (w l.1).state.view ∈ c.faulty →
      ∀ e ∈ chi, e.reqDigest ≠ nullDigest →
        AgreesWithLogs c w (w l.1).state.view e.n e.reqDigest e.data
  | .receivePrepare _ _ _ _ _ => RepeatsPrepare (w l.1).state l.2
  | .recoverView _ => (w l.1).state.roast.active = none
  | _ => True

instance : Decidable (NamesBlockOnce c w l) := by
  obtain ⟨i, now, a⟩ := l
  apply a.casesOn (motive := fun a => Decidable (NamesBlockOnce c w (i, now, a))) <;> intros <;>
    dsimp only [NamesBlockOnce] <;> infer_instance

/-- Correct replicas agree on the block of every entry. -/
def OneBlock (c : Cluster) (w : World) : Prop :=
  ∀ k k', c.Correct k → c.Correct k' → ∀ m ∈ (w k).logged, ∀ m' ∈ (w k').logged,
    m.v = m'.v → m.n = m'.n → m.reqDigest = m'.reqDigest → m.reqDigest ≠ nullDigest →
      m.data = m'.data

theorem Proposer.proposes_bound {p : ℕ} {x : Node} (proposer : Proposer cfg p x)
    (proposes : x.Proposes v n d data) (named : d ≠ nullDigest) : data ≠ none := by
  rcases proposes with ⟨block, rfl, -⟩ | ⟨-, nu, chi, said, inside⟩
  · exact Option.some_ne_none block
  · exact (proposer.newView _ _ _ said).2.2.2.1 _ inside named

theorem ClusterInvariant.logged_block (inv : ClusterInvariant c w) (correct : c.Correct k)
    {m : PrePrepare} (logged : m ∈ (w k).logged) (honest : primary c.cfg m.v ∉ c.faulty)
    (proposes : (w (primary c.cfg m.v)).Proposes m.v m.n m.reqDigest data)
    (named : m.reqDigest ≠ nullDigest) : m.data = data := by
  have proposer := inv.proposer _ (ClusterInvariant.correct_primary honest)
  rcases (inv.genuine k correct).prePrepare m logged with faulty | ⟨data', proposes', same⟩
  · exact absurd faulty honest
  · have one := (proposer.oneProposal _ _ _ _ _ _ proposes' proposes).2
    have bound := proposer.proposes_bound proposes' named
    exact (same.resolve_left bound).trans one

theorem oneBlock_of_correct (inv : ClusterInvariant c w) (correct : c.Correct k)
    (correct' : c.Correct k') {m m' : PrePrepare} (logged : m ∈ (w k).logged)
    (logged' : m' ∈ (w k').logged) (view : m.v = m'.v) (number : m.n = m'.n)
    (digest : m.reqDigest = m'.reqDigest) (named : m.reqDigest ≠ nullDigest)
    (honest : primary c.cfg m.v ∉ c.faulty) : m.data = m'.data := by
  obtain ⟨data, proposes⟩ := inv.logged_proposes correct ⟨m, logged, rfl, rfl, rfl⟩ honest
  have first := inv.logged_block correct logged honest proposes named
  rw [view, number, digest] at proposes
  have second := inv.logged_block correct' logged' (view ▸ honest) proposes (digest ▸ named)
  exact first.trans second.symm

theorem new_agrees (names : NamesBlockOnce c w (i, now, a))
    (step : c.Step w (i, now, a) w') {m : PrePrepare}
    (new : m ∈ a.newPrePrepares c.cfg i (w i).state) (faulty : primary c.cfg m.v ∈ c.faulty)
    (named : m.reqDigest ≠ nullDigest) : AgreesWithLogs c w m.v m.n m.reqDigest m.data := by
  have acts := step.step
  cases a with
  | sendPrePrepare d data v n =>
    obtain ⟨-, sender, -, window, -⟩ := acts.pre
    rw [List.mem_singleton.mp new] at faulty
    simp only [window.2, sender] at faulty
    exact absurd faulty step.correct.2
  | receivePrePrepare v n d data j sig =>
    obtain ⟨-, sender, window, -⟩ := applyReceivePrePrepare_spec acts.apply
    rw [List.mem_singleton.mp new] at faulty ⊢
    simp only [window.2, sender] at faulty
    exact names faulty
  | processNewView hi nu chi =>
    obtain ⟨e, inside, rfl⟩ := List.mem_map.mp new
    exact names faulty e inside named
  | _ => cases new

theorem OneBlock.step (one : OneBlock c w) (inv : ClusterInvariant c w)
    (names : NamesBlockOnce c w l) (step : c.Step w l w') : OneBlock c w' := by
  obtain ⟨i, now, a⟩ := l
  have acting : c.Correct i := step.correct
  have inv' := inv.step step
  have cases_logged : ∀ k, c.Correct k → ∀ m ∈ (w' k).logged,
      m ∈ (w k).logged ∨ m ∈ a.newPrePrepares c.cfg i (w i).state := by
    intro k correct m logged
    by_cases same : k = i
    · subst same
      rw [step.at_self] at logged
      exact (inv.journal k acting).mem_logged step.step logged
    · exact Or.inl (step.at_other same ▸ logged)
  have agrees : ∀ k, c.Correct k → ∀ m ∈ (w k).logged,
      ∀ m' ∈ a.newPrePrepares c.cfg i (w i).state, m.v = m'.v → m.n = m'.n →
      m.reqDigest = m'.reqDigest → m.reqDigest ≠ nullDigest → primary c.cfg m.v ∈ c.faulty →
      m.data = m'.data := by
    intro k correct m logged m' new view number digest named faulty
    exact new_agrees names step new (view ▸ faulty) (digest ▸ named) k
      (Finset.mem_range.mpr correct.1) correct.2 m logged view number digest
  intro k k' correct correct' m logged m' logged' view number digest named
  by_cases honest : primary c.cfg m.v ∈ c.faulty
  · rcases cases_logged k correct m logged with old | new
    · rcases cases_logged k' correct' m' logged' with old' | new'
      · exact one k k' correct correct' m old m' old' view number digest named
      · exact agrees k correct m old m' new' view number digest named honest
    · rcases cases_logged k' correct' m' logged' with old' | new'
      · exact (agrees k' correct' m' old' m new view.symm number.symm digest.symm
          (digest ▸ named) (view ▸ honest)).symm
      · rw [Invariant.new_prePrepare_unique step.step new new' number]
  · exact oneBlock_of_correct inv' correct correct' logged logged' view number digest named honest

theorem keepsBlock_of_names (inv : ClusterInvariant c w) (names : NamesBlockOnce c w (i, now, a))
    (step : c.Step w (i, now, a) w') : KeepsBlock (w i).state (now, a) := by
  have acting : c.Correct i := step.correct
  cases a with
  | recoverView v => exact names
  | receivePrePrepare v n d data j sig =>
    intro m inside view number digest
    have logged := (inv.journal i acting).logged m inside
    obtain ⟨-, sender, window, -⟩ := applyReceivePrePrepare_spec step.step.apply
    have proposer : primary c.cfg m.v = j := by rw [view, window.2, sender]
    by_cases faulty : j ∈ c.faulty
    · exact names faulty i (Finset.mem_range.mpr acting.1) acting.2 m logged view number digest
    · obtain ⟨message, said, read⟩ := (step.delivered _ rfl).2.sent faulty
      rw [Message.readAs_prePrepare read] at said
      have proposes : (w j).Proposes m.v m.n m.reqDigest (some data) := by
        rw [view, number, digest]
        exact Or.inl ⟨data, rfl, said⟩
      rcases (inv.genuine i acting).prePrepare m logged with bad | ⟨data', proposes', same⟩
      · exact absurd (proposer ▸ bad) faulty
      · rw [proposer] at proposes'
        have correct : c.Correct j := ⟨proposer ▸ primary_lt c.cfg m.v, faulty⟩
        have one := ((inv.proposer j correct).oneProposal _ _ _ _ _ _ proposes' proposes).2
        rcases same with unbound | same
        · rw [unbound] at one
          cases one
        · exact same.trans one
  | _ => trivial

theorem repeatsPrepare_of_names (names : NamesBlockOnce c w (i, now, a)) :
    RepeatsPrepare (w i).state (now, a) := by
  cases a with
  | receivePrepare v n d j sig => exact names
  | _ => trivial

/-- The block and the certificate behind everything that ROAST may be asked to sign. -/
structure BlockInvariant (c : Cluster) (w : World) : Prop where
  cluster : ClusterInvariant c w
  certifying : ∀ k, c.Correct k → Certifying c w k
  oneBlock : OneBlock c w
  entry : ∀ k, c.Correct k → ActiveEntry (w k).state
  certified : ∀ k, c.Correct k → ∀ x ∈ (w k).state.roast.active,
    c.Certified w x.v x.n x.reqDigest

namespace BlockInvariant

theorem initial (start : c.Initial w) : BlockInvariant c w where
  cluster := ClusterInvariant.initial start
  certifying := fun k correct => Certifying.initial start correct
  oneBlock := by
    intro k k' correct correct' m logged
    obtain ⟨height, hash, timestamp, fresh⟩ := start k correct
    rw [fresh] at logged
    cases logged
  entry := by
    intro k correct
    obtain ⟨height, hash, timestamp, fresh⟩ := start k correct
    rw [fresh]
    exact ActiveEntry.initial ⟨height, hash, timestamp, none, rfl⟩
  certified := by
    intro k correct x running
    obtain ⟨height, hash, timestamp, fresh⟩ := start k correct
    rw [fresh] at running
    cases running

private theorem step_certified (inv : BlockInvariant c w) (step : c.Step w (i, now, a) w') :
    ∀ x ∈ (w' i).state.roast.active, c.Certified w' x.v x.n x.reqDigest := by
  intro x running
  have acting : c.Correct i := step.correct
  apply Cluster.Certified.mono step.grows
  rcases step.step.active_some running with before | rfl
  · exact inv.certified i acting x before
  · obtain ⟨-, certificate, -⟩ := step.step.pre
    exact (inv.certifying i acting).certified inv.cluster acting (committed_iff.mp certificate).1

theorem step (inv : BlockInvariant c w) (names : NamesBlockOnce c w l) (step : c.Step w l w') :
    BlockInvariant c w' := by
  obtain ⟨i, now, a⟩ := l
  have acting : c.Correct i := step.correct
  have state := (inv.cluster.journal i acting).state
  refine ⟨inv.cluster.step step, fun k correct => ?_, inv.oneBlock.step inv.cluster names step,
    fun k correct => ?_, fun k correct => ?_⟩
  · by_cases same : k = i
    · subst same
      exact (inv.certifying k acting).step_self inv.cluster step
        ((inv.certifying k acting).onePrepare.step state step.step (repeatsPrepare_of_names names))
    · exact (inv.certifying k correct).mono step.grows (step.at_other same)
  · by_cases same : k = i
    · subst same
      exact (inv.entry k acting).step state step.step (keepsBlock_of_names inv.cluster names step)
    · rw [step.at_other same]
      exact inv.entry k correct
  · by_cases same : k = i
    · subst same
      exact inv.step_certified step
    · rw [step.at_other same]
      exact fun x running => (inv.certified k correct x running).mono step.grows

theorem run (inv : BlockInvariant c w)
    (run : Path (Guarded c.Step (NamesBlockOnce c)) w labels w') : BlockInvariant c w' :=
  run.invariant (fun _ _ _ inv next => inv.step next.2 next.1) inv

theorem lookup (inv : BlockInvariant c w) (correct : c.Correct k) {m : PrePrepare}
    (inside : m ∈ (w k).state.msgLogPrePrepare)
    (window : m.n = lowWatermark (w k).state + 1) (named : m.reqDigest ≠ nullDigest) :
    ∃ block, (findByVNReq m.v m.n m.reqDigest (w k).state).map PrePrepare.data = some (some block) ∧
      m.data = some block := by
  have journal := inv.cluster.journal k correct
  obtain ⟨block, ⟨-, -⟩, one, m', found, -, -, data⟩ :=
    namesOneBlock_of_entry journal.state journal.log (inv.entry k correct) inside window named
  exact ⟨block, by rw [found, Option.map_some, data], one m inside rfl rfl rfl⟩

/-- Two correct replicas, one of them maybe later, look one proposal up and find one block. -/
theorem sameBlock (inv : BlockInvariant c w) (inv' : BlockInvariant c w') (grows : Grows w w')
    (correct : c.Correct i) (correct' : c.Correct j) {m m' : PrePrepare}
    (inside : m ∈ (w i).state.msgLogPrePrepare) (inside' : m' ∈ (w' j).state.msgLogPrePrepare)
    (view : m.v = m'.v) (number : m.n = m'.n) (digest : m.reqDigest = m'.reqDigest)
    (named : m.reqDigest ≠ nullDigest) (window : m.n = lowWatermark (w i).state + 1)
    (window' : m'.n = lowWatermark (w' j).state + 1) :
    ∃ block,
      (findByVNReq m.v m.n m.reqDigest (w i).state).map PrePrepare.data = some (some block) ∧
      (findByVNReq m.v m.n m.reqDigest (w' j).state).map PrePrepare.data = some (some block) := by
  have logged := (inv.cluster.journal i correct).logged m inside
  have logged' := (inv'.cluster.journal j correct').logged m' inside'
  obtain ⟨block, found, data⟩ := inv.lookup correct inside window named
  obtain ⟨block', found', data'⟩ := inv'.lookup correct' inside' window' (digest ▸ named)
  have one := inv'.oneBlock i j correct correct' m (grows.logged i m logged) m' logged' view number
    digest named
  rw [data, data'] at one
  cases one
  rw [view, number, digest] at found ⊢
  exact ⟨block, found, found'⟩

end BlockInvariant

/-- Two correct replicas that hold a commit certificate for the same request, view and number
sign the same block, and so do two that run ROAST in one view at one height. -/
theorem signedBlock_unique (start : c.Initial w₀)
    (before : Path (Guarded c.Step (NamesBlockOnce c)) w₀ labels w)
    (after : Path (Guarded c.Step (NamesBlockOnce c)) w labels' w')
    (correct : c.Correct i) (correct' : c.Correct j) :
    (∀ d v n, committed c.cfg d v n (w i).state → committed c.cfg d v n (w' j).state →
      ∃ block,
        (findByVNReq v n d (w i).state).map PrePrepare.data = some (some block) ∧
        (findByVNReq v n d (w' j).state).map PrePrepare.data = some (some block)) ∧
    ∀ x ∈ (w i).state.roast.active, ∀ x' ∈ (w' j).state.roast.active, x.v = x'.v → x.n = x'.n →
      ∃ block, blockToSign (w i).state = some (some block) ∧
        blockToSign (w' j).state = some (some block) := by
  have inv := (BlockInvariant.initial start).run before
  have inv' := inv.run after
  have grows := Grows.path after.unguard
  have journal := inv.cluster.journal i correct
  have journal' := inv'.cluster.journal j correct'
  constructor
  · intro d v n certificate certificate'
    obtain ⟨-, number, logged, -⟩ := committed_logged journal.state certificate
    obtain ⟨-, number', logged', -⟩ := committed_logged journal'.state certificate'
    have named := logged.named journal.state
    obtain ⟨-, m, inside, rfl, rfl, rfl, -⟩ := logged
    obtain ⟨-, m', inside', view, seq, digest, -⟩ := logged'
    exact inv.sameBlock inv' grows correct correct' inside inside' view.symm seq.symm digest.symm
      named number (seq.trans number')
  · intro x running x' running' view number
    obtain ⟨-, height, named, m, inside, viewM, seq, digest⟩ :=
      (inv.entry i correct).current x running
    obtain ⟨-, height', -, m', inside', viewM', seq', digest'⟩ :=
      (inv'.entry j correct').current x' running'
    have certified := (inv.certified i correct x running).mono grows
    rw [view, number] at certified
    have one := inv'.cluster.certified_unique certified (inv'.certified j correct' x' running')
    obtain ⟨block, found, found'⟩ := inv.sameBlock inv' grows correct correct' inside inside'
      (by omega) (by omega) (by rw [digest, digest', one]) (digest ▸ named) (seq.trans height)
      (seq'.trans height')
    rw [viewM, seq, digest] at found found'
    refine ⟨block, ?_, ?_⟩
    · rw [blockToSign, Option.mem_def.mp running]
      exact found
    · rw [blockToSign, Option.mem_def.mp running', Option.bind_some, ← view, ← number, ← one]
      exact found'

def commitsBoth : List ClusterLabel :=
  commitsFirst ++
    [(0, 60, .receiveCommit 0 1 "p1" 1 "S1"), (0, 60, .receiveCommit 0 1 "p2" 2 "S2"),
      (0, 60, .roastInit "(H=1, T=60)" 0 1), (1, 60, .roastInit "(H=1, T=60)" 0 1)]

theorem signedBlock_unique_commitsBoth : ∃ w,
    fourWithOneFaulty.exec (NamesBlockOnce fourWithOneFaulty) commitsBoth genesisWorld = some w ∧
    (∃ block,
      (findByVNReq 0 1 "(H=1, T=60)" (w 0).state).map PrePrepare.data = some (some block) ∧
      (findByVNReq 0 1 "(H=1, T=60)" (w 1).state).map PrePrepare.data = some (some block)) ∧
    ∃ block, blockToSign (w 0).state = some (some block) ∧
      blockToSign (w 1).state = some (some block) := by
  have runs : ∃ w,
      fourWithOneFaulty.exec (NamesBlockOnce fourWithOneFaulty) commitsBoth genesisWorld = some w ∧
      committed fourReplicas "(H=1, T=60)" 0 1 (w 0).state ∧
      committed fourReplicas "(H=1, T=60)" 0 1 (w 1).state ∧
      (w 0).state.roast.active = some ⟨0, 1, "(H=1, T=60)"⟩ ∧
      (w 1).state.roast.active = some ⟨0, 1, "(H=1, T=60)"⟩ := by
    decide +kernel
  obtain ⟨w, ran, certificate, certificate', running, running'⟩ := runs
  obtain ⟨first, second⟩ := signedBlock_unique (i := 0) (j := 1) (genesisWorld_initial rfl)
    (Cluster.exec_path ran) .nil (by decide) (by decide)
  exact ⟨w, ran, first _ _ _ certificate certificate', second _ running _ running' rfl rfl⟩

def twoBlocks : List ClusterLabel :=
  [(1, 60, .receiveRequest "(H=1, T=60)" 60), (2, 60, .receiveRequest "(H=1, T=60)" 60),
    (1, 60, .receivePrePrepare 0 1 "(H=1, T=60)" "B60" 0 "S0"),
    (2, 60, .receivePrePrepare 0 1 "(H=1, T=60)" "B61" 0 "S0"),
    (1, 60, .sendPrepare "(H=1, T=60)" 0 1), (2, 60, .sendPrepare "(H=1, T=60)" 0 1),
    (1, 60, .receivePrepare 0 1 "(H=1, T=60)" 2 "S2"),
    (2, 60, .receivePrepare 0 1 "(H=1, T=60)" 1 "S1"),
    (1, 60, .sendCommit "(H=1, T=60)" 0 1 "p1"), (2, 60, .sendCommit "(H=1, T=60)" 0 1 "p2"),
    (1, 60, .receiveCommit 0 1 "p0" 0 "S0"), (1, 60, .receiveCommit 0 1 "p2" 2 "S2"),
    (2, 60, .receiveCommit 0 1 "p0" 0 "S0"), (2, 60, .receiveCommit 0 1 "p1" 1 "S1"),
    (1, 60, .roastInit "(H=1, T=60)" 0 1), (2, 60, .roastInit "(H=1, T=60)" 0 1)]

/-- Both hold the commit certificate, and each will sign its own block. -/
theorem signedBlock_differs : ∃ w,
    Reachable fourWithFaultyPrimary.Initial fourWithFaultyPrimary.Step w ∧
    fourWithFaultyPrimary.Correct 1 ∧ fourWithFaultyPrimary.Correct 2 ∧
    committed fourReplicas "(H=1, T=60)" 0 1 (w 1).state ∧
    committed fourReplicas "(H=1, T=60)" 0 1 (w 2).state ∧
    (findByVNReq 0 1 "(H=1, T=60)" (w 1).state).map PrePrepare.data = some (some "B60") ∧
    (findByVNReq 0 1 "(H=1, T=60)" (w 2).state).map PrePrepare.data = some (some "B61") ∧
    (w 1).state.roast.active = some ⟨0, 1, "(H=1, T=60)"⟩ ∧
    (w 2).state.roast.active = some ⟨0, 1, "(H=1, T=60)"⟩ ∧
    blockToSign (w 1).state = some (some "B60") ∧
    blockToSign (w 2).state = some (some "B61") := by
  have runs : ∃ w, fourWithFaultyPrimary.exec Cluster.Always twoBlocks genesisWorld = some w ∧
      committed fourReplicas "(H=1, T=60)" 0 1 (w 1).state ∧
      committed fourReplicas "(H=1, T=60)" 0 1 (w 2).state ∧
      (findByVNReq 0 1 "(H=1, T=60)" (w 1).state).map PrePrepare.data = some (some "B60") ∧
      (findByVNReq 0 1 "(H=1, T=60)" (w 2).state).map PrePrepare.data = some (some "B61") ∧
      (w 1).state.roast.active = some ⟨0, 1, "(H=1, T=60)"⟩ ∧
      (w 2).state.roast.active = some ⟨0, 1, "(H=1, T=60)"⟩ ∧
      blockToSign (w 1).state = some (some "B60") ∧
      blockToSign (w 2).state = some (some "B61") := by
    decide +kernel
  obtain ⟨w, ran, both⟩ := runs
  exact ⟨w, Cluster.exec_reachable (genesisWorld_initial rfl) ran, by decide, by decide, both⟩

end Fbft
