import Fbft.Process
import Fbft.Seqno

/-! Whether a replica signs only blocks that it has tested or generated. A PRE_PREPARE is
tested before the engine sees it; the blocks of a Chi go from the Qi of a VIEW_CHANGE into the
log without a test. -/
namespace Fbft

open CppString Throwing LabelledPath

variable {Nonce Block : Type} {host : Host Nonce Block} {cfg : Config} {i : ℕ} {now : ℚ}
  {p p' : Process Nonce Block} {e : Effect Nonce Block} {m : PrePrepare} {block : Block}

/-- The replica has generated the block, or its node has accepted it for that height. -/
def Validated (p : Process Nonce Block) (n : ℕ) (block : Block) : Prop :=
  block ∈ p.generated ∨ (n, block) ∈ p.tested

instance [DecidableEq Block] : Decidable (Validated p n block) :=
  inferInstanceAs (Decidable (_ ∨ _))

/-- The block that a logged text stands for, if it stands for one, was validated. -/
def ValidatedText (host : Host Nonce Block) (p : Process Nonce Block) (n : ℕ) (data : Data) : Prop :=
  match data.map host.parse with
  | some (.ok block) => Validated p n block
  | _ => True

instance [DecidableEq Block] : Decidable (ValidatedText host p n data) := by
  unfold ValidatedText
  split <;> infer_instance

/-- Every block in the pre-prepare log was validated. -/
def BlocksValidated (host : Host Nonce Block) (p : Process Nonce Block) : Prop :=
  ∀ m ∈ p.engine.msgLogPrePrepare, ValidatedText host p m.n m.data

/-- The effect hands the block of the logged pre-prepare `m` to `GetSignatureShare`. -/
def SignsBlock (host : Host Nonce Block) (i : ℕ) (p : Process Nonce Block) (m : PrePrepare)
    (block : Block) : Effect Nonce Block → Prop
  | .roastReceivePreSignature _ signers _ _ => i ∈ signers ∧ ∃ active,
      p.engine.roast.active = some active ∧
        findProposedBlock host active.v active.n active.reqDigest p.engine = .ok (m, block)
  | _ => False

/-- The blocks of a Chi that is processed were validated before. -/
def ProcessesValidated (host : Host Nonce Block) (p : Process Nonce Block)
    (l : ℚ × Effect Nonce Block) : Prop :=
  match l.2 with
  | .engine (.processNewView _ _ chi) => ∀ e ∈ chi, ValidatedText host p e.n e.data
  | _ => True

instance [DecidableEq Block] : Decidable (ProcessesValidated host p l) := by
  unfold ProcessesValidated
  split <;> infer_instance

theorem validatedText_iff {n : ℕ} {data : Data} : ValidatedText host p n data ↔
    ∀ text block, data = some text → host.parse text = .ok block → Validated p n block := by
  unfold ValidatedText
  constructor
  · intro validated text block bound parsed
    simpa [bound, parsed] using validated
  · intro validated
    split
    · rename_i block found
      obtain ⟨text, bound, parsed⟩ := Option.map_eq_some_iff.mp found
      exact validated text block bound parsed
    · trivial

theorem Validated.step (validated : Validated p n block)
    (step : ProcessStep host cfg i p (now, e) p') : Validated p' n block := by
  obtain ⟨tested, generated⟩ := step.histories
  rw [Validated, tested, generated]
  exact validated.imp (List.mem_append_right _) (List.mem_append_right _)

theorem findProposedBlock_mem {v n : ℕ} {d : String}
    (found : findProposedBlock host v n d s = .ok (m, block)) :
    m ∈ s.msgLogPrePrepare ∧ m.reqDigest = d ∧
      ∃ text, m.data = some text ∧ host.parse text = .ok block := by
  unfold findProposedBlock at found
  split at found
  · cases found
  rename_i m' located
  split at found
  · cases found
  rename_i text bound
  cases parsed : host.parse text with
  | error e =>
    rw [parsed] at found
    cases found
  | ok block' =>
    rw [parsed] at found
    cases found
    have digest : m.reqDigest = d := by simpa using List.find?_some located
    exact ⟨List.mem_of_find?_eq_some located, digest, text, bound, parsed⟩

namespace BlocksValidated

theorem initial (start : InitialProcess cfg p) : BlocksValidated host p := by
  obtain ⟨height, hash, timestamp, view, fresh⟩ := start.engine
  intro m logged
  rw [fresh] at logged
  cases logged

/-- A text made from a validated block stands for that block. -/
theorem validatedText_getHex (validated : Validated p n block) :
    ValidatedText host p n (some (host.getHex block)) := by
  refine validatedText_iff.mpr fun text block' bound parsed => ?_
  cases bound
  rw [host.parse_getHex] at parsed
  cases parsed
  exact validated

theorem step (validated : BlocksValidated host p) (step : ProcessStep host cfg i p (now, e) p')
    (meets : ProcessesValidated host p (now, e)) : BlocksValidated host p' := by
  have kept : ∀ n data, ValidatedText host p n data → ValidatedText host p' n data :=
    fun n data holds => validatedText_iff.mpr fun text block bound parsed =>
      (validatedText_iff.mp holds text block bound parsed).step step
  obtain ⟨tested, generated⟩ := step.histories
  rcases step.engine_cases with same | ⟨a, calls, next⟩
  · intro m logged
    exact kept _ _ (validated m (same ▸ logged))
  intro m logged
  rcases (next.mem_prePrepare logged).1 with old | new
  · exact kept _ _ (validated m old)
  cases e with
  | engine a' =>
    cases calls
    cases a with
    | processNewView hi nu chi =>
      obtain ⟨entry, inside, rfl⟩ := List.mem_map.mp new
      exact kept _ _ (meets entry inside)
    | sendPrePrepare _ _ _ _ | receivePrePrepare _ _ _ _ _ _ => exact step.pre.1.elim
    | _ => cases new
  | sendPrePrepare d v n block =>
    obtain ⟨block, rfl, rfl⟩ := calls
    cases List.mem_singleton.mp new
    refine validatedText_getHex (Or.inl ?_)
    rw [generated]
    exact List.mem_append_left _ (List.mem_singleton.mpr rfl)
  | receivePrePrepare v n d block sender sig valid =>
    obtain ⟨rfl, rfl⟩ := calls
    cases List.mem_singleton.mp new
    refine validatedText_getHex (Or.inr ?_)
    rw [tested]
    exact List.mem_append_left _ (List.mem_singleton.mpr rfl)
  | sendCommit d v n fresh =>
    cases calls
    cases new
  | roastReceivePreSignature sender signers preSignature fresh =>
    obtain ⟨share, rfl⟩ := calls
    cases new
  | execute d v n =>
    obtain ⟨stateVal, rfl⟩ := calls
    cases new

end BlocksValidated

theorem signsBlock_validated (validated : BlocksValidated host p)
    (signs : SignsBlock host i p m block e) :
    m ∈ p.engine.msgLogPrePrepare ∧ Validated p m.n block := by
  cases e with
  | roastReceivePreSignature sender signers preSignature fresh =>
    obtain ⟨-, active, -, found⟩ := signs
    obtain ⟨logged, -, text, bound, parsed⟩ := findProposedBlock_mem found
    exact ⟨logged, validatedText_iff.mp (validated m logged) text block bound parsed⟩
  | _ => exact signs.elim

theorem blocksValidated_processNewView (inv : Invariant cfg i p.engine)
    (step : ProcessStep host cfg i p (now, .engine (.processNewView hi nu chi)) p') :
    BlocksValidated host p' ↔ ProcessesValidated host p (now, .engine (.processNewView hi nu chi)) := by
  obtain ⟨⟨-, admissible, pre⟩, result, done⟩ := step
  cases done
  have next : Step cfg i p.engine (now, .processNewView hi nu chi)
      (applyProcessNewView cfg hi chi i p.engine) := ⟨admissible, pre, rfl⟩
  have log := next.processNewView_log inv
  constructor
  · intro validated e inside
    refine validated ⟨p.engine.view, e.n, e.reqDigest, e.data, primary cfg p.engine.view,
      sigInNewView⟩ ?_
    rw [log]
    exact List.mem_map.mpr ⟨e, inside, rfl⟩
  · intro validated m logged
    rw [log] at logged
    obtain ⟨e, inside, rfl⟩ := List.mem_map.mp logged
    exact validated e inside

/-- Where the blocks of every processed Chi were validated, so is every block that is logged
and every block that is signed; and a NEW_VIEW that breaks the condition breaks the log. -/
theorem signsValidated (start : InitialProcess cfg p) {labels : List (ℚ × Effect Nonce Block)}
    (run : Path (Guarded (ProcessStep host cfg i) (ProcessesValidated host)) p labels p') :
    BlocksValidated host p' ∧ (∀ e m block, SignsBlock host i p' m block e →
      m ∈ p'.engine.msgLogPrePrepare ∧ Validated p' m.n block) ∧
    ∀ now hi nu chi p'', ProcessStep host cfg i p' (now, .engine (.processNewView hi nu chi)) p'' →
      (BlocksValidated host p'' ↔
        ProcessesValidated host p' (now, .engine (.processNewView hi nu chi))) := by
  have preserved : ∀ q l q', BlocksValidated host q →
      Guarded (ProcessStep host cfg i) (ProcessesValidated host) q l q' → BlocksValidated host q' :=
    fun q l q' holds step => holds.step step.1 step.2
  have validated := run.invariant preserved (BlocksValidated.initial start)
  have inv := Invariant.reachable (ProcessStep.engine_reachable start run.unguard)
  exact ⟨validated, fun e m block signs => signsBlock_validated validated signs,
    fun now hi nu chi p'' step => blocksValidated_processNewView inv step⟩

def signsOwnBlock : List (ℚ × Effect ℕ String) :=
  [(60, .engine (.receiveRequest "(H=1, T=60)" 60)),
    (60, .sendPrePrepare "(H=1, T=60)" 0 1 (some "B60")),
    (60, .engine (.receivePrepare 0 1 "(H=1, T=60)" 1 "S1")),
    (60, .engine (.receivePrepare 0 1 "(H=1, T=60)" 2 "S2")),
    (60, .sendCommit "(H=1, T=60)" 0 1 7),
    (60, .engine (.receiveCommit 0 1 "2::1::1" 1 "S1")),
    (60, .engine (.receiveCommit 0 1 "3::2::2" 2 "S2")),
    (60, .engine (.roastInit "(H=1, T=60)" 0 1))]

theorem signsValidated_signsOwnBlock : ∃ p m,
    execEffects (textHost 0) fourReplicas 0 (ProcessesValidated (textHost 0)) signsOwnBlock
      genesisProcess = some p ∧
    SignsBlock (textHost 0) 0 p m "B60" (.roastReceivePreSignature 0 [0, 1] "1::7::7+2::1::1" 8) ∧
    Validated p m.n "B60" := by
  have runs : ∃ p, execEffects (textHost 0) fourReplicas 0 (ProcessesValidated (textHost 0))
      signsOwnBlock genesisProcess = some p ∧
      p.engine.roast.active = some ⟨0, 1, "(H=1, T=60)"⟩ ∧
      (findProposedBlock (textHost 0) 0 1 "(H=1, T=60)" p.engine).toOption =
        some (⟨0, 1, "(H=1, T=60)", some "B60", 0, sigOwnReplica⟩, "B60") := by
    decide +kernel
  obtain ⟨p, ran, active, found⟩ := runs
  have signs : SignsBlock (textHost 0) 0 p ⟨0, 1, "(H=1, T=60)", some "B60", 0, sigOwnReplica⟩
      "B60" (.roastReceivePreSignature 0 [0, 1] "1::7::7+2::1::1" 8) :=
    ⟨by decide, _, active, eq_ok_of_toOption found⟩
  obtain ⟨-, validated, -⟩ := signsValidated genesisProcess_initial (execEffects_path _ _ _ ran)
  exact ⟨p, _, ran, signs, (validated _ _ _ signs).2⟩

/-- Replica 1 is faulty and the primary of view 1. Its VIEW_CHANGE lists a block that no
primary has proposed, and its NEW_VIEW re-proposes it. -/
def signsForgedBlock : List (ℚ × Effect ℕ String) :=
  [(60, .engine (.receiveRequest "(H=1, T=60)" 60)), (1000, .engine (.sendViewChange 1)),
    (1000, .engine (.receiveViewChange 1 0 "H0" [⟨1, "(H=1, T=60)", 0⟩]
      [⟨1, "(H=1, T=60)", some "EVIL", 0⟩] 1 "S1")),
    (1000, .engine (.receiveViewChange 1 0 "H0" [] [] 2 "S2")),
    (1000, .engine (.receiveNewView 1 [⟨0, "1/0"⟩, ⟨1, "1/1"⟩, ⟨2, "1/2"⟩]
      [⟨1, "(H=1, T=60)", some "EVIL"⟩] 1 "S1")),
    (1000, .engine (.processNewView 0 [⟨0, "1/0"⟩, ⟨1, "1/1"⟩, ⟨2, "1/2"⟩]
      [⟨1, "(H=1, T=60)", some "EVIL"⟩])),
    (1000, .engine (.receivePrepare 1 1 "(H=1, T=60)" 2 "S2")),
    (1000, .sendCommit "(H=1, T=60)" 1 1 7),
    (1000, .engine (.receiveCommit 1 1 "2::1::1" 1 "S1")),
    (1000, .engine (.receiveCommit 1 1 "3::2::2" 2 "S2")),
    (1000, .engine (.roastInit "(H=1, T=60)" 1 1))]

theorem signsForgedBlock_not_validated : ∃ p m e p',
    Reachable (InitialProcess fourReplicas) (ProcessStep (textHost 0) fourReplicas 0) p ∧
    SignsBlock (textHost 0) 0 p m "EVIL" e ∧
    ProcessStep (textHost 0) fourReplicas 0 p (1000, e) p' ∧
    .roastSignatureShare "1::EVIL" "1::8::8" ∈ p'.engine.roast.msgOut ∧
    ¬ Validated p m.n "EVIL" := by
  have runs : ∃ p, execEffects (textHost 0) fourReplicas 0 AlwaysApplies signsForgedBlock
      genesisProcess = some p ∧
      p.engine.roast.active = some ⟨1, 1, "(H=1, T=60)"⟩ ∧
      (findProposedBlock (textHost 0) 1 1 "(H=1, T=60)" p.engine).toOption =
        some (⟨1, 1, "(H=1, T=60)", some "EVIL", 1, sigInNewView⟩, "EVIL") ∧
      ¬ Validated p 1 "EVIL" ∧
      ∃ p', execEffects (textHost 0) fourReplicas 0 AlwaysApplies
        [(1000, .roastReceivePreSignature 1 [0, 1] "1::7::7+2::1::1" 8)] p = some p' ∧
        .roastSignatureShare "1::EVIL" "1::8::8" ∈ p'.engine.roast.msgOut := by
    decide +kernel
  obtain ⟨p, ran, active, found, untested, p', signed, share⟩ := runs
  cases execEffects_path _ _ _ signed with
  | cons step rest =>
    cases rest
    have signs : SignsBlock (textHost 0) 0 p ⟨1, 1, "(H=1, T=60)", some "EVIL", 1, sigInNewView⟩
        "EVIL" (.roastReceivePreSignature 1 [0, 1] "1::7::7+2::1::1" 8) :=
      ⟨by decide, _, active, eq_ok_of_toOption found⟩
    exact ⟨p, _, _, p', ⟨_, _, genesisProcess_initial, (execEffects_path _ _ _ ran).unguard⟩,
      signs, step.1, share, untested⟩

end Fbft
