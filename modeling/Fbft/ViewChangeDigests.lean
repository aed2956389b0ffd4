import Fbft.Dicts
import Fbft.Outgoing

/-! One digest for a VIEW_CHANGE in all its forms: the terms in the log of the sender, the object
built from the fact in the output table, the object read from the wire, and the terms that the
receiver makes of it. Texts hold no NUL, so that a `c_str()` is the whole text. -/
namespace Fbft

open Database LabelledPath Throwing

/-- `digest_view_change`: the hash of the JSON text. -/
def HashesJson (cfg : Config) (sha : String → String) (atomJsonDict : Json → String) : Prop :=
  ∀ v hi c pi qi senderId, cfg.digestViewChange v hi c pi qi senderId =
    sha (atomJsonDict (viewChangeDict v hi c pi qi senderId))

variable {cfg : Config} {i v : ℕ} {now : ℚ} {s t : Replica} {c : Checkpoint}
  {sha : String → String} {atomJsonDict : Json → String}

theorem HashesJson.inj (hashes : HashesJson cfg sha atomJsonDict)
    (collisionFree : Function.Injective sha) (injective : Set.InjOn atomJsonDict {j | j.Written})
    {v hi v' hi' : ℕ} {c c' : String} {pi pi' : List PiEntry} {qi qi' : List QiEntry} {j j' : ℕ}
    (same : cfg.digestViewChange v hi c pi qi j = cfg.digestViewChange v' hi' c' pi' qi' j') :
    v = v' ∧ hi = hi' ∧ c = c' ∧ pi = pi' ∧ qi = qi' ∧ j = j' := by
  rw [hashes, hashes] at same
  exact viewChangeDict_inj (injective (written_viewChangeDict ..) (written_viewChangeDict ..)
    (collisionFree same))

/-- What `apply_SEND_VIEW_CHANGE` leaves in the output table and in the log. -/
structure Emits (cfg : Config) (i v : ℕ) (m : ViewChange) (s t : Replica) : Prop where
  out : t.msgOut = assertzOnce m.message s.msgOut
  logged : m ∈ t.msgLogViewChange
  view : m.v = v
  sender : m.senderId = i
  bound : ∀ q ∈ m.qi, q.data ≠ none

theorem exists_emits (reached : Reachable (Initial cfg) (Step cfg i) s)
    (sends : Step cfg i s (now, .sendViewChange v) t) : ∃ m, Emits cfg i v m s t := by
  obtain ⟨inv, log⟩ := PrePrepareLog.reachable reached
  obtain ⟨c, -, same⟩ := applySendViewChange_spec sends.apply
  refine ⟨ownViewChange cfg v i c s, ?_, ?_, rfl, rfl, log.updateViewChangeQi_bound inv⟩
  · rw [same]
    rfl
  · simp [same, msgLogClearWhereViewLessThan, msgLogAddViewChange, ownViewChange]

/-- The terms of the log, the object, the object from the wire and the terms of every receiver
have the digest of the log. -/
structure OneDigest {Block Bytes : Type} (codec : BlockCodec Block)
    (readJson : Bytes → Except Fault (Option Json)) (writeJson : Json → Bytes) (cfg : Config)
    (m : ViewChange) (t : Replica) : Prop where
  built : ∃ msg, m.message.toBeSent codec m.senderId t = .ok (.viewChange msg) ∧
    msg.digest cfg = m.vcDigest ∧
    ∀ signature, ∃ msg' : Messages.ViewChange,
      ((Incoming.viewChange { msg with signature }).toBinBuffer codec readJson writeJson >>=
        Incoming.buildFromBinBuffer codec readJson) = .ok (some (.viewChange msg')) ∧
      msg'.digest cfg = m.vcDigest ∧
      ∀ k r r', (Action.receiveViewChange msg'.view msg'.hi msg'.c msg'.pi msg'.qiAsTerm
          msg'.senderId msg'.signature).apply cfg k r = some r' →
        { m with senderSig := signature } ∈ r'.msgLogViewChange

theorem Emits.oneDigest {Block Bytes : Type} {codec : BlockCodec Block}
    {readJson : Bytes → Except Fault (Option Json)} {writeJson : Json → Bytes} {m : ViewChange}
    (emits : Emits cfg i v m s t) (digested : Digested cfg t) (numbers : Numbers32 t)
    (roundTrips : RoundTrips readJson writeJson) :
    OneDigest codec readJson writeJson cfg m t := by
  have transcribes := transcribes_ofFact numbers emits.logged emits.bound
  have digest := transcribes.digest digested emits.logged
  set msg := Messages.ViewChange.ofFact m
  refine ⟨msg, rfl, digest, fun signature => ?_⟩
  have fits : (Incoming.viewChange { msg with signature } : Incoming Block).Fits32 :=
    ⟨transcribes.fits.senderId, transcribes.fits.view, transcribes.fits.hi, transcribes.fits.pi,
      transcribes.fits.qi⟩
  refine ⟨{ msg with signature }, Incoming.build_toBinBuffer roundTrips fits, digest, ?_⟩
  intro k r r' applied
  obtain ⟨-, -, -, -, rfl⟩ := applyReceiveViewChange_spec applied
  refine mem_assertzOnce.mpr (Or.inr ?_)
  have entry : (⟨msg.digest cfg, msg.view, msg.hi, msg.c, msg.pi, msg.qiAsTerm, msg.senderId,
      signature⟩ : ViewChange) = { m with senderSig := signature } := by
    rw [digest, transcribes.view, transcribes.hi, transcribes.c, transcribes.pi, transcribes.qi,
      transcribes.senderId]
  exact entry.symm

theorem qiAsTerm_injective {msg msg' : Messages.ViewChange} (same : msg.qiAsTerm = msg'.qiAsTerm) :
    msg.qi = msg'.qi := by
  refine List.map_injective_iff.mpr ?_ same
  rintro ⟨n, reqDigest, prepBlock, v⟩ ⟨n', reqDigest', prepBlock', v'⟩ entries
  cases entries
  rfl

/-- Every VIEW_CHANGE that a reachable replica emits has one digest in all its forms, and no other
VIEW_CHANGE has it. -/
theorem viewChange_one_digest {Block Bytes : Type} (codec : BlockCodec Block)
    {readJson : Bytes → Except Fault (Option Json)} {writeJson : Json → Bytes}
    (hashes : HashesJson cfg sha atomJsonDict) (collisionFree : Function.Injective sha)
    (injective : Set.InjOn atomJsonDict {j | j.Written}) (roundTrips : RoundTrips readJson writeJson)
    (reached : Reachable (Initial cfg) (Step cfg i) s)
    (sends : Step cfg i s (now, .sendViewChange v) t) (numbers : Numbers32 t) :
    ∃ m, Emits cfg i v m s t ∧ OneDigest codec readJson writeJson cfg m t ∧
      (∀ v' hi' c' pi' qi' j', cfg.digestViewChange v' hi' c' pi' qi' j' = m.vcDigest →
        v' = v ∧ hi' = m.hi ∧ c' = m.c ∧ pi' = m.pi ∧ qi' = m.qi ∧ j' = i) ∧
      ∀ msg msg' : Messages.ViewChange, msg.digest cfg = msg'.digest cfg →
        { msg with signature := "" } = { msg' with signature := "" } := by
  have digested := Digested.reachable (reached.extend (.single sends))
  obtain ⟨m, emits⟩ := exists_emits reached sends
  refine ⟨m, emits, emits.oneDigest digested numbers roundTrips, ?_, ?_⟩
  · intro v' hi' c' pi' qi' j' same
    rw [digested m emits.logged] at same
    obtain ⟨rfl, rfl, rfl, rfl, rfl, rfl⟩ := hashes.inj collisionFree injective same
    exact ⟨emits.view, rfl, rfl, rfl, rfl, emits.sender⟩
  · intro msg msg' same
    obtain ⟨view, hi, c, pi, qi, sender⟩ := hashes.inj collisionFree injective same
    rw [view, hi, c, pi, qiAsTerm_injective qi, sender]

/-- A cluster that names a VIEW_CHANGE by its JSON text. -/
def textReplicas : Config where
  clusterSize := 4
  clusterSize_pos := fourReplicas.clusterSize_pos
  targetBlockTime := 60
  digestViewChange := fun v hi c pi qi senderId =>
    String.ofList (viewChangeDict v hi c pi qi senderId).write

def preparesInViewZero : List (ℚ × Action) :=
  [(60, .receiveRequest "(H=1, T=60)" 60),
    (60, .receivePrePrepare 0 1 "(H=1, T=60)" "B60" 0 "S0"), (60, .sendPrepare "(H=1, T=60)" 0 1),
    (60, .receivePrepare 0 1 "(H=1, T=60)" 2 "S2")]

theorem viewChange_one_digest_text : ∃ s t,
    Reachable (Initial textReplicas) (Step textReplicas 1) s ∧
    Step textReplicas 1 s (1000, .sendViewChange 1) t ∧
    ∃ m, Emits textReplicas 1 1 m s t ∧ m.pi = [⟨1, "(H=1, T=60)", 0⟩] ∧
      m.qi = [⟨1, "(H=1, T=60)", some "B60", 0⟩] ∧
      OneDigest hexBlocks (fun j : Json => .ok (some j)) id textReplicas m t ∧
      (∀ v' hi' c' pi' qi' j',
        textReplicas.digestViewChange v' hi' c' pi' qi' j' = m.vcDigest →
        v' = 1 ∧ hi' = m.hi ∧ c' = m.c ∧ pi' = m.pi ∧ qi' = m.qi ∧ j' = 1) ∧
      ∀ msg msg' : Messages.ViewChange, msg.digest textReplicas = msg'.digest textReplicas →
        { msg with signature := "" } = { msg' with signature := "" } := by
  have runs : ∃ s, exec textReplicas 1 Always preparesInViewZero
      (initNotx textReplicas 0 "H0" 0 none) = some s ∧
      ∃ t, exec textReplicas 1 Always [(1000, .sendViewChange 1)] s = some t ∧ Numbers32 t ∧
        ∀ m ∈ t.msgLogViewChange, m.pi = [⟨1, "(H=1, T=60)", 0⟩] ∧
          m.qi = [⟨1, "(H=1, T=60)", some "B60", 0⟩] := by
    decide +kernel
  obtain ⟨s, ran, t, ran', numbers, entries⟩ := runs
  have reached := exec_reachable ⟨0, "H0", 0, none, rfl⟩ ran
  cases exec_path ran' with
  | cons step rest =>
    cases rest
    obtain ⟨m, emits, one⟩ := viewChange_one_digest hexBlocks
      (show HashesJson textReplicas id _ from fun _ _ _ _ _ _ => rfl) Function.injective_id
      Json.write_injOn roundTrips_id reached step.1 numbers
    obtain ⟨pi, qi⟩ := entries m emits.logged
    exact ⟨s, t, reached, step.1, m, emits, pi, qi, one⟩

end Fbft
