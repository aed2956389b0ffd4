import Fbft.Quiescence
import Fbft.ViewChangeDigests

/-! What a signature is for. The digest of a message is the hash of one JSON text for each kind of
message, so it tells what the receiver hands to the engine, and the check of the wallet is the
delivery that the cluster assumes. -/
namespace Fbft

open CppString Throwing

section

variable {Block : Type} (network : Network Block) (cfg : Config)

/-- The log of the engine names a VIEW_CHANGE by the hash of the JSON text of its dict. -/
def HashesViewChanges : Prop :=
  ∀ m : Messages.ViewChange, m.digest cfg = network.sha (network.atomJsonDict
    (((Incoming.viewChange m).terms network cfg).dict m.senderId))

end

variable {Block : Type} {network : Network Block} {cfg : Config} {msg msg' : Incoming Block}

theorem HashesViewChanges.digest_eq (hashes : HashesViewChanges network cfg)
    (msg : Incoming Block) : msg.digest network cfg =
      network.sha (network.atomJsonDict ((msg.terms network cfg).dict msg.senderId)) := by
  cases msg with
  | viewChange m => exact hashes m
  | commit | newView | prepare | prePrepare | roastPreSignature | roastSignatureShare => rfl

theorem HashesViewChanges.inj (hashes : HashesViewChanges network cfg)
    (collisionFree : Function.Injective network.sha)
    (injective : Set.InjOn network.atomJsonDict {j | j.Written})
    (same : msg.digest network cfg = msg'.digest network cfg) :
    (msg.terms network cfg).dict msg.senderId = (msg'.terms network cfg).dict msg'.senderId := by
  rw [hashes.digest_eq, hashes.digest_eq] at same
  exact injective (Message.written_dict ..) (Message.written_dict ..) (collisionFree same)

/-- Two messages have one digest where they hand the same terms to the engine and, unless they
are PRE_PREPAREs or NEW_VIEWs, come from one sender. -/
theorem digest_eq_iff (hashes : HashesViewChanges network cfg)
    (collisionFree : Function.Injective network.sha)
    (injective : Set.InjOn network.atomJsonDict {j | j.Written}) :
    msg.digest network cfg = msg'.digest network cfg ↔
      msg.terms network cfg = msg'.terms network cfg ∧
        ((msg.terms network cfg).namesSender → msg.senderId = msg'.senderId) := by
  rw [← Message.dict_inj]
  constructor
  · exact hashes.inj collisionFree injective
  · intro same
    rw [hashes.digest_eq, hashes.digest_eq, same]

/-- A cluster in which every digest is the JSON text itself. -/
def writtenReplicas : Config where
  clusterSize := 4
  clusterSize_pos := fourReplicas.clusterSize_pos
  targetBlockTime := 60
  digestViewChange := fun v hi c pi qi senderId => String.ofList
    (viewChangeDict v hi (cStr c) (pi.map PiEntry.cStr) (qi.map QiEntry.cStr) senderId).write

/-- The node takes the signatures of the digests that were signed. -/
def writtenNetwork (signed : List (ℕ × String)) : Network String where
  parse text := .ok text
  getHex block := block
  parse_getHex := parse_text
  readJson _ := .ok none
  sha := id
  atomJsonDict j := String.ofList j.write
  genesisBlockTimestamp := 0
  p2pkh := Nat.repr
  verifymessage address sig text := .ok (signed.any fun x =>
    Nat.repr x.1 = address ∧ sig = "S" ++ address ∧ x.2 = text)

theorem writtenNetwork_hashes (signed : List (ℕ × String)) :
    HashesViewChanges (writtenNetwork signed) writtenReplicas :=
  fun _ => rfl

theorem writtenNetwork_collisionFree (signed : List (ℕ × String)) :
    Function.Injective (writtenNetwork signed).sha :=
  Function.injective_id

theorem writtenNetwork_injective (signed : List (ℕ × String)) :
    Set.InjOn (writtenNetwork signed).atomJsonDict {j | j.Written} :=
  Json.write_injOn

theorem digest_eq_iff_written :
    (Incoming.commit ⟨1, "S1", 0, 1, "p1"⟩).digest (writtenNetwork []) writtenReplicas =
      (Incoming.commit ⟨1, "", 0, 1, "p1"⟩).digest (writtenNetwork []) writtenReplicas ∧
    (Incoming.commit ⟨1, "S1", 0, 1, "p1"⟩).digest (writtenNetwork []) writtenReplicas ≠
      (Incoming.prepare ⟨1, "S1", 0, 1, "p1"⟩).digest (writtenNetwork []) writtenReplicas := by
  constructor
  · exact (digest_eq_iff (writtenNetwork_hashes []) (writtenNetwork_collisionFree [])
      (writtenNetwork_injective [])).mpr ⟨rfl, fun _ => rfl⟩
  · intro same
    cases ((digest_eq_iff (writtenNetwork_hashes []) (writtenNetwork_collisionFree [])
      (writtenNetwork_injective [])).mp same).1

variable {c : Cluster} {w : World} {a : Action}

/-- The signature check of the cluster is the one that the wallet makes. -/
def VerifiesDigests (network : Network Block) (c : Cluster) : Prop :=
  ∀ j m sig, c.verify j m sig = true ↔ network.verifymessage (network.p2pkh j) sig
    (network.sha (network.atomJsonDict (m.dict j))) = .ok true

/-- Nobody else signs for a correct replica: what verifies with its key is the digest of a
message that it has built from what its engine has put out. -/
def Unforgeable (network : Network Block) (c : Cluster) (w : World) : Prop :=
  ∀ j, c.Correct j → ∀ sig text,
    network.verifymessage (network.p2pkh j) sig text = .ok true → ∃ built : Incoming Block,
      built.senderId = j ∧ built.digest network c.cfg = text ∧
      (((built.terms network c.cfg).arrival j sig).isSome →
        ∃ said ∈ (w j).sent, said.readAs (built.terms network c.cfg))

theorem Message.received_of_arrival {m : Message} {j : ℕ} {sig : String}
    (arrives : m.arrival j sig = some a) : a.received = some (j, m, sig) := by
  cases m <;> cases arrives <;> rfl

theorem verifySignatures_eq_ok_iff : msg.verifySignatures network cfg = .ok true ↔
    msg.senderId < cfg.clusterSize ∧ network.verifymessage (network.p2pkh msg.senderId)
      msg.signature (msg.digest network cfg) = .ok true := by
  unfold Incoming.verifySignatures
  split
  · rename_i member
    simp [Incoming.answer, member]
  · rename_i outside
    simp [outside]

/-- Each message whose signature the wallet accepts is delivered to the engine as the cluster
assumes it: the signature is valid and its sender has said it. -/
theorem delivered_of_verified (hashes : HashesViewChanges network c.cfg)
    (collisionFree : Function.Injective network.sha)
    (injective : Set.InjOn network.atomJsonDict {j | j.Written})
    (verifies : VerifiesDigests network c) (unforgeable : Unforgeable network c w)
    (verified : msg.verifySignatures network c.cfg = .ok true)
    (arrives : (msg.terms network c.cfg).arrival msg.senderId msg.signature = some a) :
    c.Delivered w a := by
  obtain ⟨member, accepted⟩ := verifySignatures_eq_ok_iff.mp verified
  intro x received
  rw [Message.received_of_arrival arrives] at received
  cases received
  refine ⟨(verifies _ _ _).mpr (hashes.digest_eq msg ▸ accepted), member, ?_⟩
  by_cases faulty : msg.senderId ∈ c.faulty
  · exact Or.inl faulty
  obtain ⟨built, sender, digest, origin⟩ := unforgeable _ ⟨member, faulty⟩ _ _ accepted
  obtain ⟨same, -⟩ := Message.dict_inj.mp (hashes.inj collisionFree injective digest)
  rw [same, arrives] at origin
  exact Or.inr (origin rfl)

def signedTexts : List (ℕ × String) :=
  [(0, String.ofList ((Message.prePrepare 0 1 "(H=1, T=60)" "B60").dict 0).write),
    (1, String.ofList ((Message.prepare 0 1 "(H=1, T=60)").dict 1).write)]

def writtenCluster : Cluster where
  cfg := writtenReplicas
  faulty := {2}
  verify := fun j m sig => signedTexts.any fun x => Nat.repr x.1 = Nat.repr j ∧
    sig = "S" ++ Nat.repr j ∧ x.2 = String.ofList (m.dict j).write
  members := by decide
  size := by decide
  few := by decide

def preparesProposal : List ClusterLabel :=
  [(0, 60, .receiveRequest "(H=1, T=60)" 60), (1, 60, .receiveRequest "(H=1, T=60)" 60),
    (0, 60, .sendPrePrepare "(H=1, T=60)" "B60" 0 1),
    (1, 60, .receivePrePrepare 0 1 "(H=1, T=60)" "B60" 0 "S0"),
    (1, 60, .sendPrepare "(H=1, T=60)" 0 1)]

theorem writtenCluster_correct {j : ℕ} (correct : writtenCluster.Correct j) : j ∈ [0, 1, 3] := by
  obtain ⟨member, honest⟩ := correct
  have below : j < 4 := member
  exact fourWithOneFaulty_correct ⟨below, honest⟩

theorem delivered_of_verified_preparesProposal : ∃ w,
    writtenCluster.exec Cluster.Always preparesProposal
      (fun _ => ⟨initNotx writtenReplicas 0 "H0" 0 none, [], []⟩) = some w ∧
    writtenCluster.Delivered w (.receivePrepare 0 1 "(H=1, T=60)" 1 "S1") := by
  have runs : ∃ w, writtenCluster.exec Cluster.Always preparesProposal
      (fun _ => ⟨initNotx writtenReplicas 0 "H0" 0 none, [], []⟩) = some w ∧
      .prePrepare 0 1 "(H=1, T=60)" "B60" ∈ (w 0).sent ∧
      .prepare 0 1 "(H=1, T=60)" ∈ (w 1).sent := by
    decide +kernel
  obtain ⟨w, ran, proposed, prepared⟩ := runs
  have verified : (Incoming.prepare ⟨1, "S1", 0, 1, "(H=1, T=60)"⟩).verifySignatures
      (writtenNetwork signedTexts) writtenReplicas = .ok true := by
    decide +kernel
  have arrives : ((Incoming.prepare ⟨1, "S1", 0, 1, "(H=1, T=60)"⟩).terms
      (writtenNetwork signedTexts) writtenReplicas).arrival 1 "S1" =
        some (.receivePrepare 0 1 "(H=1, T=60)" 1 "S1") := by
    decide +kernel
  refine ⟨w, ran, delivered_of_verified (writtenNetwork_hashes signedTexts)
    (writtenNetwork_collisionFree _) (writtenNetwork_injective _) ?_ ?_ verified arrives⟩
  · intro j m sig
    exact ⟨fun valid => congrArg Except.ok valid, Except.ok.inj⟩
  · intro j correct sig text accepted
    obtain ⟨x, inside, same⟩ := List.any_eq_true.mp (Except.ok.inj accepted)
    obtain ⟨address, -, rfl⟩ := of_decide_eq_true same
    have member : j ∈ [0, 1, 3] := writtenCluster_correct correct
    have unique : ∀ k ∈ [0, 1], ∀ j ∈ [0, 1, 3], Nat.repr k = Nat.repr j → k = j := by decide
    simp only [signedTexts, List.mem_cons, List.not_mem_nil, or_false] at inside
    rcases inside with rfl | rfl
    · obtain rfl := unique 0 (by decide) j member address
      exact ⟨.prePrepare ⟨0, "", 0, 1, "(H=1, T=60)", "B60"⟩, rfl, rfl, fun _ => ⟨_, proposed, rfl⟩⟩
    · obtain rfl := unique 1 (by decide) j member address
      exact ⟨.prepare ⟨1, "", 0, 1, "(H=1, T=60)"⟩, rfl, rfl, fun _ => ⟨_, prepared, rfl⟩⟩

end Fbft
