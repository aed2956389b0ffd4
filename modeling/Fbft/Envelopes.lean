import Fbft.Broadcast
import Fbft.Digests
import Fbft.Provenance

/-! What a message says on its way from one engine to another. The constructor cuts the numbers to
32 bits, and `c_str()` cuts the texts; where neither cuts, and the block of each entry of Chi is as
it is written, the receiver hands to its engine what the sender has put out. -/
namespace Fbft

open CppString Database LabelledPath Throwing

/-- A text that `c_str()` leaves whole. -/
def Whole (text : String) : Prop := nul ∉ text.toList

instance (text : String) : Decidable (Whole text) := inferInstanceAs (Decidable (¬ _))

theorem Whole.cStr {text : String} (whole : Whole text) : cStr text = text := by
  have all : text.toList.takeWhile (· ≠ nul) = text.toList :=
    List.takeWhile_eq_self_iff.mpr fun c inside => by
      rw [decide_eq_true_eq]
      rintro rfl
      exact whole inside
  rw [CppString.cStr, all, String.ofList_toList]

theorem whole_repr (k : ℕ) : Whole (Nat.repr k) := by
  intro inside
  rw [Nat.repr, String.toList_ofList] at inside
  have digit := Nat.isDigit_of_mem_toDigits (by decide) (by decide) inside
  revert digit
  decide

/-- The numbers of the message have 32 bits, and its Qi has the blocks. -/
def Message.Fits32 : Message → Prop
  | prePrepare v n _ _ | prepare v n _ | commit v n _ => v < 2 ^ 32 ∧ n < 2 ^ 32
  | viewChange v hi _ pi qi => v < 2 ^ 32 ∧ hi < 2 ^ 32 ∧
    (∀ e ∈ pi, e.n < 2 ^ 32 ∧ e.v < 2 ^ 32) ∧ (∀ e ∈ qi, e.n < 2 ^ 32 ∧ e.v < 2 ^ 32) ∧
    ∀ e ∈ qi, e.data ≠ none
  | newView v nu chi => v < 2 ^ 32 ∧ (∀ e ∈ nu, e.j < 2 ^ 32) ∧ ∀ e ∈ chi, e.n < 2 ^ 32
  | roastPreSignature .. | roastSignatureShare .. => True

section

variable {Block : Type} (codec : BlockCodec Block) (cfg : Config)

/-- What `effect()` hands to the engine. -/
def Incoming.handed : Incoming Block → Message
  | commit m => .commit m.view m.seqNumber m.preSignature
  | newView m => .newView m.view (m.nu cfg) (m.chi codec)
  | prepare m => .prepare m.view m.seqNumber m.reqDigest
  | prePrepare m => .prePrepare m.view m.seqNumber m.reqDigest (codec.getHex m.proposedBlock)
  | roastPreSignature m => .roastPreSignature m.signers m.preSignature
  | roastSignatureShare m => .roastSignatureShare m.signatureShare m.nextPreSignatureShare
  | viewChange m => .viewChange m.view m.hi m.c m.pi m.qiAsTerm

/-- Whole digests and hashes, and blocks as they are written. -/
abbrev Message.Plain (m : Message) : Prop := m.Carries Whole (Canonical codec)

/-- The call of the engine that a message leads to is always active, and takes the message from
the network as it is handed over. ROAST messages are no messages of the agreement protocol. -/
structure Receives (msg : Incoming Block) (a : Action) : Prop where
  admissible : ∀ s, a.admissible s
  pre : ∀ i now s, a.pre cfg i now s
  received : ∀ x ∈ a.received, (msg.handed codec cfg).isRoast = false ∧
    x = (msg.senderId, msg.handed codec cfg, msg.signature)
  brings : (msg.handed codec cfg).Plain codec → a.Brings Whole (Canonical codec)

end

variable {Block Nonce : Type} {network : Network Block} {cfg : Config} {i : ℕ} {s t : Replica}
  {msg : Incoming Block} {fact : Message} {a : Action} {now : ℚ}

theorem Incoming.terms_eq_handed (wholeHex : ∀ block, Whole (network.getHex block))
    (agreement : (msg.handed network.toBlockCodec cfg).isRoast = false)
    (plain : (msg.handed network.toBlockCodec cfg).Plain network.toBlockCodec) :
    msg.terms network cfg = msg.handed network.toBlockCodec cfg := by
  have map_self {α : Type} {f : α → α} {l : List α} (same : ∀ e ∈ l, f e = e) : l.map f = l :=
    (List.map_congr_left same).trans (List.map_id l)
  cases msg with
  | commit m => exact congrArg (Message.commit _ _) (Whole.cStr plain)
  | prepare m => exact congrArg (Message.prepare _ _) (Whole.cStr plain)
  | prePrepare m =>
    exact congrArg (fun d => Message.prePrepare _ _ d _) (Whole.cStr plain.1)
  | viewChange m =>
    obtain ⟨c, pi, qi⟩ := plain
    have samePi : m.pi.map PiEntry.cStr = m.pi :=
      map_self fun e inside => congrArg (fun d => { e with reqDigest := d }) (pi e inside).cStr
    have sameQi : m.qiAsTerm.map QiEntry.cStr = m.qiAsTerm := by
      refine map_self fun e inside => ?_
      obtain ⟨digest, written⟩ := qi e inside
      have data : e.data.map CppString.cStr = e.data := by
        cases bound : e.data with
        | none => rfl
        | some text =>
          obtain ⟨block, rfl⟩ := written text bound
          exact congrArg some (wholeHex block).cStr
      rw [QiEntry.cStr, digest.cStr, data]
    simp only [terms, handed, c.cStr, samePi, sameQi]
  | newView m =>
    have sameChi : (m.chi network.toBlockCodec).map ChiEntry.cStr = m.chi network.toBlockCodec :=
      map_self fun e inside =>
        congrArg (fun d => { e with reqDigest := d }) (plain e inside).1.cStr
    simp only [terms, handed, sameChi]
  | roastPreSignature m => cases agreement
  | roastSignatureShare m => cases agreement

theorem Incoming.receives {host : Host Nonce Block} {valid : Bool} {fresh : Nonce}
    (calls : (msg.receiveAction host.toBlockCodec cfg valid fresh).Calls host a) :
    Receives host.toBlockCodec cfg msg a := by
  cases msg with
  | commit m | prepare m =>
    cases calls
    refine ⟨fun _ => trivial, fun _ _ _ => trivial, ?_, fun plain => ?_⟩ <;> rintro _ ⟨⟩
    · exact ⟨rfl, rfl⟩
    · exact plain
  | prePrepare m =>
    obtain ⟨-, rfl⟩ := calls
    refine ⟨fun _ => trivial, fun _ _ _ => trivial, ?_, fun plain => ?_⟩ <;> rintro _ ⟨⟩
    · exact ⟨rfl, rfl⟩
    · exact plain
  | viewChange m =>
    cases calls
    refine ⟨fun _ => ?_, fun _ _ _ => trivial, ?_, fun plain => ?_⟩
    · exact List.forall_mem_map.mpr fun q _ => Option.some_ne_none q.prepBlock
    · rintro _ ⟨⟩
      exact ⟨rfl, rfl⟩
    · rintro _ ⟨⟩
      exact plain
  | newView m =>
    cases calls
    refine ⟨fun _ => ?_, fun _ _ _ => trivial, ?_, fun plain => ?_⟩
    · exact List.forall_mem_map.mpr fun ppp _ => Option.some_ne_none _
    · rintro _ ⟨⟩
      exact ⟨rfl, rfl⟩
    · rintro _ ⟨⟩
      exact plain
  | roastPreSignature m =>
    obtain ⟨share, rfl⟩ := calls
    exact ⟨fun _ => trivial, fun _ _ _ => trivial, nofun, fun _ => nofun⟩
  | roastSignatureShare m =>
    cases calls
    exact ⟨fun _ => trivial, fun _ _ _ => trivial, nofun, fun _ => nofun⟩

/-- The numbers in the log have 32 bits, and so does the number of the next block. -/
structure Bounded32 (s : Replica) : Prop where
  numbers : Numbers32 s
  height : lowWatermark s + 1 < 2 ^ 32

/-- What an action puts out has the numbers of the window or of the log. -/
theorem fits32_of_new (inv : Invariant cfg i s) (log : PrePrepareLog s)
    (step : Step cfg i s (now, a) t)
    (before : Bounded32 s) (after : Bounded32 t) (new : fact ∈ a.newMessages cfg i s) :
    fact.Fits32 := by
  have window : ∀ {v n}, inWv v n s → v < 2 ^ 32 ∧ n < 2 ^ 32 := by
    intro v n inside
    obtain ⟨rfl, rfl⟩ := (inWv_iff inv.checkpoint).mp inside
    exact ⟨before.numbers.view, before.height⟩
  cases a with
  | sendPrePrepare d data v n =>
    obtain ⟨-, -, -, inside, -⟩ := step.pre
    rw [List.mem_singleton.mp new]
    exact window inside
  | sendPrepare d v n =>
    rw [List.mem_singleton.mp new]
    exact window step.pre.2.1
  | sendCommit d v n data =>
    rw [List.mem_singleton.mp new]
    exact window step.pre.1
  | sendViewChange v =>
    obtain ⟨c, reported, rfl⟩ := List.mem_map.mp new
    have logged : ownViewChange cfg v i c s ∈ t.msgLogViewChange :=
      step.mem_viewChange.mpr ⟨Or.inr (List.mem_map_of_mem reported), by
        simp [Action.keepsView, ownViewChange]⟩
    obtain ⟨-, view, height, pi, qi⟩ := after.numbers.logged _ logged
    exact ⟨view, height, pi, qi, (log.step inv step).viewChange _ logged⟩
  | sendNewView nu chi =>
    obtain ⟨-, sent, computed, -⟩ := step.pre
    rw [List.mem_singleton.mp new]
    refine ⟨before.numbers.view, fun e listed => ?_, fun e => chi_small before.numbers computed⟩
    obtain ⟨m, logged, rfl⟩ := (mem_nu_iff sent).mp listed
    exact (before.numbers.logged m logged).1
  | processNewView hi nu chi =>
    simp only [Action.newMessages] at new
    split at new
    · cases new
    obtain ⟨e, inside, rfl⟩ := List.mem_map.mp new
    obtain ⟨x, -, -, -, -, computed, solved, unified⟩ := correctNewView_spec step.pre.2.1
    obtain ⟨_, -, b, listed, joined⟩ := mem_unifyChi unified inside
    have number := (ChiEntry.unify_spec joined).1
    exact ⟨before.numbers.view, number ▸ chi_small before.numbers solved listed⟩
  | _ => cases new

theorem findByDigest_digest (digested : Digested cfg s) (log : PrePrepareLog s)
    (numbers : Numbers32 s) {e : NuEntry} (small : e.j < 2 ^ 32) {replicaId : ℕ} {vc : Messages.ViewChange}
    (found : Messages.ViewChange.findByDigest replicaId (toUInt32 e.j) e.d s = .ok vc) :
    (⟨vc.senderId, vc.digest cfg⟩ : NuEntry) = e := by
  unfold Messages.ViewChange.findByDigest at found
  split at found
  · cases found
  rename_i m located
  have logged := List.mem_of_find?_eq_some located
  obtain ⟨digest, sender⟩ : m.vcDigest = e.d ∧ m.senderId = toUInt32 e.j := by
    simpa using List.find?_some located
  have transcribes := transcribes_ofFact numbers logged (log.viewChange m logged)
  have own : (⟨(Messages.ViewChange.ofFact m).senderId,
      (Messages.ViewChange.ofFact m).digest cfg⟩ : NuEntry) = e := by
    rw [transcribes.senderId, transcribes.digest digested logged, digest, sender,
      toUInt32_eq small]
  cases found
  split <;> exact own

theorem prePrepareOfTerms_spec {codec : BlockCodec Block} {j v n : ℕ} {d : String} {data : Data}
    {ppp : Messages.PrePrepare Block}
    (built : Messages.PrePrepare.ofTerms codec j v n d data = .ok ppp)
    (canonical : ∀ text ∈ data, Canonical codec text) :
    ppp.view = toUInt32 v ∧ ppp.seqNumber = toUInt32 n ∧ ppp.reqDigest = d ∧
      data = some (codec.getHex ppp.proposedBlock) := by
  obtain ⟨block, read, same⟩ := bind_eq_ok_iff.mp built
  obtain ⟨text, written, parsed⟩ := blockOfTerm_eq_ok_iff.mp (mapError_eq_ok_iff.mp read)
  cases same
  obtain ⟨block', rfl⟩ := canonical text written
  rw [codec.parse_getHex] at parsed
  cases parsed
  exact ⟨rfl, rfl, rfl, written⟩

theorem reads_of_toBeSent {codec : BlockCodec Block} (small : i < 2 ^ 32)
    (digested : Digested cfg s) (log : PrePrepareLog s) (numbers : Numbers32 s)
    (fits : fact.Fits32)
    (plain : fact.Plain codec) (agreement : fact.isRoast = false)
    (built : fact.toBeSent codec i s = .ok msg) :
    fact.readAs (msg.handed codec cfg) := by
  cases fact with
  | prePrepare v n d data =>
    obtain ⟨ppp, made, rfl⟩ := map_eq_ok_iff.mp built
    obtain ⟨view, number, digest, written⟩ := prePrepareOfTerms_spec made (by
      rintro _ ⟨⟩
      exact plain.2)
    simp only [Incoming.handed, view, number, digest, toUInt32_eq fits.1, toUInt32_eq fits.2,
      ← Option.some.inj written]
    exact Message.readAs_refl _
  | prepare v n d | commit v n data =>
    cases built
    simp only [Incoming.handed, toUInt32_eq fits.1, toUInt32_eq fits.2]
    exact Message.readAs_refl _
  | viewChange v hi c pi qi =>
    obtain ⟨view, height, entries, qi', bound⟩ := fits
    have alone : Numbers32 { s with msgLogViewChange := [⟨"", v, hi, c, pi, qi, i, ""⟩] } :=
      ⟨numbers.view, List.forall_mem_singleton.mpr ⟨small, view, height, entries, qi'⟩⟩
    have same := transcribes_ofFact alone (List.mem_singleton.mpr rfl) bound
    cases built
    simp only [Incoming.handed, same.view, same.hi, same.c, same.pi, same.qi]
    exact Message.readAs_refl _
  | newView v nu chi =>
    obtain ⟨m, made, rfl⟩ := map_eq_ok_iff.mp built
    obtain ⟨vcMessages, searched, rest⟩ := bind_eq_ok_iff.mp made
    obtain ⟨pppMessages, proposed, same⟩ := bind_eq_ok_iff.mp rest
    cases same
    obtain ⟨view, senders, entries⟩ := fits
    refine ⟨toUInt32_eq view, ?_, ?_⟩
    · exact map_eq_of_mapM searched fun e listed vc found =>
        findByDigest_digest digested log numbers (senders e listed) found
    · refine List.forall₂_map_right_iff.mpr (forall₂_of_mapM proposed fun e inside ppp built => ?_)
      obtain ⟨-, number, digest, written⟩ := prePrepareOfTerms_spec built (plain e inside).2
      refine ⟨?_, digest, Or.inr written.symm⟩
      rw [number, toUInt32_eq (entries e inside), toUInt32_eq (entries e inside)]
  | roastPreSignature | roastSignatureShare => cases agreement

theorem Message.Plain.read {codec : BlockCodec Block} (plain : fact.Plain codec)
    (reads : fact.readAs (msg.handed codec cfg)) : (msg.handed codec cfg).Plain codec := by
  cases msg with
  | newView m =>
    obtain ⟨chi, rfl, entries⟩ := Message.readAs_newView reads
    intro e inside
    obtain ⟨e', sent, -, digest, -⟩ := exists_sent_entry entries inside
    obtain ⟨ppp, -, rfl⟩ := List.mem_map.mp inside
    refine ⟨digest ▸ (plain e' sent).1, ?_⟩
    rintro _ ⟨⟩
    exact ⟨ppp.proposedBlock, rfl⟩
  | _ =>
    cases fact <;> cases reads
    exact plain

@[simp] theorem Incoming.terms_setSignature (signature : String) :
    (msg.setSignature signature).terms network cfg = msg.terms network cfg := by
  cases msg <;> rfl

theorem Incoming.isRoast_terms :
    (msg.terms network cfg).isRoast = (msg.handed network.toBlockCodec cfg).isRoast := by
  cases msg <;> rfl

theorem isRoast_of_toBeSent {codec : BlockCodec Block} (built : fact.toBeSent codec i s = .ok msg) :
    (msg.handed codec cfg).isRoast = fact.isRoast := by
  cases fact with
  | prePrepare | newView =>
    obtain ⟨m, -, rfl⟩ := map_eq_ok_iff.mp built
    rfl
  | _ =>
    cases built
    rfl

end Fbft
