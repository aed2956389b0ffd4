import Fbft.PrePrepareLog
import Fbft.Transport

/-! The way of a NEW_VIEW from the log of the primary to the log of a backup. Terms become
objects, objects bytes, bytes objects and objects terms again; the texts of the blocks are read
and written on the way, while the backup compares with the texts in its own log. -/
namespace Fbft

open Throwing LabelledPath

def toUInt32 (k : ℕ) : ℕ := k % 2 ^ 32

/-- The text of a term. A variable is written as `_` and a number, which is left out here. -/
def textOfTerm (data : Data) : String := data.getD "_"

namespace Messages

def qiElemOfTerm (e : QiEntry) : PrePreparedElem :=
  ⟨toUInt32 e.n, e.reqDigest, textOfTerm e.data, toUInt32 e.v⟩

def piElemOfTerm (e : PiEntry) : PiEntry := ⟨toUInt32 e.n, e.reqDigest, toUInt32 e.v⟩

/-- `ViewChange::ViewChange(PlTerm, ...)` on a fact of the log. -/
def ViewChange.ofFact (m : Fbft.ViewChange) : ViewChange :=
  ⟨toUInt32 m.senderId, "", toUInt32 m.v, toUInt32 m.hi, m.c, m.pi.map piElemOfTerm,
    m.qi.map qiElemOfTerm⟩

def ViewChange.findByDigest (replicaId senderId : ℕ) (digest : String) (s : Replica) :
    Except Fault ViewChange :=
  match s.msgLogViewChange.find? fun m => m.vcDigest = digest ∧ m.senderId = senderId with
  | none => .error (.thrown .runtimeError)
  | some m =>
    let msg := ViewChange.ofFact m
    .ok (if m.senderId ≠ replicaId then { msg with signature := m.senderSig } else msg)

variable {Block : Type} (codec : BlockCodec Block)

/-- The block that the text of a term is read as. The text of a variable is too short for one. -/
def blockOfTerm : Data → Except CppString.Thrown Block
  | some text => codec.parse text
  | none => .error .runtimeError

def PrePrepare.ofTerms (senderId v n : ℕ) (reqDigest : String) (proposedBlock : Data) :
    Except Fault (PrePrepare Block) := do
  let block ← (blockOfTerm codec proposedBlock).mapError .thrown
  return ⟨toUInt32 senderId, "", toUInt32 v, toUInt32 n, reqDigest, block⟩

/-- The VIEW_CHANGEs come out of the log, the PRE_PREPAREs are made from Chi. -/
def NewView.ofTerms (senderId v : ℕ) (nu : List NuEntry) (chi : List ChiEntry) (s : Replica) :
    Except Fault (NewView Block) := do
  let vcMessages ← nu.mapM fun e =>
    ViewChange.findByDigest (toUInt32 senderId) (toUInt32 e.j) e.d s
  let pppMessages ← chi.mapM fun e => PrePrepare.ofTerms codec (toUInt32 senderId) (toUInt32 v)
    (toUInt32 e.n) e.reqDigest e.data
  return ⟨toUInt32 senderId, "", toUInt32 v, vcMessages, pppMessages⟩

end Messages

section

variable {Block Bytes : Type} (codec : BlockCodec Block)
  (readJson : Bytes → Except Fault (Option Json)) (writeJson : Json → Bytes)

/-- The NEW_VIEW that leaves replica `p` with a signature, as it is read at the other end. -/
def newViewOnWire (p : ℕ) (nu : List NuEntry) (chi : List ChiEntry) (signature : String)
    (s : Replica) : Except Fault (Option (Incoming Block)) := do
  let m ← Messages.NewView.ofTerms codec p s.view nu chi (applySendNewView nu chi s)
  let binBuffer ← Messages.NewView.toBinBuffer codec readJson writeJson { m with signature }
  Incoming.buildFromBinBuffer codec readJson binBuffer

/-- `correct_new_view(Chi, Nu, Replica_id)` where both lists are given. -/
def CorrectNewView (cfg : Config) (i : ℕ) (s : Replica) (nu : List NuEntry)
    (chi : List ChiEntry) : Prop :=
  ∃ found, (nu, found) ∈ correctNewView cfg i s ∧ (unifyChi found chi).isSome

/-- Replica `i` logs the NEW_VIEW that reaches it and finds it correct. -/
def AcceptedBy (cfg : Config) (i p : ℕ) (nu : List NuEntry) (chi : List ChiEntry)
    (signature : String) (s t : Replica) : Prop :=
  ∃ m t', newViewOnWire codec readJson writeJson p nu chi signature s =
      .ok (some (.newView m)) ∧
    (Action.receiveNewView m.view (m.nu cfg) (m.chi codec) m.senderId m.signature).apply cfg i t =
      some t' ∧
    CorrectNewView cfg i t' (m.nu cfg) (m.chi codec)

end

def Canonical {Block : Type} (codec : BlockCodec Block) (text : String) : Prop :=
  ∃ block, codec.getHex block = text

def ViewChange.content (m : ViewChange) : ViewChange := { m with senderSig := "" }

/-- The hash behind the digests has no collision among the logged VIEW_CHANGEs. -/
def NoCollision (s : Replica) : Prop :=
  ∀ m ∈ s.msgLogViewChange, ∀ m' ∈ s.msgLogViewChange,
    m.vcDigest = m'.vcDigest → m.content = m'.content

def DistinctDigests (s : Replica) : Prop := (s.msgLogViewChange.map ViewChange.vcDigest).Nodup

/-- The numbers in the logged VIEW_CHANGEs have 32 bits, as they have in the messages. -/
structure Numbers32 (s : Replica) : Prop where
  view : s.view < 2 ^ 32
  logged : ∀ m ∈ s.msgLogViewChange, m.senderId < 2 ^ 32 ∧ m.v < 2 ^ 32 ∧ m.hi < 2 ^ 32 ∧
    (∀ e ∈ m.pi, e.n < 2 ^ 32 ∧ e.v < 2 ^ 32) ∧ ∀ e ∈ m.qi, e.n < 2 ^ 32 ∧ e.v < 2 ^ 32

def Digested (cfg : Config) (s : Replica) : Prop :=
  ∀ m ∈ s.msgLogViewChange, m.vcDigest = cfg.digestViewChange m.v m.hi m.c m.pi m.qi m.senderId

variable {cfg : Config} {i p : ℕ} {now : ℚ} {s t : Replica} {a : Action} {nu : List NuEntry}
  {chi : List ChiEntry}

theorem Digested.step (digested : Digested cfg s) (step : Step cfg i s (now, a) t) :
    Digested cfg t := by
  intro m logged
  obtain ⟨old | new, -⟩ := step.mem_viewChange.mp logged
  · exact digested m old
  · cases a with
    | sendViewChange v =>
      obtain ⟨c, -, rfl⟩ := List.mem_map.mp new
      rfl
    | receiveViewChange v hi c pi qi j sig =>
      rw [List.mem_singleton.mp new]
    | _ => cases new

theorem Digested.reachable (reached : Reachable (Initial cfg) (Step cfg i) s) :
    Digested cfg s := by
  apply reached.invariant
  · rintro s ⟨height, hash, timestamp, view, rfl⟩ m logged
    cases logged
  · rintro s ⟨now, a⟩ t digested step
    exact digested.step step

/-- The log has one message of each sender for each view, so equal digests are a collision. -/
theorem distinctDigests (reached : Reachable (Initial cfg) (Step cfg i) s)
    (noCollision : NoCollision s) : DistinctDigests s := by
  have log := ViewChangeLog.reachable reached
  refine log.nodup.map_on fun m logged m' logged' same => ?_
  have content := noCollision m logged m' logged' same
  have view : m.content.v = m'.content.v := by rw [content]
  have sender : m.content.senderId = m'.content.senderId := by rw [content]
  exact log.onePerSender m logged m' logged' view sender

theorem ChiEntry.unify_right {a b c : ChiEntry} (unified : a.unify b = some c)
    (bound : b.data ≠ none) : c = b := by
  obtain ⟨n, reqDigest, -, -, data⟩ := ChiEntry.unify_spec unified
  obtain ⟨text, written⟩ := Option.ne_none_iff_exists'.mp bound
  have same : c.data = b.data := by
    rw [written] at data ⊢
    cases found : a.data with
    | none =>
      rw [found] at data
      exact (Option.some.inj data).symm
    | some text' =>
      rw [found] at data
      simp only [Data.unify] at data
      split at data
      · rename_i equal
        rw [← Option.some.inj data, equal]
      · cases data
  cases b
  cases c
  cases n
  cases reqDigest
  cases same
  rfl

theorem Data.unify_comm (a b : Data) : Data.unify a b = Data.unify b a := by
  cases a with
  | none => cases b <;> rfl
  | some x =>
    cases b with
    | none => rfl
    | some y =>
      simp only [Data.unify]
      by_cases same : x = y
      · rw [if_pos same, if_pos same.symm, same]
      · rw [if_neg same, if_neg fun same' => same same'.symm]

theorem ChiEntry.unify_comm (a b : ChiEntry) : a.unify b = b.unify a := by
  unfold ChiEntry.unify
  by_cases same : a.n = b.n ∧ a.reqDigest = b.reqDigest
  · rw [if_pos same, if_pos ⟨same.1.symm, same.2.symm⟩, Data.unify_comm, same.1, same.2]
  · rw [if_neg same, if_neg fun same' => same ⟨same'.1.symm, same'.2.symm⟩]

theorem ChiEntry.unify_self (a : ChiEntry) : a.unify a = some a := by
  unfold ChiEntry.unify
  rw [if_pos ⟨rfl, rfl⟩]
  cases found : a.data with
  | none =>
    simp only [Data.unify, Option.map_some, Option.some.injEq]
    rw [← found]
  | some text =>
    simp only [Data.unify, if_true, Option.map_some, Option.some.injEq]
    rw [← found]

theorem unifyChi_self (as : List ChiEntry) : unifyChi as as = some as := by
  induction as with
  | nil => rfl
  | cons a as ih => simp only [unifyChi, a.unify_self, ih]

theorem unifyChi_right {as bs cs : List ChiEntry} (unified : unifyChi as bs = some cs)
    (bound : ∀ b ∈ bs, b.data ≠ none) : cs = bs := by
  induction as generalizing bs cs with
  | nil =>
    cases bs with
    | nil => exact (Option.some.inj unified).symm
    | cons b bs => cases unified
  | cons a as ih =>
    cases bs with
    | nil => cases unified
    | cons b bs =>
      simp only [unifyChi] at unified
      split at unified
      · rename_i c cs' first rest
        rw [← Option.some.inj unified, ChiEntry.unify_right first (bound b List.mem_cons_self),
          ih rest fun b member => bound b (List.mem_cons_of_mem _ member)]
      · cases unified

theorem unifyChi_comm (as bs : List ChiEntry) : unifyChi as bs = unifyChi bs as := by
  induction as generalizing bs with
  | nil => cases bs <;> rfl
  | cons a as ih =>
    cases bs with
    | nil => rfl
    | cons b bs => simp only [unifyChi, a.unify_comm b, ih bs]

theorem unifyChi_left {as bs cs : List ChiEntry} (unified : unifyChi as bs = some cs)
    (bound : ∀ a ∈ as, a.data ≠ none) : cs = as :=
  unifyChi_right ((unifyChi_comm bs as).trans unified) bound

section

variable {m m' : ViewChange} {msg : Messages.ViewChange} {Block : Type} {codec : BlockCodec Block}

theorem toUInt32_eq {k : ℕ} (small : k < 2 ^ 32) : toUInt32 k = k := Nat.mod_eq_of_lt small

theorem some_textOfTerm {data : Data} (bound : data ≠ none) : some (textOfTerm data) = data := by
  obtain ⟨text, rfl⟩ := Option.ne_none_iff_exists'.mp bound
  rfl

theorem blockOfTerm_eq_ok_iff {data : Data} {block : Block} :
    Messages.blockOfTerm codec data = .ok block ↔
      ∃ text, data = some text ∧ codec.parse text = .ok block := by
  cases data with
  | none => exact iff_of_false nofun (by simp)
  | some text => simp [Messages.blockOfTerm]

/-- Where the numbers fit, nothing of the fact is lost. -/
structure Transcribes (m : ViewChange) (msg : Messages.ViewChange) : Prop where
  senderId : msg.senderId = m.senderId
  view : msg.view = m.v
  hi : msg.hi = m.hi
  c : msg.c = m.c
  pi : msg.pi = m.pi
  qi : msg.qiAsTerm = m.qi
  fits : msg.Fits32

theorem Transcribes.digest (transcribes : Transcribes m msg) (digested : Digested cfg s)
    (logged : m ∈ s.msgLogViewChange) : msg.digest cfg = m.vcDigest := by
  rw [digested m logged, Messages.ViewChange.digest, transcribes.senderId, transcribes.view,
    transcribes.hi, transcribes.c, transcribes.pi, transcribes.qi]

theorem transcribes_ofFact (numbers : Numbers32 s) (logged : m ∈ s.msgLogViewChange)
    (bound : ∀ q ∈ m.qi, q.data ≠ none) : Transcribes m (Messages.ViewChange.ofFact m) := by
  obtain ⟨senderId, v, hi, pi, qi⟩ := numbers.logged m logged
  have elem : ∀ q ∈ m.qi,
      Messages.qiElemOfTerm q = ⟨q.n, q.reqDigest, textOfTerm q.data, q.v⟩ := by
    intro q inside
    rw [Messages.qiElemOfTerm, toUInt32_eq (qi q inside).1, toUInt32_eq (qi q inside).2]
  have entries : m.pi.map Messages.piElemOfTerm = m.pi := by
    refine (List.map_congr_left fun e inside => ?_).trans (List.map_id m.pi)
    rw [Messages.piElemOfTerm, toUInt32_eq (pi e inside).1, toUInt32_eq (pi e inside).2]
    rfl
  refine ⟨toUInt32_eq senderId, toUInt32_eq v, toUInt32_eq hi, rfl, entries, ?_,
    ⟨?_, ?_, ?_, ?_, ?_⟩⟩
  · refine (List.map_map.trans (List.map_congr_left fun q inside => ?_)).trans (List.map_id m.qi)
    simp only [Function.comp_apply, elem q inside, some_textOfTerm (bound q inside), id_eq]
  · exact (toUInt32_eq senderId).trans_lt senderId
  · exact (toUInt32_eq v).trans_lt v
  · exact (toUInt32_eq hi).trans_lt hi
  · change ∀ e ∈ m.pi.map Messages.piElemOfTerm, e.n < 2 ^ 32 ∧ e.v < 2 ^ 32
    rw [entries]
    exact pi
  · intro e inside
    obtain ⟨q, member, rfl⟩ := List.mem_map.mp inside
    rw [elem q member]
    exact qi q member

theorem eq_of_digest (distinct : DistinctDigests s) (logged : m ∈ s.msgLogViewChange)
    (logged' : m' ∈ s.msgLogViewChange) (same : m.vcDigest = m'.vcDigest) : m = m' :=
  List.inj_on_of_nodup_map distinct logged logged' same

theorem findByDigest_eq (distinct : DistinctDigests s) (logged : m ∈ s.msgLogViewChange)
    (replicaId : ℕ) : Messages.ViewChange.findByDigest replicaId m.senderId m.vcDigest s =
      .ok (if m.senderId ≠ replicaId then
        { Messages.ViewChange.ofFact m with signature := m.senderSig }
        else Messages.ViewChange.ofFact m) := by
  unfold Messages.ViewChange.findByDigest
  cases found : s.msgLogViewChange.find? fun m' =>
      m'.vcDigest = m.vcDigest ∧ m'.senderId = m.senderId with
  | none =>
    have rejected := List.find?_eq_none.mp found m logged
    simp at rejected
  | some m' =>
    have matched := List.find?_some found
    simp only [decide_eq_true_eq] at matched
    rw [eq_of_digest distinct logged (List.mem_of_find?_eq_some found) matched.1.symm]

theorem transcribes_findByDigest (distinct : DistinctDigests s) (numbers : Numbers32 s)
    (logged : m ∈ s.msgLogViewChange) (bound : ∀ q ∈ m.qi, q.data ≠ none) {replicaId : ℕ}
    (found : Messages.ViewChange.findByDigest replicaId m.senderId m.vcDigest s = .ok msg) :
    Transcribes m msg := by
  rw [findByDigest_eq distinct logged] at found
  cases found
  have transcribes := transcribes_ofFact numbers logged bound
  split
  · exact ⟨transcribes.senderId, transcribes.view, transcribes.hi, transcribes.c, transcribes.pi,
      transcribes.qi, ⟨transcribes.fits.senderId, transcribes.fits.view, transcribes.fits.hi,
      transcribes.fits.pi, transcribes.fits.qi⟩⟩
  · exact transcribes

def Decodable (codec : BlockCodec Block) (e : ChiEntry) : Prop :=
  ∃ text, e.data = some text ∧ Returns (codec.parse text)

/-- What a PRE_PREPARE for an entry says at the other end: the block written anew. -/
def Rewrites (codec : BlockCodec Block) (e e' : ChiEntry) : Prop :=
  ∃ text block, e.data = some text ∧ codec.parse text = .ok block ∧
    e' = ⟨e.n, e.reqDigest, some (codec.getHex block)⟩

theorem mem_nu_iff (sent : correctNuOnce cfg p s = some nu) {e : NuEntry} :
    e ∈ nu ↔ ∃ m ∈ s.msgLogViewChange, (⟨m.senderId, m.vcDigest⟩ : NuEntry) = e := by
  simp only [correctNuOnce] at sent
  split at sent
  · cases sent
    rw [mem_sortNu, correctNuElement_eq, List.mem_map]
  · cases sent

theorem returns_newViewOfTerms (distinct : DistinctDigests s) (numbers : Numbers32 s)
    (sent : correctNuOnce cfg p s = some nu) (v : ℕ) :
    Returns (Messages.NewView.ofTerms codec p v nu chi s) ↔ ∀ e ∈ chi, Decodable codec e := by
  have searched : ∀ e ∈ nu,
      Returns (Messages.ViewChange.findByDigest (toUInt32 p) (toUInt32 e.j) e.d s) := by
    intro e listed
    obtain ⟨m, logged, rfl⟩ := (mem_nu_iff sent).mp listed
    rw [toUInt32_eq (numbers.logged m logged).1]
    exact ⟨_, findByDigest_eq distinct logged _⟩
  have decoded : ∀ e : ChiEntry,
      Returns (Messages.blockOfTerm codec e.data) ↔ Decodable codec e := by
    intro e
    simp only [Returns, blockOfTerm_eq_ok_iff, Decodable]
    constructor
    · rintro ⟨block, text, written, parsed⟩
      exact ⟨text, written, block, parsed⟩
    · rintro ⟨text, written, block, parsed⟩
      exact ⟨block, text, written, parsed⟩
  simp only [Messages.NewView.ofTerms, Messages.PrePrepare.ofTerms, returns_bind, exists_and_right,
    returns_pure, and_true, exists_eq_ok, returns_mapM, returns_mapError, decoded]
  exact and_iff_right searched

theorem chi_small (numbers : Numbers32 s) (computed : correctChi cfg nu s = some chi)
    {e : ChiEntry} (inside : e ∈ chi) : e.n < 2 ^ 32 := by
  obtain ⟨-, range, -⟩ := correctChi_range computed
  obtain ⟨-, q, listed, le⟩ := (range e.n).mp (List.mem_map_of_mem inside)
  obtain ⟨m, chosen, certified⟩ := List.mem_flatMap.mp listed
  obtain ⟨-, -, -, pi, -⟩ := numbers.logged m (mem_nuVset.mp chosen).1
  exact le.trans_lt (pi q certified).1

/-- What the NEW_VIEW says to a backup: Nu as it is, and Chi with its blocks written anew. -/
structure Announces (cfg : Config) (codec : BlockCodec Block) (p v : ℕ) (nu : List NuEntry)
    (chi : List ChiEntry) (m : Messages.NewView Block) : Prop where
  senderId : m.senderId = p
  view : m.view = v
  nu : m.nu cfg = nu
  chi : List.Forall₂ (Rewrites codec) chi (m.chi codec)
  fits : m.Fits32

theorem rewrites_ofTerms (numbers : Numbers32 s) (small : p < 2 ^ 32) {e : ChiEntry}
    (number : e.n < 2 ^ 32) {ppp : Messages.PrePrepare Block}
    (built : Messages.PrePrepare.ofTerms codec (toUInt32 p) (toUInt32 s.view) (toUInt32 e.n)
      e.reqDigest e.data = .ok ppp) :
    Rewrites codec e ⟨ppp.seqNumber, ppp.reqDigest, some (codec.getHex ppp.proposedBlock)⟩ ∧
      ppp.Fits32 := by
  obtain ⟨block, read, same⟩ := bind_eq_ok_iff.mp built
  obtain ⟨text, written, parsed⟩ := blockOfTerm_eq_ok_iff.mp (mapError_eq_ok_iff.mp read)
  cases same
  simp only [toUInt32_eq number, toUInt32_eq small, toUInt32_eq numbers.view]
  exact ⟨⟨text, block, written, parsed, rfl⟩, ⟨small, numbers.view, number⟩⟩

theorem announces_ofTerms (distinct : DistinctDigests s) (digested : Digested cfg s)
    (log : PrePrepareLog s) (numbers : Numbers32 s) (sent : correctNuOnce cfg p s = some nu)
    (computed : correctChi cfg nu s = some chi) (small : p < 2 ^ 32)
    {m : Messages.NewView Block}
    (built : Messages.NewView.ofTerms codec p s.view nu chi s = .ok m) :
    Announces cfg codec p s.view nu chi m := by
  obtain ⟨vcMessages, searched, rest⟩ := bind_eq_ok_iff.mp built
  obtain ⟨pppMessages, made, same⟩ := bind_eq_ok_iff.mp rest
  cases same
  have transcribes : ∀ e ∈ nu, ∀ vc, Messages.ViewChange.findByDigest (toUInt32 p) (toUInt32 e.j)
      e.d s = .ok vc → ∃ m ∈ s.msgLogViewChange,
        (⟨m.senderId, m.vcDigest⟩ : NuEntry) = e ∧ Transcribes m vc := by
    intro e listed vc found
    obtain ⟨m, logged, rfl⟩ := (mem_nu_iff sent).mp listed
    simp only [toUInt32_eq (numbers.logged m logged).1] at found
    exact ⟨m, logged, rfl,
      transcribes_findByDigest distinct numbers logged (log.viewChange m logged) found⟩
  have entries : ∀ e ∈ chi, ∀ ppp, Messages.PrePrepare.ofTerms codec (toUInt32 p)
      (toUInt32 s.view) (toUInt32 e.n) e.reqDigest e.data = .ok ppp →
      Rewrites codec e ⟨ppp.seqNumber, ppp.reqDigest, some (codec.getHex ppp.proposedBlock)⟩ ∧
        ppp.Fits32 := by
    intro e inside ppp built
    exact rewrites_ofTerms numbers small (chi_small numbers computed inside) built
  refine ⟨toUInt32_eq small, toUInt32_eq numbers.view, ?_, ?_, ⟨?_, ?_, ?_, ?_⟩⟩
  · refine map_eq_of_mapM searched fun e listed vc found => ?_
    obtain ⟨m, logged, rfl, same⟩ := transcribes e listed vc found
    rw [same.senderId, same.digest digested logged]
  · exact List.forall₂_map_right_iff.mpr
      (forall₂_of_mapM made fun e inside ppp built => (entries e inside ppp built).1)
  · exact (toUInt32_eq small).symm ▸ small
  · exact (toUInt32_eq numbers.view).symm ▸ numbers.view
  · intro vc inside
    obtain ⟨e, listed, found⟩ := mem_of_mapM searched inside
    obtain ⟨m, -, -, same⟩ := transcribes e listed vc found
    exact same.fits
  · intro ppp inside
    obtain ⟨e, listed, found⟩ := mem_of_mapM made inside
    exact (entries e listed ppp found).2

end

theorem filter_digest_eq (distinct : DistinctDigests s) {m : ViewChange}
    (logged : m ∈ s.msgLogViewChange) :
    (s.msgLogViewChange.filter fun m' => m'.vcDigest = m.vcDigest) = [m] := by
  have member : m ∈ s.msgLogViewChange.filter fun m' => m'.vcDigest = m.vcDigest :=
    List.mem_filter.mpr ⟨logged, decide_eq_true rfl⟩
  obtain ⟨m', single⟩ := List.length_eq_one_iff.mp (le_antisymm
    (filter_digest_length distinct m.vcDigest) (List.length_pos_of_mem member))
  rw [single, List.mem_singleton] at member
  rw [single, member]

theorem correctNuElement_nodup (distinct : DistinctDigests s) : (correctNuElement cfg i s).Nodup := by
  have digests : (correctNuElement cfg i s).map NuEntry.d =
      s.msgLogViewChange.map ViewChange.vcDigest := by
    rw [correctNuElement_eq, List.map_map]
    rfl
  refine List.Nodup.of_map NuEntry.d ?_
  rw [digests]
  exact distinct

/-- Every VIEW_CHANGE that Nu refers to is in the other log too, up to its signature. -/
def Holds (nu : List NuEntry) (s t : Replica) : Prop :=
  ∀ m ∈ s.msgLogViewChange, ⟨m.senderId, m.vcDigest⟩ ∈ nu →
    ∃ m' ∈ t.msgLogViewChange, m'.content = m.content

theorem ViewChange.vcDigest_of_content {m m' : ViewChange} (same : m'.content = m.content) :
    m'.vcDigest = m.vcDigest ∧ m'.senderId = m.senderId := by
  have digest : m'.content.vcDigest = m.content.vcDigest := by rw [same]
  have sender : m'.content.senderId = m.content.senderId := by rw [same]
  exact ⟨digest, sender⟩

theorem nuVset_content (distinct : DistinctDigests s) (distinct' : DistinctDigests t)
    (holds : Holds nu s t) (sent : correctNuOnce cfg p s = some nu) :
    (nuVset nu s).map ViewChange.content = (nuVset nu t).map ViewChange.content := by
  simp only [nuVset, List.map_flatMap]
  refine List.flatMap_congr fun e listed => ?_
  obtain ⟨m, logged, rfl⟩ := (mem_nu_iff sent).mp listed
  obtain ⟨m', logged', same⟩ := holds m logged listed
  have found := filter_digest_eq distinct' logged'
  rw [(ViewChange.vcDigest_of_content same).1] at found
  rw [filter_digest_eq distinct logged, found, List.map_singleton, List.map_singleton, same]

theorem chiCase1_content (msgs : List ViewChange) (n : ℕ) :
    chiCase1 (msgs.map ViewChange.content) n = chiCase1 msgs n := by
  simp only [chiCase1, List.flatMap_map, ViewChange.content]
  rfl

/-- Signatures play no part in Chi. -/
theorem correctChi_content (same : (nuVset nu s).map ViewChange.content =
    (nuVset nu t).map ViewChange.content) : correctChi cfg nu s = correctChi cfg nu t := by
  have his : (nuVset nu s).map ViewChange.hi = (nuVset nu t).map ViewChange.hi := by
    have mapped := congrArg (List.map ViewChange.hi) same
    simpa only [List.map_map, Function.comp_def, ViewChange.content] using mapped
  have pis : (nuVset nu s).flatMap ViewChange.pi = (nuVset nu t).flatMap ViewChange.pi := by
    have mapped := congrArg (List.flatMap ViewChange.pi) same
    simpa only [List.flatMap_map, ViewChange.content] using mapped
  have lengths : (nuVset nu s).length = (nuVset nu t).length := by
    simpa only [List.length_map] using congrArg List.length same
  have cases : chiEntry (nuVset nu s) = chiEntry (nuVset nu t) := by
    funext n
    rw [chiEntry, ← chiCase1_content, same, chiCase1_content, chiEntry]
  simp only [correctChi, maxPreparedN, his, pis, lengths, cases]

/-- A backup that has all the VIEW_CHANGEs finds the Nu of the primary among its own. -/
theorem mem_correctNuAll_of_holds (distinct : DistinctDigests s) (distinct' : DistinctDigests t)
    (holds : Holds nu s t) (sent : correctNuOnce cfg p s = some nu) :
    nu ∈ correctNuAll cfg i t := by
  have largest := sent
  simp only [correctNuOnce] at largest
  split at largest
  · rename_i large
    have sorted := Option.some.inj largest
    have nodup : (correctNuElement cfg p s).Nodup := correctNuElement_nodup distinct
    have perm := sortNu_perm nodup
    rw [sorted] at perm
    let sub := (correctNuElement cfg i t).filter fun e => e ∈ nu
    have part : sub.Sublist (correctNuElement cfg i t) := List.filter_sublist
    have nodup' : sub.Nodup := (correctNuElement_nodup distinct').sublist part
    have reordered : sub.Perm nu := by
      refine (List.perm_ext_iff_of_nodup nodup' (perm.nodup_iff.mpr nodup)).mpr fun e => ?_
      rw [List.mem_filter, decide_eq_true_iff, and_iff_right_iff_imp]
      intro listed
      obtain ⟨m, logged, rfl⟩ := (mem_nu_iff sent).mp listed
      obtain ⟨m', logged', same⟩ := holds m logged listed
      rw [correctNuElement_eq]
      obtain ⟨digest, sender⟩ := ViewChange.vcDigest_of_content same
      exact List.mem_map.mpr ⟨m', logged', by rw [digest, sender]⟩
    have quorum : quorum cfg ≤ sub.length := by
      rw [reordered.length_eq, perm.length_eq]
      exact large
    have built := mem_correctNuAll part quorum
    rw [sortNu_eq_of_perm (reordered.trans perm), sorted] at built
    exact built
  · cases largest

section

variable {Block Bytes : Type} {codec : BlockCodec Block}
  {readJson : Bytes → Except Fault (Option Json)} {writeJson : Json → Bytes} {signature : String}

theorem receiveNewView_logged (positive : 0 < t.view) (primary : p = primary cfg t.view)
    (backup : i ≠ p) (nu : List NuEntry) (chi : List ChiEntry) (signature : String) :
    ∃ t', (Action.receiveNewView t.view nu chi p signature).apply cfg i t = some t' ∧
      t'.view = t.view ∧ t'.msgLogViewChange = t.msgLogViewChange ∧
      ∃ m ∈ t'.msgLogNewView, m.v = t.view ∧ m.nu = nu ∧ (unifyChi m.chi chi).isSome := by
  simp only [Action.apply, applyReceiveNewView]
  rw [if_pos ⟨backup.symm, positive, le_rfl, primary⟩]
  split
  · rename_i logged
    exact ⟨t, rfl, rfl, rfl, logged⟩
  · refine ⟨_, rfl, rfl, rfl, ?_⟩
    simp only [msgLogAddNewView]
    rcases Database.assertzOnceBy_cases NewView.unifies ⟨t.view, nu, chi, signature⟩
      t.msgLogNewView with ⟨same, m, logged, unifies⟩ | ⟨same, -⟩
    · rw [NewView.unifies, Bool.and_eq_true, decide_eq_true_eq] at unifies
      obtain ⟨⟨v, nu, -⟩, chi⟩ := unifies
      rw [same]
      exact ⟨m, logged, v.symm, nu.symm, unifyChi_comm _ _ ▸ chi⟩
    · rw [same]
      refine ⟨_, List.mem_append_right _ (List.mem_singleton.mpr rfl), rfl, rfl, ?_⟩
      rw [unifyChi_self]
      rfl

theorem newViewOnWire_eq_ok_iff (roundTrips : RoundTrips readJson writeJson)
    (distinct : DistinctDigests s) (digested : Digested cfg s) (log : PrePrepareLog s)
    (numbers : Numbers32 s) (small : p < 2 ^ 32) (sends : preSendNewView cfg nu chi p s)
    {m : Messages.NewView Block} :
    newViewOnWire codec readJson writeJson p nu chi signature s = .ok (some (.newView m)) ↔
      ∃ built, Messages.NewView.ofTerms codec p s.view nu chi s = .ok built ∧
        m = { built with signature } := by
  have sameLog : Messages.NewView.ofTerms codec p s.view nu chi (applySendNewView nu chi s) =
      Messages.NewView.ofTerms codec p s.view nu chi s := rfl
  rw [newViewOnWire, sameLog, bind_eq_ok_iff]
  refine exists_congr fun built => and_congr_right fun made => ?_
  have announces := announces_ofTerms distinct digested log numbers sends.2.1 sends.2.2.1 small made
  have fits : Messages.NewView.Fits32 { built with signature } :=
    ⟨announces.fits.senderId, announces.fits.view, announces.fits.vcMessages,
      announces.fits.pppMessages⟩
  rw [Messages.NewView.build_toBinBuffer roundTrips fits]
  constructor
  · intro same
    cases same
    rfl
  · rintro rfl
    rfl

theorem correctChi_congr {t' : Replica} (same : t'.msgLogViewChange = t.msgLogViewChange) :
    correctChi cfg nu t' = correctChi cfg nu t := by
  unfold correctChi nuVset
  rw [same]

theorem correctNuAll_congr {t' : Replica} (same : t'.msgLogViewChange = t.msgLogViewChange) :
    correctNuAll cfg i t' = correctNuAll cfg i t := by
  simp only [correctNuAll, correctNuElement_eq, same]

theorem mem_correctNewView {m : NewView} {computed : List ChiEntry}
    (logged : m ∈ t.msgLogNewView) (view : m.v = t.view) (listed : m.nu ∈ correctNuAll cfg i t)
    (solved : correctChi cfg m.nu t = some computed)
    (unified : unifyChi m.chi computed = some chi) : (m.nu, chi) ∈ correctNewView cfg i t := by
  refine List.mem_flatMap.mpr ⟨m, List.mem_filter.mpr ⟨logged, decide_eq_true view⟩,
    List.mem_filterMap.mpr ⟨m.nu, List.mem_filter.mpr ⟨listed, decide_eq_true rfl⟩, ?_⟩⟩
  rw [solved, Option.bind_some, unified, Option.map_some]

/-- The texts that arrive are those that were sent exactly when each was written for a block. -/
theorem rewrites_self_iff {e : ChiEntry} : Rewrites codec e e ↔
    ∃ text, e.data = some text ∧ Canonical codec text := by
  constructor
  · rintro ⟨text, block, written, -, same⟩
    refine ⟨text, written, block, ?_⟩
    have data := congrArg ChiEntry.data same
    rw [written] at data
    exact (Option.some.inj data).symm
  · rintro ⟨text, written, block, rfl⟩
    refine ⟨_, block, written, codec.parse_getHex block, ?_⟩
    rw [← written]

theorem rewrites_eq {e e' : ChiEntry} {text : String} (written : e.data = some text)
    (canonical : Canonical codec text) (rewritten : Rewrites codec e e') : e = e' := by
  obtain ⟨text', block, written', parsed, rfl⟩ := rewritten
  cases written.symm.trans written'
  obtain ⟨block', rfl⟩ := canonical
  rw [codec.parse_getHex] at parsed
  cases parsed
  rw [← written]

theorem primary_small (numbers : Numbers32 s) (sends : preSendNewView cfg nu chi p s) :
    p < 2 ^ 32 := by
  rw [← sends.1]
  exact (Nat.mod_le _ _).trans_lt numbers.view

/-- A backup that has all the VIEW_CHANGEs computes the Chi of the primary. -/
theorem correctChi_of_holds (distinct : DistinctDigests s) (distinct' : DistinctDigests t)
    (holds : Holds nu s t) (sends : preSendNewView cfg nu chi p s) :
    correctChi cfg nu t = some chi :=
  (correctChi_content (nuVset_content distinct distinct' holds sends.2.1)).symm.trans sends.2.2.1

theorem Decodable.texts (decodable : ∀ e ∈ chi, Decodable codec e) : ∀ e ∈ chi, e.data ≠ none := by
  intro e inside
  obtain ⟨text, written, -⟩ := decodable e inside
  exact Option.ne_none_iff_exists'.mpr ⟨text, written⟩

def Arrives (codec : BlockCodec Block) (p : ℕ) (nu : List NuEntry) (chi : List ChiEntry)
    (s : Replica) : Prop :=
  ∃ built, Messages.NewView.ofTerms codec p s.view nu chi s = .ok built ∧ built.chi codec = chi

theorem arrives_iff_canonical (distinct : DistinctDigests s) (digested : Digested cfg s)
    (log : PrePrepareLog s) (numbers : Numbers32 s) (sends : preSendNewView cfg nu chi p s) :
    Arrives codec p nu chi s ↔ ∀ e ∈ chi, ∃ text, e.data = some text ∧ Canonical codec text := by
  have small := primary_small numbers sends
  constructor
  · rintro ⟨built, made, same⟩
    have announces := announces_ofTerms distinct digested log numbers sends.2.1 sends.2.2.1 small made
    have related := announces.chi
    rw [same] at related
    exact fun e inside => rewrites_self_iff.mp (List.forall₂_same.mp related e inside)
  · intro canonical
    have decodable : ∀ e ∈ chi, Decodable codec e := by
      intro e inside
      obtain ⟨text, block, written, parsed, -⟩ := rewrites_self_iff.mpr (canonical e inside)
      exact ⟨text, written, block, parsed⟩
    obtain ⟨built, made⟩ :=
      (returns_newViewOfTerms distinct numbers sends.2.1 s.view).mpr decodable
    have announces := announces_ofTerms distinct digested log numbers sends.2.1 sends.2.2.1 small made
    have related := (List.forall₂_and_left _ _).mpr ⟨canonical, announces.chi⟩
    have equal := related.imp fun e e' ⟨⟨text, written, canonical⟩, rewritten⟩ =>
      rewrites_eq written canonical rewritten
    rw [List.forall₂_eq_eq_eq] at equal
    exact ⟨built, made, equal.symm⟩

/-- What is accepted came back as it was sent: the backup computes the Chi of the primary, and
between texts unification is equality. -/
theorem arrives_of_acceptedBy (distinct : DistinctDigests s) (distinct' : DistinctDigests t)
    (digested : Digested cfg s) (log : PrePrepareLog s) (sends : preSendNewView cfg nu chi p s)
    (backup : i ≠ p) (views : t.view = s.view) (positive : 0 < s.view) (holds : Holds nu s t)
    (numbers : Numbers32 s) (roundTrips : RoundTrips readJson writeJson)
    (accepted : AcceptedBy codec readJson writeJson cfg i p nu chi signature s t) :
    Arrives codec p nu chi s := by
  have small := primary_small numbers sends
  have raw := correctChi_of_holds distinct distinct' holds sends
  obtain ⟨m, t', onWire, received, found, correct, unified⟩ := accepted
  obtain ⟨built, made, rfl⟩ :=
    (newViewOnWire_eq_ok_iff roundTrips distinct digested log numbers small sends).mp onWire
  have announces := announces_ofTerms distinct digested log numbers sends.2.1 sends.2.2.1 small made
  have texts :=
    Decodable.texts ((returns_newViewOfTerms distinct numbers sends.2.1 _).mp ⟨_, made⟩)
  obtain ⟨t'', received', -, sameLog, -⟩ := receiveNewView_logged (views ▸ positive)
    (views ▸ sends.1.symm) backup nu (built.chi codec) signature
  have arrived : (Action.receiveNewView built.view (built.nu cfg) (built.chi codec) built.senderId
      signature).apply cfg i t = some t' := received
  rw [announces.view, announces.nu, announces.senderId, ← views, received'] at arrived
  cases arrived
  have correct : (built.nu cfg, found) ∈ correctNewView cfg i t' := correct
  rw [announces.nu] at correct
  obtain ⟨m', -, -, -, -, chi', solved, unifies⟩ := correctNewView_spec correct
  rw [correctChi_congr sameLog, raw] at solved
  cases solved
  rw [unifyChi_right unifies texts] at unified
  obtain ⟨both, unified⟩ := Option.isSome_iff_exists.mp unified
  have rewritten : ∀ e ∈ built.chi codec, e.data ≠ none := by
    intro e inside
    obtain ⟨ppp, -, rfl⟩ := List.mem_map.mp inside
    exact Option.some_ne_none _
  exact ⟨built, made,
    (unifyChi_right unified rewritten).symm.trans (unifyChi_left unified texts)⟩

theorem acceptedBy_of_arrives (distinct : DistinctDigests s) (distinct' : DistinctDigests t)
    (digested : Digested cfg s) (log : PrePrepareLog s) (sends : preSendNewView cfg nu chi p s)
    (backup : i ≠ p) (views : t.view = s.view) (positive : 0 < s.view) (holds : Holds nu s t)
    (numbers : Numbers32 s) (roundTrips : RoundTrips readJson writeJson)
    (arrives : Arrives codec p nu chi s) :
    AcceptedBy codec readJson writeJson cfg i p nu chi signature s t := by
  have small := primary_small numbers sends
  have raw := correctChi_of_holds distinct distinct' holds sends
  have listed := mem_correctNuAll_of_holds (i := i) distinct distinct' holds sends.2.1
  obtain ⟨built, made, same⟩ := arrives
  have announces := announces_ofTerms distinct digested log numbers sends.2.1 sends.2.2.1 small made
  have texts :=
    Decodable.texts ((returns_newViewOfTerms distinct numbers sends.2.1 _).mp ⟨_, made⟩)
  obtain ⟨t', received, view, sameLog, m, logged, number, names, unifies⟩ := receiveNewView_logged
    (views ▸ positive) (views ▸ sends.1.symm) backup nu (built.chi codec) signature
  refine ⟨{ built with signature }, t', (newViewOnWire_eq_ok_iff roundTrips distinct digested
    log numbers small sends).mpr ⟨built, made, rfl⟩, ?_, chi, ?_, ?_⟩
  · change (Action.receiveNewView built.view (built.nu cfg) (built.chi codec) built.senderId
      signature).apply cfg i t = some t'
    rw [announces.view, announces.nu, announces.senderId, ← views]
    exact received
  · change (built.nu cfg, chi) ∈ correctNewView cfg i t'
    rw [announces.nu, ← names]
    obtain ⟨both, unified⟩ := Option.isSome_iff_exists.mp unifies
    rw [same] at unified
    refine mem_correctNewView logged (number.trans view.symm) ?_ ?_
      ((unifyChi_right unified texts) ▸ unified)
    · rw [names, correctNuAll_congr sameLog]
      exact listed
    · rw [names, correctChi_congr sameLog]
      exact raw
  · change (unifyChi chi (built.chi codec)).isSome
    rw [same, unifyChi_self]
    rfl

/-- From every reachable state of the primary to every reachable state of a backup in its view that
has its VIEW_CHANGEs: the NEW_VIEW is accepted exactly when each entry of Chi has a block and the
text that is written for it. -/
theorem acceptedBy_iff_canonical (reached : Reachable (Initial cfg) (Step cfg p) s)
    (reached' : Reachable (Initial cfg) (Step cfg i) t)
    (sends : preSendNewView cfg nu chi p s) (backup : i ≠ p) (views : t.view = s.view)
    (positive : 0 < s.view) (holds : Holds nu s t) (noCollision : NoCollision s)
    (noCollision' : NoCollision t) (numbers : Numbers32 s)
    (roundTrips : RoundTrips readJson writeJson) (signature : String) :
    AcceptedBy codec readJson writeJson cfg i p nu chi signature s t ↔
      ∀ e ∈ chi, ∃ text, e.data = some text ∧ Canonical codec text := by
  have digested := Digested.reachable reached
  have log := (PrePrepareLog.reachable reached).2
  have distinct := distinctDigests reached noCollision
  have distinct' := distinctDigests reached' noCollision'
  rw [← arrives_iff_canonical distinct digested log numbers sends]
  constructor
  · exact arrives_of_acceptedBy distinct distinct' digested log sends backup views positive holds
      numbers roundTrips
  · exact acceptedBy_of_arrives distinct distinct' digested log sends backup views positive holds
      numbers roundTrips

end

instance : Decidable (NoCollision s) :=
  inferInstanceAs (Decidable (∀ m ∈ s.msgLogViewChange, ∀ m' ∈ s.msgLogViewChange, _ → _))

instance : Decidable (Holds nu s t) :=
  inferInstanceAs (Decidable (∀ m ∈ s.msgLogViewChange, _ → ∃ m' ∈ t.msgLogViewChange, _))

instance : Decidable (Numbers32 s) :=
  decidable_of_iff (s.view < 2 ^ 32 ∧ ∀ m ∈ s.msgLogViewChange, m.senderId < 2 ^ 32 ∧
      m.v < 2 ^ 32 ∧ m.hi < 2 ^ 32 ∧ (∀ e ∈ m.pi, e.n < 2 ^ 32 ∧ e.v < 2 ^ 32) ∧
      ∀ e ∈ m.qi, e.n < 2 ^ 32 ∧ e.v < 2 ^ 32)
    ⟨fun numbers => ⟨numbers.1, numbers.2⟩, fun numbers => ⟨numbers.view, numbers.logged⟩⟩

/-- Two blocks. Their texts are read in small and in capital letters, and written in small ones. -/
def hexBlocks : BlockCodec Bool where
  parse text :=
    if text = "aa" ∨ text = "AA" then .ok true
    else if text = "bb" ∨ text = "BB" then .ok false
    else .error .runtimeError
  getHex block := if block then "aa" else "bb"
  parse_getHex block := by cases block <;> rfl

theorem roundTrips_id : RoundTrips (fun j : Json => .ok (some j)) id := fun _ _ => rfl

/-- Replica 1 is the primary of view 1; replica 3 certifies a block of its own. -/
def certifiedToPrimary (data : String) : List (ℚ × Action) :=
  [(60, .receiveRequest "(H=1, T=60)" 60), (100, .sendViewChange 1),
    (100, .receiveViewChange 1 0 "H0" [⟨1, "(H=1, T=60)", 0⟩]
      [⟨1, "(H=1, T=60)", some data, 0⟩] 3 "S3"),
    (100, .receiveViewChange 1 0 "H0" [] [] 0 "S0")]

def certifiedToBackup (data : String) : List (ℚ × Action) :=
  [(60, .receiveRequest "(H=1, T=60)" 60), (100, .sendViewChange 1),
    (100, .receiveViewChange 1 0 "H0" [⟨1, "(H=1, T=60)", 0⟩]
      [⟨1, "(H=1, T=60)", some data, 0⟩] 3 "S3"),
    (100, .receiveViewChange 1 0 "H0" [] [] 1 "S1"),
    (100, .receiveViewChange 1 0 "H0" [] [] 0 "S0")]

theorem acceptedBy_smallLetters : ∃ s t,
    exec fourReplicas 1 Always (certifiedToPrimary "aa") genesis = some s ∧
    exec fourReplicas 2 Always (certifiedToBackup "aa") genesis = some t ∧
    AcceptedBy hexBlocks (fun j : Json => .ok (some j)) id fourReplicas 2 1
      [⟨0, "1/0"⟩, ⟨1, "1/1"⟩, ⟨3, "1/3"⟩] [⟨1, "(H=1, T=60)", some "aa"⟩] "S1" s t := by
  have runs : ∃ s, exec fourReplicas 1 Always (certifiedToPrimary "aa") genesis = some s ∧
      ∃ t, exec fourReplicas 2 Always (certifiedToBackup "aa") genesis = some t ∧
      preSendNewView fourReplicas [⟨0, "1/0"⟩, ⟨1, "1/1"⟩, ⟨3, "1/3"⟩]
        [⟨1, "(H=1, T=60)", some "aa"⟩] 1 s ∧ t.view = s.view ∧ 0 < s.view ∧
      Holds [⟨0, "1/0"⟩, ⟨1, "1/1"⟩, ⟨3, "1/3"⟩] s t ∧ NoCollision s ∧ NoCollision t ∧
      Numbers32 s := by
    decide +kernel
  obtain ⟨s, ran, t, ran', sends, views, positive, holds, safe, safe', numbers⟩ := runs
  refine ⟨s, t, ran, ran', (acceptedBy_iff_canonical (exec_reachable genesis_initial ran)
    (exec_reachable genesis_initial ran') sends (by decide) views positive holds safe safe' numbers
    roundTrips_id "S1").mpr ?_⟩
  intro e inside
  rw [List.mem_singleton.mp inside]
  exact ⟨"aa", rfl, true, rfl⟩

/-- The faulty replica 3 writes its block in capital letters, and no backup takes the NEW_VIEW. -/
theorem not_acceptedBy_capitals : ∃ s t,
    Reachable (Initial fourReplicas) (Step fourReplicas 1) s ∧
    Reachable (Initial fourReplicas) (Step fourReplicas 2) t ∧
    preSendNewView fourReplicas [⟨0, "1/0"⟩, ⟨1, "1/1"⟩, ⟨3, "1/3"⟩]
      [⟨1, "(H=1, T=60)", some "AA"⟩] 1 s ∧ t.view = s.view ∧ 0 < s.view ∧
    Holds [⟨0, "1/0"⟩, ⟨1, "1/1"⟩, ⟨3, "1/3"⟩] s t ∧
    ¬ AcceptedBy hexBlocks (fun j : Json => .ok (some j)) id fourReplicas 2 1
      [⟨0, "1/0"⟩, ⟨1, "1/1"⟩, ⟨3, "1/3"⟩] [⟨1, "(H=1, T=60)", some "AA"⟩] "S1" s t := by
  have runs : ∃ s, exec fourReplicas 1 Always (certifiedToPrimary "AA") genesis = some s ∧
      ∃ t, exec fourReplicas 2 Always (certifiedToBackup "AA") genesis = some t ∧
      preSendNewView fourReplicas [⟨0, "1/0"⟩, ⟨1, "1/1"⟩, ⟨3, "1/3"⟩]
        [⟨1, "(H=1, T=60)", some "AA"⟩] 1 s ∧ t.view = s.view ∧ 0 < s.view ∧
      Holds [⟨0, "1/0"⟩, ⟨1, "1/1"⟩, ⟨3, "1/3"⟩] s t ∧ NoCollision s ∧ NoCollision t ∧
      Numbers32 s := by
    decide +kernel
  obtain ⟨s, ran, t, ran', sends, views, positive, holds, safe, safe', numbers⟩ := runs
  have reached := exec_reachable genesis_initial ran
  have reached' := exec_reachable genesis_initial ran'
  refine ⟨s, t, reached, reached', sends, views, positive, holds, fun accepted => ?_⟩
  have digested := Digested.reachable reached
  have log := (PrePrepareLog.reachable reached).2
  have distinct := distinctDigests reached safe
  have arrives := arrives_of_acceptedBy distinct (distinctDigests reached' safe') digested log sends
    (by decide) views positive holds numbers roundTrips_id accepted
  have canonical := (arrives_iff_canonical distinct digested log numbers sends).mp arrives
  obtain ⟨text, written, block, same⟩ := canonical _ List.mem_cons_self
  cases written
  cases block <;> exact absurd same (by decide)

end Fbft
