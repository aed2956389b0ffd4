import Fbft.Incoming

/-! Which JSON values a constructor reads. The format is one definition with the rules as a
parameter: read leniently it says when a constructor returns, and read strictly what a
well-formed message is. -/
namespace Fbft

open CppString Throwing Messages

structure Rules where
  fields : Json → Prop
  kind : MsgType → Json → Prop
  sender : Json → Prop
  uint : Json → Prop
  text : Json → Prop
  list : String → Json → Prop

/-- The conversions of the accessors. -/
def lenient : Rules where
  fields := Json.HasMembers
  kind _ _ := True
  sender := Json.ReadsAsUInt
  uint := Json.ReadsAsUInt
  text := Json.ReadsAsString
  list _ _ := True

/-- No conversion, and every sender is a replica. An empty list is written as null. -/
def strict (cfg : Config) : Rules where
  fields := Json.IsObject
  kind t j := j = .int t.number
  sender j := j.IsUInt ∧ ∃ id < cfg.clusterSize, j = .int id
  uint := Json.IsUInt
  text := Json.IsString
  list key j := ∃ value, j.lookup key = some value ∧ (value = .null ∨ value.IsArray)

def payload (root : Json) : Json := root.get "payload"

namespace Rules

variable {Block : Type} (r : Rules) (codec : BlockCodec Block)

structure Header (t : MsgType) (root : Json) : Prop where
  rootFields : r.fields root
  payloadFields : r.fields (payload root)
  kind : r.kind t ((payload root).get "type")
  senderId : r.sender ((payload root).get "sender_id")
  signature : r.text (root.get "signature")

structure CommitFields (root : Json) : Prop where
  v : r.uint ((payload root).get "v")
  n : r.uint ((payload root).get "n")
  data : r.text ((payload root).get "data")

structure PrepareFields (root : Json) : Prop where
  v : r.uint ((payload root).get "v")
  n : r.uint ((payload root).get "n")
  reqDigest : r.text ((payload root).get "req_digest")

structure PrePrepareFields (root : Json) : Prop where
  v : r.uint ((payload root).get "v")
  n : r.uint ((payload root).get "n")
  reqDigest : r.text ((payload root).get "req_digest")
  data : r.text ((payload root).get "data")
  block : ∀ text, ((payload root).get "data").asString = .ok text → Returns (codec.parse text)

structure PiElem (e : Json) : Prop where
  fields : r.fields e
  n : r.uint (e.get "n")
  reqDigest : r.text (e.get "req_digest")
  v : r.uint (e.get "v")

structure QiElem (e : Json) : Prop where
  fields : r.fields e
  n : r.uint (e.get "n")
  reqDigest : r.text (e.get "req_digest")
  data : r.text (e.get "data")
  v : r.uint (e.get "v")

structure ViewChangeFields (root : Json) : Prop where
  v : r.uint ((payload root).get "v")
  hi : r.uint ((payload root).get "hi")
  c : r.text ((payload root).get "c")
  piList : r.list "pi" (payload root)
  pi : ∀ e ∈ ((payload root).get "pi").elements, r.PiElem e
  qiList : r.list "qi" (payload root)
  qi : ∀ e ∈ ((payload root).get "qi").elements, r.QiElem e

structure NewViewFields (root : Json) : Prop where
  v : r.uint ((payload root).get "v")
  nuList : r.list "nu" (payload root)
  nu : ∀ e ∈ ((payload root).get "nu").elements, r.Header .viewChange e ∧ r.ViewChangeFields e
  chiList : r.list "chi" (payload root)
  chi : ∀ e ∈ ((payload root).get "chi").elements,
    r.Header .prePrepare e ∧ r.PrePrepareFields codec e

structure RoastPreSignatureFields (root : Json) : Prop where
  preSignature : r.text ((payload root).get "pre_signature")
  signersList : r.list "signers" (payload root)
  signers : ∀ e ∈ ((payload root).get "signers").elements, r.uint e

structure RoastSignatureShareFields (root : Json) : Prop where
  signatureShare : r.text ((payload root).get "signature_share")
  nextPreSignatureShare : r.text ((payload root).get "next_pre_sig_share")

/-- The fields that the constructor of a type reads. -/
def Fits (root : Json) (t : MsgType) : Prop :=
  r.Header t root ∧ match t with
    | .commit => r.CommitFields root
    | .newView => r.NewViewFields codec root
    | .prepare => r.PrepareFields root
    | .prePrepare => r.PrePrepareFields codec root
    | .roastPreSignature => r.RoastPreSignatureFields root
    | .roastSignatureShare => r.RoastSignatureShareFields root
    | .viewChange => r.ViewChangeFields root
    | .block | .request => False

end Rules

section

variable {Block : Type} {codec : BlockCodec Block} {root j value : Json} {key : String}

theorem memberAt_eq_ok_iff : memberAt key j = .ok value ↔ j.HasMembers ∧ value = j.get key := by
  rw [memberAt, mapError_eq_ok_iff, Json.member_eq_ok_iff]

theorem returns_uintAt : Returns (uintAt key j) ↔ j.HasMembers ∧ (j.get key).ReadsAsUInt := by
  simp only [uintAt, returns_mapError, returns_bind, Json.member_eq_ok_iff, and_assoc,
    exists_and_left, exists_eq_left, Json.returns_asUInt]

theorem returns_textAt : Returns (textAt key j) ↔ j.HasMembers ∧ (j.get key).ReadsAsString := by
  simp only [textAt, returns_mapError, returns_bind, Json.member_eq_ok_iff, and_assoc,
    exists_and_left, exists_eq_left, Json.returns_asString]

variable (root) in
def HasPayload : Prop := root.HasMembers ∧ (payload root).HasMembers

theorem payloadMember_eq_ok_iff :
    payloadMember root key = .ok value ↔ HasPayload root ∧ value = (payload root).get key := by
  simp only [payloadMember, bind_eq_ok_iff, memberAt_eq_ok_iff, and_assoc, exists_and_left,
    exists_eq_left, HasPayload]
  rfl

theorem payloadUInt_eq_ok_iff {k : ℕ} : payloadUInt root key = .ok k ↔
    HasPayload root ∧ ((payload root).get key).asUInt = .ok k := by
  simp only [payloadUInt, uintAt, bind_eq_ok_iff, mapError_eq_ok_iff, memberAt_eq_ok_iff,
    Json.member_eq_ok_iff, and_assoc, exists_and_left, exists_eq_left, HasPayload]
  rfl

theorem returns_payloadUInt : Returns (payloadUInt root key) ↔
    HasPayload root ∧ ((payload root).get key).ReadsAsUInt := by
  simp only [payloadUInt, returns_bind, memberAt_eq_ok_iff, and_assoc, exists_and_left,
    exists_eq_left, returns_uintAt, HasPayload]
  rfl

theorem returns_payloadText : Returns (payloadText root key) ↔
    HasPayload root ∧ ((payload root).get key).ReadsAsString := by
  simp only [payloadText, returns_bind, memberAt_eq_ok_iff, and_assoc, exists_and_left,
    exists_eq_left, returns_textAt, HasPayload]
  rfl

theorem returns_header {t : MsgType} : Returns (header root) ↔ lenient.Header t root := by
  have rest : ∀ senderId, payloadUInt root "sender_id" = .ok senderId →
      (Returns (textAt "signature" root >>= fun signature => pure (senderId, signature)) ↔
        root.HasMembers ∧ (root.get "signature").ReadsAsString) := by
    intro senderId _
    rw [returns_bind_of_forall fun signature _ => iff_of_true (returns_pure _) trivial,
      and_true, returns_textAt]
  rw [header, returns_bind_of_forall rest, returns_payloadUInt]
  constructor
  · rintro ⟨⟨⟨rootFields, payloadFields⟩, senderId⟩, -, signature⟩
    exact ⟨rootFields, payloadFields, trivial, senderId, signature⟩
  · intro head
    exact ⟨⟨⟨head.rootFields, head.payloadFields⟩, head.senderId⟩, head.rootFields, head.signature⟩

theorem payloadText_eq_ok_iff {text : String} : payloadText root key = .ok text ↔
    HasPayload root ∧ ((payload root).get key).asString = .ok text := by
  simp only [payloadText, textAt, bind_eq_ok_iff, mapError_eq_ok_iff, memberAt_eq_ok_iff,
    Json.member_eq_ok_iff, and_assoc, exists_and_left, exists_eq_left, HasPayload]
  rfl

theorem returns_header_bind (t : MsgType) {f : ℕ × String → Except Fault α} {p : Prop}
    (rest : HasPayload root → ∀ senderId signature, Returns (f (senderId, signature)) ↔ p) :
    Returns (header root >>= f) ↔ lenient.Header t root ∧ p := by
  rw [← returns_header (t := t)]
  refine returns_bind_of_forall fun head read => ?_
  have fits : lenient.Header t root := returns_header.mp ⟨head, read⟩
  exact rest ⟨fits.rootFields, fits.payloadFields⟩ head.1 head.2

theorem returns_commit : Returns (Messages.Commit.ofJson root) ↔
    lenient.Header .commit root ∧ lenient.CommitFields root := by
  refine returns_header_bind .commit fun has senderId signature => ?_
  simp only [returns_bind, exists_and_right, returns_pure, and_true, exists_eq_ok,
    returns_payloadUInt, returns_payloadText, has, true_and]
  constructor
  · rintro ⟨v, n, data⟩
    exact ⟨v, n, data⟩
  · rintro ⟨v, n, data⟩
    exact ⟨v, n, data⟩

theorem returns_prepare : Returns (Messages.Prepare.ofJson root) ↔
    lenient.Header .prepare root ∧ lenient.PrepareFields root := by
  refine returns_header_bind .prepare fun has senderId signature => ?_
  simp only [returns_bind, exists_and_right, returns_pure, and_true, exists_eq_ok,
    returns_payloadUInt, returns_payloadText, has, true_and]
  constructor
  · rintro ⟨v, n, data⟩
    exact ⟨v, n, data⟩
  · rintro ⟨v, n, data⟩
    exact ⟨v, n, data⟩

theorem returns_prePrepare : Returns (Messages.PrePrepare.ofJson codec root) ↔
    lenient.Header .prePrepare root ∧ lenient.PrePrepareFields codec root := by
  refine returns_header_bind .prePrepare fun has senderId signature => ?_
  simp only [returns_bind, exists_and_right, returns_pure, and_true, exists_eq_ok,
    returns_payloadUInt, payloadText_eq_ok_iff, returns_mapError, has, true_and,
    Json.returns_asString]
  constructor
  · rintro ⟨v, n, reqDigest, text, read, parsed⟩
    refine ⟨v, n, reqDigest, Json.returns_asString.mp ⟨text, read⟩, fun text' read' => ?_⟩
    cases read.symm.trans read'
    exact parsed
  · rintro ⟨v, n, reqDigest, data, block⟩
    obtain ⟨text, read⟩ := Json.returns_asString.mpr data
    exact ⟨v, n, reqDigest, text, read, block text read⟩

theorem returns_piElem {e : Json} : Returns (piElem e) ↔ lenient.PiElem e := by
  simp only [piElem, returns_bind, exists_and_right, returns_pure, and_true, exists_eq_ok,
    returns_uintAt, returns_textAt]
  constructor
  · rintro ⟨⟨fields, n⟩, ⟨-, d⟩, -, v⟩
    exact ⟨fields, n, d, v⟩
  · rintro ⟨fields, n, d, v⟩
    exact ⟨⟨fields, n⟩, ⟨fields, d⟩, fields, v⟩

theorem returns_qiElem {e : Json} : Returns (qiElem e) ↔ lenient.QiElem e := by
  simp only [qiElem, returns_bind, exists_and_right, returns_pure, and_true, exists_eq_ok,
    returns_uintAt, returns_textAt]
  constructor
  · rintro ⟨⟨fields, n⟩, ⟨-, d⟩, ⟨-, data⟩, -, v⟩
    exact ⟨fields, n, d, data, v⟩
  · rintro ⟨fields, n, d, data, v⟩
    exact ⟨⟨fields, n⟩, ⟨fields, d⟩, ⟨fields, data⟩, fields, v⟩

theorem returns_viewChange : Returns (Messages.ViewChange.ofJson root) ↔
    lenient.Header .viewChange root ∧ lenient.ViewChangeFields root := by
  refine returns_header_bind .viewChange fun has senderId signature => ?_
  simp only [returns_bind, exists_and_right, returns_pure, and_true, exists_eq_ok,
    returns_payloadUInt, returns_payloadText, payloadMember_eq_ok_iff, has, true_and,
    exists_eq_left, returns_mapM, returns_piElem, returns_qiElem]
  constructor
  · rintro ⟨v, hi, c, pi, qi⟩
    exact ⟨v, hi, c, trivial, pi, trivial, qi⟩
  · rintro ⟨v, hi, c, -, pi, -, qi⟩
    exact ⟨v, hi, c, pi, qi⟩

theorem returns_newView : Returns (Messages.NewView.ofJson codec root) ↔
    lenient.Header .newView root ∧ lenient.NewViewFields codec root := by
  refine returns_header_bind .newView fun has senderId signature => ?_
  simp only [returns_bind, exists_and_right, returns_pure, and_true, exists_eq_ok,
    returns_payloadUInt, payloadMember_eq_ok_iff, has, true_and, exists_eq_left, returns_mapM,
    returns_viewChange, returns_prePrepare]
  constructor
  · rintro ⟨v, nu, chi⟩
    exact ⟨v, trivial, nu, trivial, chi⟩
  · rintro ⟨v, -, nu, -, chi⟩
    exact ⟨v, nu, chi⟩

theorem returns_roastPreSignature : Returns (Messages.RoastPreSignature.ofJson root) ↔
    lenient.Header .roastPreSignature root ∧ lenient.RoastPreSignatureFields root := by
  refine returns_header_bind .roastPreSignature fun has senderId signature => ?_
  simp only [returns_bind, exists_and_right, returns_pure, and_true, exists_eq_ok,
    returns_payloadText, payloadMember_eq_ok_iff, has, true_and, exists_eq_left, returns_mapM,
    returns_mapError, Json.returns_asUInt]
  constructor
  · rintro ⟨preSignature, signers⟩
    exact ⟨preSignature, trivial, signers⟩
  · rintro ⟨preSignature, -, signers⟩
    exact ⟨preSignature, signers⟩

theorem returns_roastSignatureShare : Returns (Messages.RoastSignatureShare.ofJson root) ↔
    lenient.Header .roastSignatureShare root ∧ lenient.RoastSignatureShareFields root := by
  refine returns_header_bind .roastSignatureShare fun has senderId signature => ?_
  simp only [returns_bind, exists_and_right, returns_pure, and_true, exists_eq_ok,
    returns_payloadText, has, true_and]
  constructor
  · rintro ⟨share, next⟩
    exact ⟨share, next⟩
  · rintro ⟨share, next⟩
    exact ⟨share, next⟩

theorem built_iff {M : Type} {x : Except Fault M} {f : M → Incoming Block} {msg : Incoming Block} :
    (some ∘ f) <$> x = .ok (some msg) ↔ ∃ m, x = .ok m ∧ f m = msg := by
  simp only [map_eq_ok_iff, Function.comp_apply, Option.some.injEq]

theorem returns_ofJson {t : MsgType} :
    (∃ msg, Incoming.ofJson codec root t = .ok (some msg)) ↔ lenient.Fits codec root t := by
  have built : ∀ {M : Type} {x : Except Fault M} {f : M → Incoming Block},
      (∃ msg, (some ∘ f) <$> x = .ok (some msg)) ↔ Returns x := by
    intro M x f
    simp only [built_iff]
    constructor
    · rintro ⟨msg, m, read, -⟩
      exact ⟨m, read⟩
    · rintro ⟨m, read⟩
      exact ⟨f m, m, read, rfl⟩
  cases t with
  | commit => exact built.trans returns_commit
  | newView => exact built.trans returns_newView
  | prepare => exact built.trans returns_prepare
  | prePrepare => exact built.trans returns_prePrepare
  | roastPreSignature => exact built.trans returns_roastPreSignature
  | roastSignatureShare => exact built.trans returns_roastSignatureShare
  | viewChange => exact built.trans returns_viewChange
  | block => exact iff_of_false (fun ⟨_, same⟩ => nomatch same) (fun fits => fits.2)
  | request => exact iff_of_false (fun ⟨_, same⟩ => nomatch same) (fun fits => fits.2)

theorem sender_of_header {head : ℕ × String} (read : header root = .ok head) :
    ((payload root).get "sender_id").asUInt = .ok head.1 := by
  obtain ⟨senderId, found, rest⟩ := bind_eq_ok_iff.mp read
  obtain ⟨signature, -, same⟩ := bind_eq_ok_iff.mp rest
  cases same
  exact (payloadUInt_eq_ok_iff.mp found).2

theorem sender_of_ofJson {t : MsgType} {msg : Incoming Block}
    (built : Incoming.ofJson codec root t = .ok (some msg)) :
    ((payload root).get "sender_id").asUInt = .ok msg.senderId := by
  cases t with
  | commit =>
    obtain ⟨m, read, rfl⟩ := built_iff.mp built
    simp only [Messages.Commit.ofJson, bind_eq_ok_iff] at read
    obtain ⟨head, first, _, -, _, -, _, -, same⟩ := read
    cases same
    exact sender_of_header first
  | newView =>
    obtain ⟨m, read, rfl⟩ := built_iff.mp built
    simp only [Messages.NewView.ofJson, bind_eq_ok_iff] at read
    obtain ⟨head, first, _, -, _, -, _, -, _, -, _, -, same⟩ := read
    cases same
    exact sender_of_header first
  | prepare =>
    obtain ⟨m, read, rfl⟩ := built_iff.mp built
    simp only [Messages.Prepare.ofJson, bind_eq_ok_iff] at read
    obtain ⟨head, first, _, -, _, -, _, -, same⟩ := read
    cases same
    exact sender_of_header first
  | prePrepare =>
    obtain ⟨m, read, rfl⟩ := built_iff.mp built
    simp only [Messages.PrePrepare.ofJson, bind_eq_ok_iff] at read
    obtain ⟨head, first, _, -, _, -, _, -, _, -, _, -, same⟩ := read
    cases same
    exact sender_of_header first
  | roastPreSignature =>
    obtain ⟨m, read, rfl⟩ := built_iff.mp built
    simp only [Messages.RoastPreSignature.ofJson, bind_eq_ok_iff] at read
    obtain ⟨head, first, _, -, _, -, _, -, same⟩ := read
    cases same
    exact sender_of_header first
  | roastSignatureShare =>
    obtain ⟨m, read, rfl⟩ := built_iff.mp built
    simp only [Messages.RoastSignatureShare.ofJson, bind_eq_ok_iff] at read
    obtain ⟨head, first, _, -, _, -, same⟩ := read
    cases same
    exact sender_of_header first
  | viewChange =>
    obtain ⟨m, read, rfl⟩ := built_iff.mp built
    simp only [Messages.ViewChange.ofJson, bind_eq_ok_iff] at read
    obtain ⟨head, first, _, -, _, -, _, -, _, -, _, -, _, -, _, -, same⟩ := read
    cases same
    exact sender_of_header first
  | block => cases built
  | request => cases built

/-- Cutting the last character of the list of signers is defined when there is a signer. -/
theorem signers_of_ofJson {m : Messages.RoastPreSignature}
    (read : Messages.RoastPreSignature.ofJson root = .ok m) :
    m.signers = [] ↔ ((payload root).get "signers").elements = [] := by
  simp only [Messages.RoastPreSignature.ofJson, bind_eq_ok_iff] at read
  obtain ⟨head, -, preSignature, -, list, there, signers, converted, same⟩ := read
  cases same
  obtain ⟨-, rfl⟩ := payloadMember_eq_ok_iff.mp there
  have lengths := (mapM_eq_ok_iff.mp converted).length_eq
  rw [← List.length_eq_zero_iff, ← List.length_eq_zero_iff, lengths]

end

end Fbft
