import Fbft.JsonText
import Fbft.State

/-! The JSON values that the predicates `digest_*` write. A dict has the tag of its predicate, so
it tells what it was made of, and the text of a dict tells the dict. -/
namespace Fbft

open CppString

def PiEntry.cStr (e : PiEntry) : PiEntry := { e with reqDigest := CppString.cStr e.reqDigest }

def QiEntry.cStr (e : QiEntry) : QiEntry :=
  { e with reqDigest := CppString.cStr e.reqDigest, data := e.data.map CppString.cStr }

def ChiEntry.cStr (e : ChiEntry) : ChiEntry := { e with reqDigest := CppString.cStr e.reqDigest }

def PiEntry.json (e : PiEntry) : Json := .arr [.int e.n, .str e.reqDigest, .int e.v]

/-- A variable has no JSON text of its own. -/
def dataJson : Data → Json
  | some text => .str text
  | none => .null

def QiEntry.json (e : QiEntry) : Json :=
  .arr [.int e.n, .str e.reqDigest, dataJson e.data, .int e.v]

/-- The dict of `digest_view_change`, with its tag. -/
def viewChangeDict (v hi : ℕ) (c : String) (pi : List PiEntry) (qi : List QiEntry) (senderId : ℕ) :
    Json :=
  .obj [("name", .str "view_change"), ("view", .int v), ("hi", .int hi), ("c", .str c),
    ("pi", .arr (pi.map PiEntry.json)), ("qi", .arr (qi.map QiEntry.json)),
    ("sender_id", .int senderId)]

def NuEntry.json (e : NuEntry) : Json := .arr [.int e.j, .str e.d]

def ChiEntry.json (e : ChiEntry) : Json := .arr [.int e.n, .str e.reqDigest, dataJson e.data]

namespace Message

/-- The dicts of the predicates `digest_*`, with their tags. -/
def dict (senderId : ℕ) : Message → Json
  | prePrepare v n reqDigest data =>
    .obj [("name", .str "pre_prepare"), ("view", .int v), ("n", .int n),
      ("request_digest", .str reqDigest), ("data", .str data)]
  | prepare v n reqDigest =>
    .obj [("name", .str "prepare"), ("view", .int v), ("n", .int n),
      ("request_digest", .str reqDigest), ("sender_id", .int senderId)]
  | commit v n data =>
    .obj [("name", .str "commit"), ("v", .int v), ("n", .int n), ("data", .str data),
      ("sender_id", .int senderId)]
  | viewChange v hi c pi qi => viewChangeDict v hi c pi qi senderId
  | newView v nu chi =>
    .obj [("name", .str "new_view"), ("view", .int v), ("nu", .arr (nu.map NuEntry.json)),
      ("chi", .arr (chi.map ChiEntry.json))]
  | roastPreSignature signers preSignature =>
    .obj [("name", .str "roast_pre_signature"),
      ("signers", .arr (signers.map fun k : ℕ => Json.int k)),
      ("pre_signature", .str preSignature), ("sender_id", .int senderId)]
  | roastSignatureShare signatureShare nextPreSignatureShare =>
    .obj [("name", .str "roast_signature_share"), ("signature_share", .str signatureShare),
      ("next_pre_signature_share", .str nextPreSignatureShare), ("sender_id", .int senderId)]

/-- The dicts of a PRE_PREPARE and of a NEW_VIEW have no sender. -/
def namesSender : Message → Prop
  | prePrepare .. | newView .. => False
  | _ => True

end Message

theorem PiEntry.json_injective : Function.Injective PiEntry.json := by
  rintro ⟨n, reqDigest, v⟩ ⟨n', reqDigest', v'⟩ same
  simp only [json, Json.arr.injEq, List.cons.injEq, Json.int.injEq, Json.str.injEq, Nat.cast_inj,
    and_true] at same
  obtain ⟨rfl, rfl, rfl⟩ := same
  rfl

theorem dataJson_injective : Function.Injective dataJson := by
  intro a b same
  cases a with
  | none =>
    cases b with
    | none => rfl
    | some text => cases same
  | some text =>
    cases b with
    | none => cases same
    | some text' => exact congrArg some (Json.str.inj same)

theorem QiEntry.json_injective : Function.Injective QiEntry.json := by
  rintro ⟨n, reqDigest, data, v⟩ ⟨n', reqDigest', data', v'⟩ same
  simp only [json, Json.arr.injEq, List.cons.injEq, Json.int.injEq, Json.str.injEq, Nat.cast_inj,
    dataJson_injective.eq_iff, and_true] at same
  obtain ⟨rfl, rfl, rfl, rfl⟩ := same
  rfl

theorem viewChangeDict_inj {v hi v' hi' : ℕ} {c c' : String} {pi pi' : List PiEntry}
    {qi qi' : List QiEntry} {j j' : ℕ}
    (same : viewChangeDict v hi c pi qi j = viewChangeDict v' hi' c' pi' qi' j') :
    v = v' ∧ hi = hi' ∧ c = c' ∧ pi = pi' ∧ qi = qi' ∧ j = j' := by
  simp only [viewChangeDict, Json.obj.injEq, List.cons.injEq, Prod.mk.injEq, true_and, and_true,
    Json.int.injEq, Json.str.injEq, Json.arr.injEq, Nat.cast_inj,
    PiEntry.json_injective.list_map.eq_iff, QiEntry.json_injective.list_map.eq_iff] at same
  exact same

theorem written_dataJson (d : Data) : (dataJson d).Written := by
  cases d with
  | none => exact .null
  | some text => exact .str text

theorem written_arr_map {α : Type} {f : α → Json} {xs : List α} (written : ∀ x, (f x).Written) :
    Json.Written (.arr (xs.map f)) := by
  refine .arr fun e inside => ?_
  obtain ⟨x, -, rfl⟩ := List.mem_map.mp inside
  exact written x

theorem PiEntry.written_json (e : PiEntry) : e.json.Written := by
  refine .arr ?_
  simp only [List.forall_mem_cons, List.not_mem_nil, false_imp_iff, implies_true, and_true]
  exact ⟨.int _, .str _, .int _⟩

theorem QiEntry.written_json (e : QiEntry) : e.json.Written := by
  refine .arr ?_
  simp only [List.forall_mem_cons, List.not_mem_nil, false_imp_iff, implies_true, and_true]
  exact ⟨.int _, .str _, written_dataJson _, .int _⟩

theorem written_viewChangeDict (v hi : ℕ) (c : String) (pi : List PiEntry) (qi : List QiEntry)
    (senderId : ℕ) : Json.Written (viewChangeDict v hi c pi qi senderId) := by
  refine .obj ?_
  simp only [List.forall_mem_cons, List.not_mem_nil, false_imp_iff, implies_true, and_true]
  exact ⟨.str _, .int _, .int _, .str _, written_arr_map PiEntry.written_json,
    written_arr_map QiEntry.written_json, .int _⟩

theorem NuEntry.json_injective : Function.Injective NuEntry.json := by
  rintro ⟨j, d⟩ ⟨j', d'⟩ same
  simp only [json, Json.arr.injEq, List.cons.injEq, Json.int.injEq, Json.str.injEq, Nat.cast_inj,
    and_true] at same
  obtain ⟨rfl, rfl⟩ := same
  rfl

theorem ChiEntry.json_injective : Function.Injective ChiEntry.json := by
  rintro ⟨n, reqDigest, data⟩ ⟨n', reqDigest', data'⟩ same
  simp only [json, Json.arr.injEq, List.cons.injEq, Json.int.injEq, Json.str.injEq, Nat.cast_inj,
    dataJson_injective.eq_iff, and_true] at same
  obtain ⟨rfl, rfl, rfl⟩ := same
  rfl

theorem NuEntry.written_json (e : NuEntry) : e.json.Written := by
  refine .arr ?_
  simp only [List.forall_mem_cons, List.not_mem_nil, false_imp_iff, implies_true, and_true]
  exact ⟨.int _, .str _⟩

theorem ChiEntry.written_json (e : ChiEntry) : e.json.Written := by
  refine .arr ?_
  simp only [List.forall_mem_cons, List.not_mem_nil, false_imp_iff, implies_true, and_true]
  exact ⟨.int _, .str _, written_dataJson _⟩

theorem intJson_injective : Function.Injective fun k : ℕ => Json.int k := by
  intro k k' same
  simpa using same

namespace Message

variable {m m' : Message} {j j' : ℕ}

theorem dict_inj : m.dict j = m'.dict j' ↔ m = m' ∧ (m.namesSender → j = j') := by
  constructor
  · intro same
    cases m <;> cases m' <;>
      simp only [dict, viewChangeDict, Json.obj.injEq, List.cons.injEq, Prod.mk.injEq,
        Json.int.injEq, Json.str.injEq, Json.arr.injEq, Nat.cast_inj,
        PiEntry.json_injective.list_map.eq_iff, QiEntry.json_injective.list_map.eq_iff,
        NuEntry.json_injective.list_map.eq_iff, ChiEntry.json_injective.list_map.eq_iff,
        intJson_injective.list_map.eq_iff,
        String.reduceEq, true_and, and_true, false_and, and_false, reduceCtorEq] at same <;>
      simp [namesSender, same]
  · rintro ⟨rfl, sender⟩
    cases m with
    | prePrepare | newView => rfl
    | _ => rw [sender trivial]

theorem written_dict (m : Message) (senderId : ℕ) : (m.dict senderId).Written := by
  cases m with
  | viewChange v hi c pi qi => exact written_viewChangeDict ..
  | prePrepare | prepare | commit | newView | roastPreSignature | roastSignatureShare =>
    refine .obj ?_
    simp only [List.forall_mem_cons, List.not_mem_nil, false_imp_iff, implies_true, and_true]
    first
    | exact ⟨.str _, .int _, .int _, .str _, .str _⟩
    | exact ⟨.str _, .int _, .int _, .str _, .int _⟩
    | exact ⟨.str _, .int _, written_arr_map NuEntry.written_json,
        written_arr_map ChiEntry.written_json⟩
    | exact ⟨.str _, written_arr_map fun k => .int k, .str _, .int _⟩
    | exact ⟨.str _, .str _, .str _, .int _⟩

end Message

end Fbft
