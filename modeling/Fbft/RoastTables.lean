import Fbft.Roast

/-! The ROAST tables as maps: each setter retracts before it asserts, so a lookup after
it is a lookup in an updated map. -/
namespace Fbft

open Database

variable {cfg : Config} {i j k sid : ℕ} {r r' : Roast}

theorem find?_filter_ne {α : Type} (key : α → ℕ) (table : List α) (j k : ℕ) :
    (table.filter fun e => key e ≠ k).find? (fun e => key e = j) =
      if j = k then none else table.find? fun e => key e = j := by
  induction table with
  | nil => simp
  | cons e table ih =>
    by_cases removed : key e = k
    · by_cases same : j = k
      · simp [same]
      · have other : ¬ k = j := fun eq => same eq.symm
        simpa [removed, same, other] using ih
    · by_cases found : key e = j
      · have other : ¬ j = k := fun eq => removed (found.trans eq)
        simp [found, other]
      · simpa [removed, found] using ih

theorem find?_assertz_key {α : Type} [DecidableEq α] (key : α → ℕ) (table : List α) (j : ℕ)
    (x : α) : (assertzOnce x (table.filter fun e => key e ≠ key x)).find? (fun e => key e = j) =
      if j = key x then some x else table.find? fun e => key e = j := by
  have absent : x ∉ table.filter fun e => key e ≠ key x := by simp
  rw [assertzOnce_of_not_mem absent, List.find?_append, find?_filter_ne]
  by_cases same : j = key x
  · simp [same]
  · have other : ¬ key x = j := fun eq => same eq.symm
    simp [same, other]

@[simp] theorem roastSignersSid_setRoastSignersSid :
    roastSignersSid j (setRoastSignersSid k sid r) =
      if j = k then some sid else roastSignersSid j r := by
  simp only [roastSignersSid, setRoastSignersSid]
  rw [find?_assertz_key Prod.fst r.signersSid j (k, sid)]
  by_cases same : j = k <;> simp [same]

@[simp] theorem roastSignatureSession_setRoastSignatureSession {session : SignatureSession} :
    roastSignatureSession sid (setRoastSignatureSession session r) =
      if sid = session.sessionId then some session else roastSignatureSession sid r :=
  find?_assertz_key SignatureSession.sessionId r.signatureSession sid session

theorem assignSignersSid_frame (signers : List ℕ) (sid : ℕ) (r : Roast) :
    (assignSignersSid signers sid r).active = r.active ∧
    (assignSignersSid signers sid r).responsiveSigner = r.responsiveSigner ∧
    (assignSignersSid signers sid r).maliciousSigner = r.maliciousSigner ∧
    (assignSignersSid signers sid r).latestPreSignatureShare = r.latestPreSignatureShare ∧
    (assignSignersSid signers sid r).sessionCounter = r.sessionCounter ∧
    (assignSignersSid signers sid r).signatureSession = r.signatureSession ∧
    (assignSignersSid signers sid r).msgOut = r.msgOut := by
  induction signers generalizing r with
  | nil => simp [assignSignersSid]
  | cons k signers ih => exact ih (setRoastSignersSid k sid r)

theorem roastSignersSid_assignSignersSid (signers : List ℕ) (sid : ℕ) (r : Roast) :
    roastSignersSid j (assignSignersSid signers sid r) =
      if j ∈ signers then some sid else roastSignersSid j r := by
  induction signers generalizing r with
  | nil => simp [assignSignersSid]
  | cons k signers ih =>
    have rest := ih (setRoastSignersSid k sid r)
    rw [roastSignersSid_setRoastSignersSid] at rest
    simp only [assignSignersSid, List.foldl_cons] at rest ⊢
    rw [rest]
    by_cases later : j ∈ signers
    · simp [later]
    · by_cases same : j = k <;> simp [same, later]

theorem mem_setRoastSignatureSession {e session : SignatureSession} :
    e ∈ (setRoastSignatureSession session r).signatureSession ↔
      (e ∈ r.signatureSession ∧ e.sessionId ≠ session.sessionId) ∨ e = session := by
  simp [setRoastSignatureSession]

theorem mem_setLatestPreSignatureShare {x : ℕ × String} {share : String} :
    x ∈ (setLatestPreSignatureShare j share r).latestPreSignatureShare ↔
      (x ∈ r.latestPreSignatureShare ∧ x.1 ≠ j) ∨ x = (j, share) := by
  simp [setLatestPreSignatureShare]

theorem roastSignatureSession_spec {session : SignatureSession}
    (h : roastSignatureSession sid r = some session) :
    session ∈ r.signatureSession ∧ session.sessionId = sid := by
  exact ⟨List.mem_of_find?_eq_some h, by simpa using List.find?_some h⟩

theorem markUnsolicited_of_mem (responsive : j ∈ r.responsiveSigner) :
    markUnsolicited j r = roastMarkMalicious j r := if_pos responsive

theorem markUnsolicited_of_not_mem (quiet : j ∉ r.responsiveSigner) : markUnsolicited j r = r :=
  if_neg quiet

theorem mem_maliciousSigner_markUnsolicited :
    k ∈ (markUnsolicited j r).maliciousSigner ↔
      k ∈ r.maliciousSigner ∨ (k = j ∧ j ∈ r.responsiveSigner) := by
  by_cases responsive : j ∈ r.responsiveSigner <;>
    simp [markUnsolicited, roastMarkMalicious, responsive]

theorem markUnsolicited_frame (j : ℕ) (r : Roast) :
    ∃ malicious, markUnsolicited j r = { r with maliciousSigner := malicious } ∧
      (j ∉ r.responsiveSigner → malicious = r.maliciousSigner) := by
  by_cases responsive : j ∈ r.responsiveSigner
  · exact ⟨_, markUnsolicited_of_mem responsive, fun not => absurd responsive not⟩
  · exact ⟨_, markUnsolicited_of_not_mem responsive, fun _ => rfl⟩

/-- The share is in the session of its signer, at the end of the shares it has. -/
theorem storeSignatureShare_of_some {share : Option String} (recorded : roastSignersSid j r = some sid)
    (store : storeSignatureShare j share r = some r') :
    ∃ e, roastSignatureSession sid r = some e ∧ (∃ x ∈ r.latestPreSignatureShare, x.1 = j) ∧
      r' = setRoastSignatureSession
        { e with signatureShares := e.signatureShares ++ [share] } r := by
  simp only [storeSignatureShare, recorded] at store
  split at store
  · cases store
  rename_i e found
  split at store
  · rename_i latest
    cases store
    exact ⟨e, found, by simpa using latest, rfl⟩
  · cases store

/-- Without a session on record for the signer nothing is stored; with one, the share is
appended to it. -/
theorem storeSignatureShare_spec {share : Option String} (h : storeSignatureShare j share r = some r') :
    (roastSignersSid j r = none ∧ r' = r) ∨
    ∃ session ∈ r.signatureSession, roastSignersSid j r = some session.sessionId ∧
      r' = setRoastSignatureSession
        { session with signatureShares := session.signatureShares ++ [share] } r := by
  cases recorded : roastSignersSid j r with
  | none =>
    simp only [storeSignatureShare, recorded] at h
    exact Or.inl ⟨rfl, (Option.some.inj h).symm⟩
  | some sid =>
    obtain ⟨session, found, -, rfl⟩ := storeSignatureShare_of_some recorded h
    obtain ⟨inside, rfl⟩ := roastSignatureSession_spec found
    exact Or.inr ⟨session, inside, rfl, rfl⟩

theorem final_setRoastSignatureSession_iff {session : SignatureSession} (running : r.active.isSome)
    (notFinal : ¬ roastFinalSignatureSession cfg r) :
    roastFinalSignatureSession cfg (setRoastSignatureSession session r) ↔
      session.signatureShares.length = sigQuorum cfg := by
  constructor
  · rintro ⟨-, e, inside, full⟩
    rcases mem_setRoastSignatureSession.mp inside with ⟨old, -⟩ | rfl
    · exact absurd ⟨running, e, old, full⟩ notFinal
    · exact full
  · intro full
    exact ⟨running, session, mem_setRoastSignatureSession.mpr (Or.inr rfl), full⟩

def nextSession (counter : ℕ) (r : Roast) : SignatureSession :=
  ⟨counter + 1, r.responsiveSigner,
    roastCryptoPreSigAggregate (lookupPreSignatureShares r.responsiveSigner r), []⟩

theorem initiateSession_spec (h : initiateSession cfg r = some r') :
    (r.responsiveSigner.length ≠ sigQuorum cfg ∧ r' = r) ∨
    (r.responsiveSigner.length = sigQuorum cfg ∧ ∃ counter, r.sessionCounter = some counter ∧
      r'.active = r.active ∧ r'.responsiveSigner = [] ∧
      r'.maliciousSigner = r.maliciousSigner ∧
      r'.latestPreSignatureShare = r.latestPreSignatureShare ∧
      r'.sessionCounter = some (counter + 1) ∧
      (∀ j, roastSignersSid j r' =
        if j ∈ r.responsiveSigner then some (counter + 1) else roastSignersSid j r) ∧
      (∀ e, e ∈ r'.signatureSession ↔
        (e ∈ r.signatureSession ∧ e.sessionId ≠ counter + 1) ∨ e = nextSession counter r) ∧
      ∀ m ∈ r'.msgOut, m ∈ r.msgOut ∨
        m = .roastPreSignature r.responsiveSigner (nextSession counter r).preSignature) := by
  simp only [initiateSession] at h
  split at h
  · rename_i enough
    obtain ⟨counter, current, rfl⟩ := Option.map_eq_some_iff.mp h
    obtain ⟨active, responsive, malicious, latest, counter', session, out⟩ :=
      assignSignersSid_frame r.responsiveSigner (counter + 1) (setRoastSessionCounter (counter + 1) r)
    refine Or.inr ⟨enough, counter, current, active, rfl, malicious, latest, counter', fun j => ?_,
      fun e => ?_, fun m inside => ?_⟩
    · exact roastSignersSid_assignSignersSid _ _ _
    · simp only [roastClearResponsiveSigners, mem_setRoastSignatureSession, nextSession,
        roastMsgOutAdd]
      rw [session]
      exact Iff.rfl
    · simp only [roastClearResponsiveSigners, setRoastSignatureSession, roastMsgOutAdd,
        mem_assertzOnce] at inside
      rw [out] at inside
      exact inside
  · rename_i few
    exact Or.inl ⟨few, (Option.some.inj h).symm⟩

theorem initiateSession_sessions (h : initiateSession cfg r = some r') :
    r' = r ∨ ∃ counter, r.sessionCounter = some counter ∧
      r'.sessionCounter = some (counter + 1) ∧
      r'.signatureSession = (setRoastSignatureSession (nextSession counter r) r).signatureSession := by
  simp only [initiateSession] at h
  split at h
  · obtain ⟨counter, current, rfl⟩ := Option.map_eq_some_iff.mp h
    obtain ⟨-, -, -, -, counter', session, -⟩ :=
      assignSignersSid_frame r.responsiveSigner (counter + 1) (setRoastSessionCounter (counter + 1) r)
    refine Or.inr ⟨counter, current, counter', ?_⟩
    simp only [roastClearResponsiveSigners, setRoastSignatureSession, roastMsgOutAdd, nextSession]
    rw [session]
    rfl
  · exact Or.inl (Option.some.inj h).symm

theorem roastSignatureSession_initiateSession {counter : ℕ} (h : initiateSession cfg r = some r')
    (current : r.sessionCounter = some counter) (next : r'.sessionCounter = some (counter + 1)) :
    roastSignatureSession sid r' =
      if sid = counter + 1 then some (nextSession counter r) else roastSignatureSession sid r := by
  rcases initiateSession_sessions h with rfl | ⟨counter', current', -, sessions⟩
  · rw [current] at next
    simp at next
  · obtain rfl : counter = counter' := Option.some.inj (current.symm.trans current')
    simp only [roastSignatureSession, sessions]
    exact roastSignatureSession_setRoastSignatureSession

/-- Success means an active run that is not final, coordinated here; then the share is
stored, and unless that was the last one the signer turns responsive. -/
theorem applyReceiveSigShare_spec {share : Option String} {next : String}
    (h : applyReceiveSigShare cfg j share next i r = some r') :
    ∃ active, r.active = some active ∧ ¬ roastFinalSignatureSession cfg r ∧
      primary cfg active.v = i ∧
      ∃ stored, storeSignatureShare j share (markUnsolicited j r) = some stored ∧
        ((roastFinalSignatureSession cfg stored ∧ r' = stored) ∨
          (¬ roastFinalSignatureSession cfg stored ∧
            initiateSession cfg (roastMarkResponsive j (setLatestPreSignatureShare j next stored)) =
              some r')) := by
  simp only [applyReceiveSigShare] at h
  split at h
  · cases h
  rename_i active running
  split at h
  · cases h
  rename_i notFinal
  split at h
  · cases h
  rename_i coordinator
  obtain ⟨stored, store, rest⟩ := Option.bind_eq_some_iff.mp h
  refine ⟨active, running, notFinal, not_ne_iff.mp coordinator, stored, store, ?_⟩
  split at rest
  · rename_i final
    exact Or.inl ⟨final, (Option.some.inj rest).symm⟩
  · rename_i notFinal'
    exact Or.inr ⟨notFinal', rest⟩

end Fbft
