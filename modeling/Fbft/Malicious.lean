import Fbft.Redelivery

/-! What becomes of a malicious signer. The coordinator marks him and goes on: his share is
stored, he stays responsive, and the table of malicious signers is never read. -/
namespace Fbft

open Database LabelledPath

variable {cfg : Config} {i j k : ℕ} {s : Replica} {r r' r₁ : Roast} {share : Option String}
  {next : String} {labels : List (ℚ × Action)} {calls : List RoastOp} {op : RoastOp}
  {e : SignatureSession}

def openedSession (r r' : Roast) : Option SignatureSession :=
  if r'.sessionCounter = r.sessionCounter then none
  else r'.sessionCounter.bind fun sessionId => roastSignatureSession sessionId r'

def openedSessions (cfg : Config) (i : ℕ) : Roast → List RoastOp → List SignatureSession
  | _, [] => []
  | r, op :: ops =>
    match op.apply cfg i r with
    | none => []
    | some r' => (openedSession r r').toList ++ openedSessions cfg i r' ops

def requestsTo (cfg : Config) (i k : ℕ) (r : Roast) (calls : List RoastOp) : ℕ :=
  (openedSessions cfg i r calls).countP fun e => k ∈ e.signers

namespace RoastOp

def within : RoastOp → Bool
  | answer .. => true
  | clearOut => true
  | receive .. => true
  | _ => false

def isCommitOf (k : ℕ) : RoastOp → Bool
  | receive _ j none _ => j = k
  | _ => false

def isAnswerOf (k : ℕ) : RoastOp → Bool
  | receive _ j (some _) _ => j = k
  | _ => false

end RoastOp

/-- One instance of ROAST in a history: the steps after the coordinator's ROAST_INIT,
from the tables that it leaves. -/
structure RoastInstance (cfg : Config) (i : ℕ) (history : List RoastOp) (r₁ : Roast)
    (calls : List RoastOp) : Prop where
  begins : ∃ earlier active r₀, history = earlier ++ .start active :: .resetCounter :: calls ∧
    Path (RoastStep cfg i) roastCollectGarbage earlier r₀ ∧
    r₁ = setRoastSessionCounter 0 (setRoastActive (some active) r₀)
  within : ∀ op ∈ calls, op.within

/-- He sends one COMMIT, and each of his answers comes after a request that he has not
answered yet. -/
structure FairSigner (cfg : Config) (i : ℕ) (r₁ : Roast) (k : ℕ) (calls : List RoastOp) :
    Prop where
  oneCommit : calls.countP (RoastOp.isCommitOf k) ≤ 1
  requested : ∀ before p share next after,
    calls = before ++ .receive p k (some share) next :: after →
    before.countP (RoastOp.isAnswerOf k) < requestsTo cfg i k r₁ before

/-- What a call for signer `j` should do: an unsolicited reply only marks him, a malicious
signer adds no share to a session, and a new session has no malicious member. -/
structure Excludes (j : ℕ) (r r' : Roast) : Prop where
  marks : j ∈ r.responsiveSigner → r' = roastMarkMalicious j r
  noShare : j ∈ r'.maliciousSigner → ∀ sid e, roastSignatureSession sid r' = some e →
    roastSignatureSession sid r = some e ∨ e.signatureShares = []
  noMember : ∀ e, openedSession r r' = some e → ∀ k ∈ e.signers, k ∉ r'.maliciousSigner

structure ExcludesMalicious (cfg : Config) (i : ℕ) (r₁ : Roast) (calls : List RoastOp) :
    Prop where
  call : ∀ before p j share next after r r',
    calls = before ++ .receive p j share next :: after →
    Path (RoastStep cfg i) r₁ before r →
    RoastStep cfg i r (.receive p j share next) r' → Excludes j r r'
  fair : ∀ before after r k, calls = before ++ after → Path (RoastStep cfg i) r₁ before r →
    FairSigner cfg i r₁ k before → k ∉ r₁.maliciousSigner → k ∉ r.maliciousSigner

def CompletesSession (cfg : Config) (j : ℕ) (r : Roast) : Prop :=
  ∃ sid ∈ roastSignersSid j r, ∃ e ∈ roastSignatureSession sid r,
    e.signatureShares.length + 1 = sigQuorum cfg

instance : Decidable (CompletesSession cfg j r) := inferInstanceAs (Decidable (∃ _, _ ∧ _))

/-- The calls that do no harm: a responsive signer is in no session and repeats the
pre-signature share recorded last, a malicious one is in no session, and the threshold of
responsive signers is reached without malicious ones. -/
structure HarmlessCall (cfg : Config) (j : ℕ) (next : String) (r : Roast) : Prop where
  repeats : j ∈ r.responsiveSigner →
    roastSignersSid j r = none ∧ setLatestPreSignatureShare j next r = r
  silent : j ∈ r.maliciousSigner → roastSignersSid j r = none
  members : (assertzOnce j r.responsiveSigner).length = sigQuorum cfg →
    ¬ CompletesSession cfg j r → ∀ k ∈ assertzOnce j r.responsiveSigner, k ∉ r.maliciousSigner

instance : Decidable (HarmlessCall cfg j next r) :=
  decidable_of_iff ((j ∈ r.responsiveSigner →
      roastSignersSid j r = none ∧ setLatestPreSignatureShare j next r = r) ∧
    (j ∈ r.maliciousSigner → roastSignersSid j r = none) ∧
    ((assertzOnce j r.responsiveSigner).length = sigQuorum cfg →
      ¬ CompletesSession cfg j r → ∀ k ∈ assertzOnce j r.responsiveSigner, k ∉ r.maliciousSigner))
    ⟨fun ⟨a, b, c⟩ => ⟨a, b, c⟩, fun ⟨a, b, c⟩ => ⟨a, b, c⟩⟩

/-- Besides, no COMMIT makes a signer malicious for being responsive since before the
instance. -/
def RoastOp.Harmless (cfg : Config) (r₁ r : Roast) : RoastOp → Prop
  | .receive _ j share next => HarmlessCall cfg j next r ∧
    (j ∈ r.responsiveSigner → j ∈ r₁.responsiveSigner → share ≠ none ∨ j ∈ r.maliciousSigner)
  | _ => True

instance : Decidable (op.Harmless cfg r₁ r) := by
  cases op <;> dsimp only [RoastOp.Harmless] <;> infer_instance

theorem openedSession_of_next {counter : ℕ} (h : initiateSession cfg r = some r')
    (current : r.sessionCounter = some counter) (next : r'.sessionCounter = some (counter + 1)) :
    openedSession r r' = some (nextSession counter r) := by
  simp [openedSession, current, next, roastSignatureSession_initiateSession h current next]

theorem initiateSession_cases (h : initiateSession cfg r = some r') :
    (r.responsiveSigner.length ≠ sigQuorum cfg ∧ r' = r) ∨
    (r.responsiveSigner.length = sigQuorum cfg ∧ r'.maliciousSigner = r.maliciousSigner ∧
      ∃ counter, openedSession r r' = some (nextSession counter r) ∧
        ∀ sid, roastSignatureSession sid r' = if sid = counter + 1 then
          some (nextSession counter r) else roastSignatureSession sid r) := by
  rcases initiateSession_spec h with few | ⟨enough, counter, current, -, -, malicious, -, next, -⟩
  · exact Or.inl few
  refine Or.inr ⟨enough, malicious, counter, openedSession_of_next h current next, fun _ => ?_⟩
  exact roastSignatureSession_initiateSession h current next

/-- Nobody is a member of a new session where the counter stands still. -/
theorem openedSession_eq_none (same : r'.sessionCounter = r.sessionCounter) :
    openedSession r r' = none := if_pos same

theorem Called.malicious (called : Called cfg j share next r r') :
    r'.maliciousSigner = (markUnsolicited j r).maliciousSigner := by
  cases called with
  | completes e recorded found full same => rw [same]; rfl
  | alone absent opened | stores e recorded found short opened =>
    rcases initiateSession_cases opened with ⟨-, rfl⟩ | ⟨-, same, -⟩
    · rfl
    · exact same

theorem hear_of_repeats (responsive : j ∈ r.responsiveSigner)
    (repeats : setLatestPreSignatureShare j next r = r) : hear j next r = r := by
  rw [hear, repeats, roastMarkResponsive, assertzOnce_of_mem responsive]

/-- Only a signer who is not responsive yet can make the threshold. -/
theorem not_mem_of_enough (few : r.responsiveSigner.length < sigQuorum cfg)
    (enough : (assertzOnce j r.responsiveSigner).length = sigQuorum cfg) :
    j ∉ r.responsiveSigner := by
  intro responsive
  rw [assertzOnce_of_mem responsive] at enough
  omega

theorem not_completes_of_absent (absent : roastSignersSid j r = none) :
    ¬ CompletesSession cfg j r := by
  rintro ⟨sid, recorded, -⟩
  rw [absent] at recorded
  cases recorded

theorem excludes_iff_of_alone (few : r.responsiveSigner.length < sigQuorum cfg)
    (absent : roastSignersSid j r = none)
    (opened : initiateSession cfg (hear j next (markUnsolicited j r)) = some r') :
    Excludes j r r' ↔ HarmlessCall cfg j next r := by
  obtain ⟨malicious, marked, -⟩ := markUnsolicited_frame j r
  rcases initiateSession_cases opened with ⟨short, rfl⟩ | ⟨enough, same, c, session, lookup⟩
  · have short' : (assertzOnce j r.responsiveSigner).length ≠ sigQuorum cfg := by
      simpa [marked] using short
    constructor
    · intro excludes
      refine ⟨fun responsive => ⟨absent, ?_⟩, fun _ => absent, fun enough => absurd enough short'⟩
      have latest := congrArg Roast.latestPreSignatureShare (excludes.marks responsive)
      rw [markUnsolicited_of_mem responsive] at latest
      have latest' : (setLatestPreSignatureShare j next r).latestPreSignatureShare =
          r.latestPreSignatureShare := latest
      exact congrArg (fun table => { r with latestPreSignatureShare := table }) latest'
    · intro harmless
      refine ⟨fun responsive => ?_, fun _ sid e found => Or.inl ?_, fun e new => ?_⟩
      · have heard := hear_of_repeats responsive (harmless.repeats responsive).2
        rw [markUnsolicited_of_mem responsive]
        exact congrArg (roastMarkMalicious j) heard
      · rw [marked] at found
        exact found
      · rw [openedSession_eq_none (by rw [marked]; rfl)] at new
        cases new
  · have enough' : (assertzOnce j r.responsiveSigner).length = sigQuorum cfg := by
      simpa [marked] using enough
    have quiet := not_mem_of_enough few enough'
    rw [markUnsolicited_of_not_mem quiet] at same session lookup
    constructor
    · intro excludes
      refine ⟨fun responsive => absurd responsive quiet, fun _ => absent, fun _ _ k inside => ?_⟩
      have member := excludes.noMember _ session k inside
      rwa [same] at member
    · intro harmless
      refine ⟨fun responsive => absurd responsive quiet, fun _ sid e found => ?_,
        fun e new k inside => ?_⟩
      · rw [lookup] at found
        split at found
        · cases found
          exact Or.inr rfl
        · exact Or.inl found
      · have same' : some (nextSession c (hear j next r)) = some e := session.symm.trans new
        cases same'
        rw [same]
        exact harmless.members enough' (not_completes_of_absent absent) k inside

theorem excludes_iff_of_stored (found : roastSignatureSession e.sessionId r = some e)
    (found' : roastSignatureSession e.sessionId r' =
      some { e with signatureShares := e.signatureShares ++ [share] })
    (malicious : r'.maliciousSigner = (markUnsolicited j r).maliciousSigner)
    (none : openedSession r r' = none) :
    Excludes j r r' ↔ j ∉ r.responsiveSigner ∧ j ∉ r.maliciousSigner := by
  have longer : e ≠ { e with signatureShares := e.signatureShares ++ [share] } := by
    intro same
    have lengths := congrArg (fun e => e.signatureShares.length) same
    simp at lengths
  constructor
  · intro excludes
    have quiet : j ∉ r.responsiveSigner := by
      intro responsive
      rw [excludes.marks responsive] at found'
      exact longer (Option.some.inj (found.symm.trans found'))
    refine ⟨quiet, fun marked => ?_⟩
    have marked' : j ∈ r'.maliciousSigner := by
      rw [malicious, mem_maliciousSigner_markUnsolicited]
      exact Or.inl marked
    rcases excludes.noShare marked' _ _ found' with old | empty
    · exact longer (Option.some.inj (found.symm.trans old))
    · simp at empty
  · rintro ⟨quiet, unmarked⟩
    refine ⟨fun responsive => absurd responsive quiet, fun marked => ?_, fun e' opened => ?_⟩
    · rw [malicious, markUnsolicited_of_not_mem quiet] at marked
      exact absurd marked unmarked
    · rw [none] at opened
      cases opened

theorem harmlessCall_iff_of_stored (recorded : roastSignersSid j r = some e.sessionId)
    (closed : (assertzOnce j r.responsiveSigner).length = sigQuorum cfg → CompletesSession cfg j r) :
    HarmlessCall cfg j next r ↔ j ∉ r.responsiveSigner ∧ j ∉ r.maliciousSigner := by
  constructor
  · intro harmless
    refine ⟨fun responsive => ?_, fun marked => ?_⟩
    · have absent := (harmless.repeats responsive).1
      rw [recorded] at absent
      cases absent
    · have absent := harmless.silent marked
      rw [recorded] at absent
      cases absent
  · rintro ⟨quiet, unmarked⟩
    exact ⟨fun responsive => absurd responsive quiet, fun marked => absurd marked unmarked,
      fun enough short => absurd (closed enough) short⟩

theorem excludes_iff_of_opened (recorded : roastSignersSid j r = some e.sessionId)
    (found : roastSignatureSession e.sessionId r = some e)
    (short : e.signatureShares.length + 1 ≠ sigQuorum cfg)
    (enough : (assertzOnce j r.responsiveSigner).length = sigQuorum cfg)
    (quiet : j ∉ r.responsiveSigner) (malicious : r'.maliciousSigner = r.maliciousSigner)
    (session : openedSession r r' = some e')
    (signers : e'.signers = assertzOnce j r.responsiveSigner) :
    Excludes j r r' ↔ HarmlessCall cfg j next r := by
  have goesOn : ¬ CompletesSession cfg j r := by
    rintro ⟨sid, recorded', e'', found'', full⟩
    cases recorded.symm.trans recorded'
    cases found.symm.trans found''
    exact short full
  have self : j ∈ assertzOnce j r.responsiveSigner := mem_assertzOnce.mpr (Or.inr rfl)
  constructor
  · intro excludes
    have members : ∀ k ∈ assertzOnce j r.responsiveSigner, k ∉ r.maliciousSigner := by
      rw [← signers, ← malicious]
      exact excludes.noMember e' session
    exact ⟨fun responsive => absurd responsive quiet, fun marked => absurd marked (members j self),
      fun _ _ => members⟩
  · intro harmless
    have members := harmless.members enough goesOn
    refine ⟨fun responsive => absurd responsive quiet, fun marked => ?_, fun e new => ?_⟩
    · rw [malicious] at marked
      exact absurd marked (members j self)
    · cases session.symm.trans new
      rw [signers, malicious]
      exact members

/-- Exactly when a call treats malicious signers as it should. -/
theorem excludes_iff (few : r.responsiveSigner.length < sigQuorum cfg)
    (h : applyReceiveSigShare cfg j share next i r = some r') :
    Excludes j r r' ↔ HarmlessCall cfg j next r := by
  obtain ⟨malicious, marked, -⟩ := markUnsolicited_frame j r
  cases applyReceiveSigShare_called h with
  | alone absent opened => exact excludes_iff_of_alone few absent opened
  | completes e recorded found full same =>
    rw [harmlessCall_iff_of_stored recorded fun _ => ⟨_, recorded, e, found, full⟩]
    have lookup : roastSignatureSession e.sessionId r' =
        some { e with signatureShares := e.signatureShares ++ [share] } := by
      rw [same]
      simp
    apply excludes_iff_of_stored found lookup
    · rw [same]
      rfl
    · exact openedSession_eq_none (by rw [same, marked]; rfl)
  | stores e recorded found short opened =>
    rcases initiateSession_cases opened with ⟨few', same⟩ | ⟨enough, same, c, session, -⟩
    · have few'' : (assertzOnce j r.responsiveSigner).length ≠ sigQuorum cfg := by
        rw [marked] at few'
        exact few'
      rw [harmlessCall_iff_of_stored recorded fun enough => absurd enough few'']
      have lookup : roastSignatureSession e.sessionId r' =
          some { e with signatureShares := e.signatureShares ++ [share] } := by
        rw [same]
        exact roastSignatureSession_setRoastSignatureSession.trans (if_pos rfl)
      apply excludes_iff_of_stored found lookup
      · rw [same]
        rfl
      · exact openedSession_eq_none (by rw [same, marked]; rfl)
    · have enough' : (assertzOnce j r.responsiveSigner).length = sigQuorum cfg := by
        rw [marked] at enough
        exact enough
      have quiet := not_mem_of_enough few enough'
      rw [markUnsolicited_of_not_mem quiet] at same session
      exact excludes_iff_of_opened recorded found short enough' quiet same session rfl

theorem openedSessions_snoc (run : Path (RoastStep cfg i) r₁ calls r)
    (step : RoastStep cfg i r op r') : openedSessions cfg i r₁ (calls ++ [op]) =
      openedSessions cfg i r₁ calls ++ (openedSession r r').toList := by
  induction run with
  | nil =>
    have applied : op.apply cfg i _ = some r' := step
    simp [openedSessions, applied]
  | cons head _ ih =>
    have applied : RoastOp.apply cfg i _ _ = some _ := head
    simp [openedSessions, applied, ih step]

theorem requestsTo_snoc_of_none (k : ℕ) (run : Path (RoastStep cfg i) r₁ calls r)
    (step : RoastStep cfg i r op r') (none : openedSession r r' = none) :
    requestsTo cfg i k r₁ (calls ++ [op]) = requestsTo cfg i k r₁ calls := by
  simp [requestsTo, openedSessions_snoc run step, none]

theorem requestsTo_snoc_of_some (k : ℕ) (run : Path (RoastStep cfg i) r₁ calls r)
    (step : RoastStep cfg i r op r') (opened : openedSession r r' = some e) :
    requestsTo cfg i k r₁ (calls ++ [op]) =
      requestsTo cfg i k r₁ calls + if k ∈ e.signers then 1 else 0 := by
  simp [requestsTo, openedSessions_snoc run step, opened, List.countP_singleton]

theorem openedSessions_append (cfg : Config) (i : ℕ) (r : Roast) (calls later : List RoastOp) :
    ∃ more, openedSessions cfg i r (calls ++ later) = openedSessions cfg i r calls ++ more := by
  induction calls generalizing r with
  | nil => exact ⟨_, rfl⟩
  | cons op calls ih =>
    cases applied : op.apply cfg i r with
    | none => exact ⟨[], by simp [openedSessions, applied]⟩
    | some r' =>
      obtain ⟨more, same⟩ := ih r'
      exact ⟨more, by simp [openedSessions, applied, same]⟩

theorem requestsTo_le_append (cfg : Config) (i k : ℕ) (r : Roast) (calls later : List RoastOp) :
    requestsTo cfg i k r calls ≤ requestsTo cfg i k r (calls ++ later) := by
  obtain ⟨more, same⟩ := openedSessions_append cfg i r calls later
  simp [requestsTo, same, List.countP_append]

namespace FairSigner

theorem initial_segment {later : List RoastOp} (fair : FairSigner cfg i r₁ k (calls ++ later)) :
    FairSigner cfg i r₁ k calls where
  oneCommit := by
    have one := fair.oneCommit
    rw [List.countP_append] at one
    omega
  requested := by
    intro before p share next after same
    exact fair.requested before p share next (after ++ later) (by simp [same])

theorem answers_le (fair : FairSigner cfg i r₁ k calls) :
    calls.countP (RoastOp.isAnswerOf k) ≤ requestsTo cfg i k r₁ calls := by
  induction calls using List.reverseRecOn with
  | nil => simp
  | append_singleton calls op ih =>
    have grows := requestsTo_le_append cfg i k r₁ calls [op]
    have before := ih fair.initial_segment
    rw [List.countP_append, List.countP_singleton]
    split
    · rename_i answer
      cases op with
      | receive p j share next =>
        cases share with
        | none => cases answer
        | some share =>
          obtain rfl : j = k := by simpa [RoastOp.isAnswerOf] using answer
          have asked := fair.requested calls p share next [] rfl
          omega
      | _ => cases answer
    · omega

end FairSigner

theorem countP_signer (k : ℕ) (calls : List RoastOp) :
    calls.countP (fun op => op.signer = some k) =
      calls.countP (RoastOp.isCommitOf k) + calls.countP (RoastOp.isAnswerOf k) := by
  induction calls with
  | nil => rfl
  | cons op calls ih =>
    simp only [List.countP_cons, ih]
    cases op with
    | receive p j share next =>
      cases share <;> simp [RoastOp.signer, RoastOp.isCommitOf, RoastOp.isAnswerOf] <;> omega
    | _ => simp [RoastOp.signer, RoastOp.isCommitOf, RoastOp.isAnswerOf]

theorem countP_signer_snoc (k : ℕ) (calls : List RoastOp) (op : RoastOp) :
    (calls ++ [op]).countP (fun op => op.signer = some k) =
      calls.countP (fun op => op.signer = some k) + if op.signer = some k then 1 else 0 := by
  simp [List.countP_singleton]

/-- Without a new session the signer joins the responsive ones at most. A new session has
all of them as its members, and they are to answer it. -/
theorem Called.signers (called : Called cfg j share next r r') :
    (openedSession r r' = none ∧ (∀ k, roastSignersSid k r' = roastSignersSid k r) ∧
      (∀ k ∈ r.responsiveSigner, k ∈ r'.responsiveSigner) ∧
      ∀ k ∈ r'.responsiveSigner, k ∈ r.responsiveSigner ∨ k = j) ∨
    ∃ e, openedSession r r' = some e ∧ r'.responsiveSigner = [] ∧
      (∀ k, k ∈ e.signers ↔ k ∈ r.responsiveSigner ∨ k = j) ∧
      ∀ k, roastSignersSid k r' = if k ∈ e.signers then some e.sessionId else roastSignersSid k r := by
  obtain ⟨malicious, marked, -⟩ := markUnsolicited_frame j r
  cases called with
  | completes e recorded found full same =>
    rw [marked] at same
    subst same
    exact Or.inl ⟨openedSession_eq_none rfl, fun _ => rfl, fun _ inside => inside,
      fun _ inside => Or.inl inside⟩
  | alone absent opened | stores e recorded found short opened =>
    rw [marked] at opened
    rcases initiateSession_spec opened with ⟨-, rfl⟩ | ⟨-, c, current, -, responsive, -, -, next,
      sid, -⟩
    · refine Or.inl ⟨openedSession_eq_none rfl, fun _ => rfl, fun k inside => ?_, fun k inside => ?_⟩
      · exact mem_assertzOnce.mpr (Or.inl inside)
      · exact mem_assertzOnce.mp inside
    · have session := openedSession_of_next opened current next
      exact Or.inr ⟨_, session, responsive, fun k => mem_assertzOnce, sid⟩

/-- What the steps of an instance say of signer `k`: he has not been asked more often than
he was heard, but for what he was before; a request gives him a session; and if he was
responsive before, he is so until he is heard or gets a session. -/
structure Tally (cfg : Config) (i : ℕ) (r₁ : Roast) (k : ℕ) (calls : List RoastOp) (r : Roast) :
    Prop where
  requests : requestsTo cfg i k r₁ calls + (if k ∈ r.responsiveSigner then 1 else 0) ≤
    calls.countP (fun op => op.signer = some k) + if k ∈ r₁.responsiveSigner then 1 else 0
  asked : 0 < requestsTo cfg i k r₁ calls → roastSignersSid k r ≠ none
  marked : k ∈ r₁.maliciousSigner → k ∈ r.maliciousSigner
  left : k ∈ r₁.responsiveSigner → k ∈ r.maliciousSigner ∨ roastSignersSid k r ≠ none ∨
    (k ∈ r.responsiveSigner ∧ ∀ op ∈ calls, op.signer ≠ some k)

namespace Tally

/-- A step without a new session: the signer of the step is the only one to join the
responsive signers, and he is malicious if he is one already. -/
theorem joins (tally : Tally cfg i r₁ k calls r) (run : Path (RoastStep cfg i) r₁ calls r)
    (step : RoastStep cfg i r op r') (none : openedSession r r' = none)
    (sid : roastSignersSid k r' = roastSignersSid k r)
    (kept : k ∈ r.maliciousSigner → k ∈ r'.maliciousSigner)
    (stays : k ∈ r.responsiveSigner → k ∈ r'.responsiveSigner)
    (new : k ∈ r'.responsiveSigner → k ∈ r.responsiveSigner ∨ op.signer = some k)
    (repeats : k ∈ r.responsiveSigner → op.signer = some k → k ∈ r'.maliciousSigner) :
    Tally cfg i r₁ k (calls ++ [op]) r' := by
  have before := tally.requests
  have same := requestsTo_snoc_of_none k run step none
  refine ⟨?_, ?_, fun inside => kept (tally.marked inside), fun inside => ?_⟩
  · rw [same, countP_signer_snoc]
    by_cases responsive : k ∈ r.responsiveSigner
    · rw [if_pos responsive] at before
      rw [if_pos (stays responsive)]
      omega
    · rw [if_neg responsive] at before
      by_cases responsive' : k ∈ r'.responsiveSigner
      · rw [if_pos responsive', if_pos ((new responsive').resolve_left responsive)]
        omega
      · rw [if_neg responsive']
        omega
  · rw [same, sid]
    exact tally.asked
  · rw [sid]
    rcases tally.left inside with marked | recorded | ⟨responsive, unheard⟩
    · exact Or.inl (kept marked)
    · exact Or.inr (Or.inl recorded)
    · by_cases self : op.signer = some k
      · exact Or.inl (repeats responsive self)
      · refine Or.inr (Or.inr ⟨stays responsive, fun op' inside' => ?_⟩)
        rcases List.mem_append.mp inside' with old | last
        · exact unheard op' old
        · rwa [List.mem_singleton.mp last]

/-- A step with a new session, of the responsive signers and the signer of the step: what
was due to `k` is the request that he gets with it. -/
theorem asks (tally : Tally cfg i r₁ k calls r) (run : Path (RoastStep cfg i) r₁ calls r)
    (step : RoastStep cfg i r op r') (opened : openedSession r r' = some e)
    (sid : roastSignersSid k r' = if k ∈ e.signers then some e.sessionId else roastSignersSid k r)
    (kept : k ∈ r.maliciousSigner → k ∈ r'.maliciousSigner)
    (cleared : r'.responsiveSigner = [])
    (members : k ∈ e.signers ↔ k ∈ r.responsiveSigner ∨ op.signer = some k) :
    Tally cfg i r₁ k (calls ++ [op]) r' := by
  have before := tally.requests
  have more := requestsTo_snoc_of_some k run step opened
  refine ⟨?_, ?_, fun inside => kept (tally.marked inside), fun inside => ?_⟩
  · rw [more, countP_signer_snoc, cleared, if_neg List.not_mem_nil]
    by_cases responsive : k ∈ r.responsiveSigner
    · rw [if_pos responsive] at before
      split <;> omega
    · rw [if_neg responsive] at before
      by_cases self : op.signer = some k
      · rw [if_pos self]
        split <;> omega
      · have outside : k ∉ e.signers := by simp [members, responsive, self]
        rw [if_neg outside]
        omega
  · rw [more, sid]
    split
    · simp
    · exact tally.asked
  · rw [sid]
    rcases tally.left inside with marked | recorded | ⟨responsive, -⟩
    · exact Or.inl (kept marked)
    · right
      left
      split
      · simp
      · exact recorded
    · right
      left
      rw [if_pos (members.mpr (Or.inl responsive))]
      simp

theorem receive {p : ℕ} (tally : Tally cfg i r₁ k calls r) (run : Path (RoastStep cfg i) r₁ calls r)
    (step : RoastStep cfg i r (.receive p j share next) r') :
    Tally cfg i r₁ k (calls ++ [.receive p j share next]) r' := by
  have called := applyReceiveSigShare_called step
  have signer : (RoastOp.receive p j share next).signer = some k ↔ k = j := by
    simp [RoastOp.signer, eq_comm]
  have kept : k ∈ r.maliciousSigner → k ∈ r'.maliciousSigner := by
    rw [called.malicious, mem_maliciousSigner_markUnsolicited]
    exact Or.inl
  rcases called.signers with ⟨none, sid, stay, new⟩ | ⟨e, opened, cleared, members, sid⟩
  · apply tally.joins run step none (sid k) kept (stay k)
    · rw [signer]
      exact new k
    · rw [signer, called.malicious, mem_maliciousSigner_markUnsolicited]
      rintro responsive rfl
      exact Or.inr ⟨rfl, responsive⟩
  · apply tally.asks run step opened (sid k) kept cleared
    rw [signer]
    exact members k

theorem quiet (tally : Tally cfg i r₁ k calls r) (run : Path (RoastStep cfg i) r₁ calls r)
    (step : RoastStep cfg i r op r') (silent : op.signer = none)
    (same : r' = { r with msgOut := r'.msgOut }) : Tally cfg i r₁ k (calls ++ [op]) r' := by
  have none : openedSession r r' = none := openedSession_eq_none (by rw [same])
  apply tally.joins run step none
  · rw [same]
    rfl
  · rw [same]
    exact id
  · rw [same]
    exact id
  · rw [same]
    exact Or.inl
  · rw [silent]
    intro _ absurd
    cases absurd

theorem of_path (run : Path (RoastStep cfg i) r₁ calls r) (within : ∀ op ∈ calls, op.within) :
    Tally cfg i r₁ k calls r := by
  revert within
  refine run.snoc_induction (motive := fun calls r => (∀ op ∈ calls, op.within) →
    Tally cfg i r₁ k calls r) ?_ ?_
  · intro _
    refine ⟨by simp [requestsTo, openedSessions], by simp [requestsTo, openedSessions], id, ?_⟩
    intro responsive
    exact Or.inr (Or.inr ⟨responsive, by simp⟩)
  · intro calls r op r' run ih step within
    have tally := ih fun op' inside => within op' (List.mem_append_left _ inside)
    have last := within op (List.mem_append_right _ (List.mem_singleton_self op))
    cases op with
    | receive p j share next => exact tally.receive run step
    | answer share next =>
      have step' := step
      simp only [RoastStep, RoastOp.apply] at step'
      split at step'
      · cases step'
        exact tally.quiet run step rfl rfl
      · cases step'
    | clearOut =>
      have step' := step
      cases step'
      exact tally.quiet run step rfl rfl
    | _ => cases last

end Tally

namespace RoastInstance

variable {history : List RoastOp}

theorem path (one : RoastInstance cfg i history r₁ calls)
    (run : Path (RoastStep cfg i) roastCollectGarbage history r) :
    Path (RoastStep cfg i) r₁ calls r := by
  obtain ⟨earlier, active, r₀, rfl, before, rfl⟩ := one.begins
  obtain ⟨r₀', before', rest⟩ := run.split
  cases RoastStep.path_unique before before'
  cases rest with
  | cons started rest =>
    cases started
    cases rest with
    | cons reset rest =>
      cases reset
      exact rest

theorem few (one : RoastInstance cfg i history r₁ calls) (run : Path (RoastStep cfg i) r₁ calls r) :
    r.responsiveSigner.length < sigQuorum cfg := by
  obtain ⟨earlier, active, r₀, -, before, rfl⟩ := one.begins
  have whole : Path (RoastStep cfg i) roastCollectGarbage
      (earlier ++ .start active :: .resetCounter :: calls) r :=
    before.append (.cons rfl (.cons rfl run))
  exact (Hearing.of_path whole).few

theorem initial_segment {later : List RoastOp}
    (one : RoastInstance cfg i history r₁ (calls ++ later)) :
    ∃ history', RoastInstance cfg i history' r₁ calls := by
  obtain ⟨earlier, active, r₀, -, before, same⟩ := one.begins
  exact ⟨_, ⟨earlier, active, r₀, rfl, before, same⟩,
    fun op inside => one.within op (List.mem_append_left _ inside)⟩

theorem fair_unmarked (one : RoastInstance cfg i history r₁ calls)
    (run : Path (Guarded (RoastStep cfg i) (RoastOp.Harmless cfg r₁)) r₁ calls r)
    (fair : FairSigner cfg i r₁ k calls) (clean : k ∉ r₁.maliciousSigner) :
    k ∉ r.maliciousSigner := by
  have within := one.within
  revert within fair
  refine run.snoc_induction (motive := fun calls r => FairSigner cfg i r₁ k calls →
    (∀ op ∈ calls, op.within) → k ∉ r.maliciousSigner) (fun _ _ => clean) ?_
  rintro calls r op r' run ih ⟨step, harmless⟩ fair within
  have before := fair.initial_segment
  have within' : ∀ op ∈ calls, op.within := fun op inside => within op (List.mem_append_left _ inside)
  have unmarked := ih before within'
  have last := within op (List.mem_append_right _ (List.mem_singleton_self op))
  cases op with
  | receive p j share next =>
    rw [(applyReceiveSigShare_called step).malicious, mem_maliciousSigner_markUnsolicited]
    rintro (old | ⟨rfl, responsive⟩)
    · exact unmarked old
    obtain ⟨⟨repeats, -, -⟩, left⟩ := harmless
    have tally := Tally.of_path (k := k) run.unguard within'
    have requests := tally.requests
    have heard := countP_signer k calls
    have answers := before.answers_le
    have commits := before.oneCommit
    rw [if_pos responsive] at requests
    cases share with
    | none =>
      have fresh : k ∉ r₁.responsiveSigner := by
        intro old
        exact (left responsive old).elim (fun some => some rfl) unmarked
      have one := fair.oneCommit
      rw [List.countP_append, List.countP_singleton, if_pos (by simp [RoastOp.isCommitOf])] at one
      rw [if_neg fresh] at requests
      omega
    | some sigma =>
      have asked := fair.requested calls p sigma next [] rfl
      exact tally.asked (by omega) (repeats responsive).1
  | answer share next =>
    simp only [RoastStep, RoastOp.apply] at step
    split at step
    · cases step
      exact unmarked
    · cases step
  | clearOut =>
    cases step
    exact unmarked
  | _ => cases last

end RoastInstance

theorem FairSigner.first_commit {p : ℕ} (unheard : ∀ op ∈ calls, op.signer ≠ some j) :
    FairSigner cfg i r₁ j (calls ++ [.receive p j none next]) where
  oneCommit := by
    have heard : calls.countP (fun op => op.signer = some j) = 0 := by
      rw [List.countP_eq_zero]
      intro op inside
      simpa using unheard op inside
    rw [countP_signer] at heard
    rw [List.countP_append, List.countP_singleton]
    split <;> omega
  requested := by
    intro before p' share next' after same
    have inside : RoastOp.receive p' j (some share) next' ∈ calls ++ [.receive p j none next] := by
      rw [same]
      simp
    rcases List.mem_append.mp inside with old | last
    · exact absurd rfl (unheard _ old)
    · simp at last

namespace RoastInstance

variable {history : List RoastOp}

theorem functional (r : Roast) (op : RoastOp) (r' r'' : Roast) (step : RoastStep cfg i r op r')
    (other : RoastStep cfg i r op r'') : r' = r'' := step.functional other

theorem harmless_of_excludes (one : RoastInstance cfg i history r₁ calls)
    (run : Path (RoastStep cfg i) r₁ calls r) (excludes : ExcludesMalicious cfg i r₁ calls) :
    Path (Guarded (RoastStep cfg i) (RoastOp.Harmless cfg r₁)) r₁ calls r := by
  rw [Path.guarded_iff functional run]
  rintro before op after m rfl reached
  cases op with
  | receive p j share next =>
    obtain ⟨m', reached', rest⟩ := run.split
    cases RoastStep.path_unique reached reached'
    cases rest with
    | @cons _ _ m' _ _ step _ =>
      obtain ⟨history', first⟩ := one.initial_segment
      have call := excludes.call before p j share next after m m' rfl reached step
      have harmless := (excludes_iff (first.few reached) step).mp call
      refine ⟨harmless, fun responsive old => ?_⟩
      -- A signer left responsive and not heard since would be fair, and is blamed.
      by_contra blamed
      obtain ⟨rfl, unmarked⟩ : share = none ∧ j ∉ m.maliciousSigner := by
        simpa [not_or] using blamed
      have tally := Tally.of_path (k := j) reached first.within
      have absent := (harmless.repeats responsive).1
      rcases tally.left old with marked | recorded | ⟨-, unheard⟩
      · exact unmarked marked
      · exact recorded absent
      · have clean : j ∉ r₁.maliciousSigner := fun marked => unmarked (tally.marked marked)
        have fair := excludes.fair (before ++ [.receive p j none next]) after m' j (by simp)
          (reached.snoc step) (FairSigner.first_commit unheard) clean
        rw [call.marks responsive] at fair
        exact fair (mem_assertzOnce.mpr (Or.inr rfl))
  | _ => trivial

theorem excludes_of_harmless (one : RoastInstance cfg i history r₁ calls)
    (run : Path (Guarded (RoastStep cfg i) (RoastOp.Harmless cfg r₁)) r₁ calls r) :
    ExcludesMalicious cfg i r₁ calls := by
  have meets := (Path.guarded_iff functional run.unguard).mp run
  refine ⟨?_, ?_⟩
  · rintro before p j share next after m m' rfl reached step
    obtain ⟨history', first⟩ := one.initial_segment
    exact (excludes_iff (first.few reached) step).mpr (meets before _ after m rfl reached).1
  · rintro before after m k rfl reached fair clean
    obtain ⟨history', first⟩ := one.initial_segment
    obtain ⟨m', reached', -⟩ := run.split
    cases RoastStep.path_unique reached reached'.unguard
    exact first.fair_unmarked reached' fair clean

end RoastInstance

/-- Malicious signers are excluded from an instance exactly when its calls do no harm. -/
theorem excludesMalicious_iff (start : Initial cfg s)
    (recorded : Path (LedgerStep cfg i) (Ledger.start s) labels y)
    (one : RoastInstance cfg i y.history r₁ calls) :
    ExcludesMalicious cfg i r₁ calls ↔
      Path (Guarded (RoastStep cfg i) (RoastOp.Harmless cfg r₁)) r₁ calls y.replica.roast := by
  have run := one.path (Ledger.roast_path start recorded).2
  exact ⟨one.harmless_of_excludes run, one.excludes_of_harmless⟩

def Ledger.replay (cfg : Config) (i : ℕ) : List (ℚ × Action) → Ledger → Option Ledger :=
  follow fun x l => (exec cfg i Always [l] x.replica).map (x.record cfg i l.2)

theorem Ledger.replay_path {x y : Ledger} (ran : Ledger.replay cfg i labels x = some y) :
    Path (LedgerStep cfg i) x labels y := by
  refine follow_path (fun x l y next => ?_) ran
  obtain ⟨t, took, rfl⟩ := Option.map_eq_some_iff.mp next
  have path := (exec_path took).unguard
  cases path with
  | cons step rest =>
    cases rest
    exact ⟨step, rfl⟩

theorem RoastInstance.of_first {history : List RoastOp} {active : RoastActive}
    (same : history = .start active :: .resetCounter :: calls)
    (within : ∀ op ∈ calls, op.within) : RoastInstance cfg i history
      (setRoastSessionCounter 0 (setRoastActive (some active) roastCollectGarbage)) calls :=
  ⟨⟨[], active, roastCollectGarbage, same, .nil, rfl⟩, within⟩

def startedTables : Roast :=
  setRoastSessionCounter 0 (setRoastActive (some ⟨0, 1, "(H=1, T=60)"⟩) roastCollectGarbage)

def commitsAgain : List (ℚ × Action) := coordinates ++ [(60, .receiveCommit 0 1 "p2" 2 "S2")]

def commitsAgainCalls : List RoastOp :=
  [.receive 4 0 none "p0", .receive 5 1 none "p1", .receive 6 2 none "p2", .receive 8 2 none "p2"]

theorem excludesMalicious_commitsAgain : ∃ y,
    Path (LedgerStep fourReplicas 0) (Ledger.start genesis) commitsAgain y ∧
    RoastInstance fourReplicas 0 y.history startedTables commitsAgainCalls ∧
    y.replica.roast.maliciousSigner = [2] ∧
    ExcludesMalicious fourReplicas 0 startedTables commitsAgainCalls := by
  have runs : ∃ y, Ledger.replay fourReplicas 0 commitsAgain (Ledger.start genesis) = some y ∧
      y.history = .start ⟨0, 1, "(H=1, T=60)"⟩ :: .resetCounter :: commitsAgainCalls ∧
      y.replica.roast.maliciousSigner = [2] ∧
      follow (fun r op => if RoastOp.Harmless fourReplicas startedTables r op then
        op.apply fourReplicas 0 r else none) commitsAgainCalls startedTables =
          some y.replica.roast := by
    decide +kernel
  obtain ⟨y, ran, history, marked, harmless⟩ := runs
  have recorded := Ledger.replay_path ran
  have one : RoastInstance fourReplicas 0 y.history startedTables commitsAgainCalls :=
    RoastInstance.of_first history (by decide)
  refine ⟨y, recorded, one, marked, ?_⟩
  refine (excludesMalicious_iff genesis_initial recorded one).mpr (follow_path ?_ harmless)
  intro r op r' next
  split at next
  · rename_i meets
    exact ⟨next, meets⟩
  · cases next

def answersAfterwards : List (ℚ × Action) := commitsAgain ++ [(60, .receiveSigShare 1 "x1" "q1")]

/-- Replica 2 is marked malicious, and the next session has him as a member. -/
theorem answersAfterwards_not_excludesMalicious : ∃ s labels y r₁ calls,
    Initial fourReplicas s ∧ Path (LedgerStep fourReplicas 0) (Ledger.start s) labels y ∧
    RoastInstance fourReplicas 0 y.history r₁ calls ∧
    ¬ ExcludesMalicious fourReplicas 0 r₁ calls := by
  have runs : ∃ y, Ledger.replay fourReplicas 0 answersAfterwards (Ledger.start genesis) = some y ∧
      y.history = .start ⟨0, 1, "(H=1, T=60)"⟩ :: .resetCounter ::
        (commitsAgainCalls ++ [.receive 9 1 (some "x1") "q1"]) := by
    decide +kernel
  obtain ⟨y, ran, history⟩ := runs
  refine ⟨genesis, answersAfterwards, y, startedTables, _, genesis_initial, Ledger.replay_path ran,
    RoastInstance.of_first history (by decide), fun excludes => ?_⟩
  have steps : ∃ r, follow (fun r op => op.apply fourReplicas 0 r) commitsAgainCalls startedTables =
      some r ∧ ∃ r', applyReceiveSigShare fourReplicas 1 (some "x1") "q1" 0 r = some r' ∧
        openedSession r r' = some ⟨2, [2, 1], "p2+q1", []⟩ ∧ 2 ∈ r'.maliciousSigner := by
    decide +kernel
  obtain ⟨r, before, r', last, opened, marked⟩ := steps
  have reached : Path (RoastStep fourReplicas 0) startedTables commitsAgainCalls r :=
    follow_path (fun _ _ _ next => next) before
  have call := excludes.call commitsAgainCalls 9 1 (some "x1") "q1" [] r r' rfl reached last
  exact call.noMember _ opened 2 (by simp) marked

end Fbft
