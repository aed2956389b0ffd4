import Fbft.FinalSession

/-! The pre-signatures of a coordinator. A session is opened with the threshold of
responsive signers and the shares last heard from them; they are responsive again only
after another share, so no share goes into a second session. -/
namespace Fbft

open Database LabelledPath

variable {cfg : Config} {i : ℕ} {now : ℚ} {s t : Replica} {a : Action} {r r' r₀ : Roast}
  {labels : List (ℚ × Action)} {history : List RoastOp} {op : RoastOp} {e : SignatureSession}

def LastHeard (k p : ℕ) (share : String) (ops : List RoastOp) : Prop :=
  ∃ before signatureShare after, ops = before ++ .receive p k signatureShare share :: after ∧
    ∀ op ∈ after, op.signer ≠ some k

/-- Between two states the session counter has gone up, and the session table records `e`
under the new number. -/
structure Opens (r r' : Roast) (e : SignatureSession) : Prop where
  counter : ∃ c, r.sessionCounter = some c ∧ r'.sessionCounter = some (c + 1) ∧
    e.sessionId = c + 1
  recorded : roastSignatureSession e.sessionId r' = some e

/-- The last of these steps opens session `e`. -/
def Opening (cfg : Config) (i : ℕ) (r₀ : Roast) (steps : List RoastOp) (e : SignatureSession) :
    Prop :=
  ∃ before op r r', steps = before ++ [op] ∧ Path (RoastStep cfg i) r₀ before r ∧
    RoastStep cfg i r op r' ∧ Opens r r' e

theorem lastHeard_snoc (heard : LastHeard k p share history) (other : op.signer ≠ some k) :
    LastHeard k p share (history ++ [op]) := by
  obtain ⟨before, signatureShare, after, rfl, quiet⟩ := heard
  refine ⟨before, signatureShare, after ++ [op], by simp, fun op' inside => ?_⟩
  rcases List.mem_append.mp inside with old | new
  · exact quiet op' old
  · rw [List.mem_singleton.mp new]
    exact other

def hear (signerId : ℕ) (preSignatureShare : String) (r : Roast) : Roast :=
  roastMarkResponsive signerId (setLatestPreSignatureShare signerId preSignatureShare r)

/-- A signer in no session is only heard. The share of another one is stored, and it ends
the run or he is heard. -/
inductive Called (cfg : Config) (j : ℕ) (share : Option String) (next : String) (r r' : Roast) :
    Prop where
  | alone (absent : roastSignersSid j r = none)
      (opened : initiateSession cfg (hear j next (markUnsolicited j r)) = some r')
  | completes (e : SignatureSession) (recorded : roastSignersSid j r = some e.sessionId)
      (found : roastSignatureSession e.sessionId r = some e)
      (full : e.signatureShares.length + 1 = sigQuorum cfg)
      (same : r' = setRoastSignatureSession
        { e with signatureShares := e.signatureShares ++ [share] } (markUnsolicited j r))
  | stores (e : SignatureSession) (recorded : roastSignersSid j r = some e.sessionId)
      (found : roastSignatureSession e.sessionId r = some e)
      (short : e.signatureShares.length + 1 ≠ sigQuorum cfg)
      (opened : initiateSession cfg (hear j next (setRoastSignatureSession
        { e with signatureShares := e.signatureShares ++ [share] } (markUnsolicited j r))) =
          some r')

theorem applyReceiveSigShare_called {j : ℕ} {share : Option String} {next : String}
    (h : applyReceiveSigShare cfg j share next i r = some r') :
    Called cfg j share next r r' := by
  obtain ⟨active, running, notFinal, -, stored, store, rest⟩ := applyReceiveSigShare_spec h
  obtain ⟨malicious, marked, -⟩ := markUnsolicited_frame j r
  have running' : (markUnsolicited j r).active.isSome := by simp [marked, running]
  have notFinal' : ¬ roastFinalSignatureSession cfg (markUnsolicited j r) := by
    rw [marked]
    exact notFinal
  have lookup : ∀ sid, roastSignatureSession sid (markUnsolicited j r) =
      roastSignatureSession sid r := by
    intro sid
    rw [marked]
    rfl
  have signer : roastSignersSid j (markUnsolicited j r) = roastSignersSid j r := by
    rw [marked]
    rfl
  cases recorded : roastSignersSid j r with
  | none =>
    obtain rfl : stored = markUnsolicited j r := by
      simpa [storeSignatureShare, signer, recorded] using store.symm
    rcases rest with ⟨final, -⟩ | ⟨-, opened⟩
    · exact absurd final notFinal'
    · exact .alone recorded opened
  | some sid =>
    obtain ⟨e, found, -, rfl⟩ := storeSignatureShare_of_some (signer.trans recorded) store
    rw [lookup] at found
    obtain ⟨-, rfl⟩ := roastSignatureSession_spec found
    rw [final_setRoastSignatureSession_iff running' notFinal', List.length_append,
      List.length_singleton] at rest
    rcases rest with ⟨full, same⟩ | ⟨short, opened⟩
    · exact .completes e recorded found full same
    · exact .stores e recorded found short opened

/-- After the last share of a session nobody is heard. Otherwise the signer is heard, and
the threshold of responsive signers makes the next session. -/
inductive Received (cfg : Config) (j : ℕ) (next : String) (r r' : Roast) : Prop where
  | ended (responsive : r'.responsiveSigner = r.responsiveSigner)
      (latest : r'.latestPreSignatureShare = r.latestPreSignatureShare)
      (counter : r'.sessionCounter = r.sessionCounter) (out : r'.msgOut = r.msgOut)
      (full : ∃ e ∈ r'.signatureSession, e.Full cfg)
  | heard (few : (hear j next r).responsiveSigner.length ≠ sigQuorum cfg)
      (responsive : r'.responsiveSigner = (hear j next r).responsiveSigner)
      (latest : r'.latestPreSignatureShare = (hear j next r).latestPreSignatureShare)
      (counter : r'.sessionCounter = r.sessionCounter) (out : r'.msgOut = r.msgOut)
  | opened (c : ℕ) (enough : (hear j next r).responsiveSigner.length = sigQuorum cfg)
      (responsive : r'.responsiveSigner = [])
      (latest : r'.latestPreSignatureShare = (hear j next r).latestPreSignatureShare)
      (counter : r.sessionCounter = some c) (counter' : r'.sessionCounter = some (c + 1))
      (session : roastSignatureSession (c + 1) r' = some (nextSession c (hear j next r)))
      (out : ∀ m ∈ r'.msgOut, m ∈ r.msgOut ∨
        m = .roastPreSignature (hear j next r).responsiveSigner
          (nextSession c (hear j next r)).preSignature)

theorem applyReceiveSigShare_received {j : ℕ} {share : Option String} {next : String}
    (h : applyReceiveSigShare cfg j share next i r = some r') :
    (∀ e ∈ r.signatureSession, ¬ e.Full cfg) ∧ Received cfg j next r r' := by
  obtain ⟨active, running, notFinal, -, stored, store, rest⟩ := applyReceiveSigShare_spec h
  obtain ⟨malicious, marked, -⟩ := markUnsolicited_frame j r
  refine ⟨OneFinalSession.not_full (by simp [running]) notFinal, ?_⟩
  have frame : ∃ sessions, stored =
      { r with maliciousSigner := malicious, signatureSession := sessions } := by
    rw [marked] at store
    rcases storeSignatureShare_spec store with ⟨-, rfl⟩ | ⟨session, -, -, rfl⟩
    all_goals exact ⟨_, rfl⟩
  obtain ⟨sessions, rfl⟩ := frame
  rcases rest with ⟨⟨-, full⟩, rfl⟩ | ⟨-, opened⟩
  · exact .ended rfl rfl rfl rfl full
  rcases initiateSession_spec opened with ⟨few, rfl⟩ | ⟨enough, c, counter, -, responsive, -,
    latest, counter', -, -, out⟩
  · exact .heard few rfl rfl rfl rfl
  · refine .opened c enough responsive latest counter counter' ?_ out
    rw [roastSignatureSession_initiateSession opened counter counter', if_pos rfl]
    rfl

@[simp] theorem hear_responsiveSigner (j : ℕ) (next : String) (r : Roast) :
    (hear j next r).responsiveSigner = assertzOnce j r.responsiveSigner := rfl

@[simp] theorem hear_latestPreSignatureShare (j : ℕ) (next : String) (r : Roast) :
    (hear j next r).latestPreSignatureShare =
      assertzOnce (j, next) (r.latestPreSignatureShare.filter fun e => e.1 ≠ j) := rfl

/-- A session that is opened by these steps and one of its signers who is responsive at
their end: he has been heard again. -/
def HeardAgain (cfg : Config) (i : ℕ) (r₀ : Roast) (history : List RoastOp) (r : Roast) : Prop :=
  ∀ earlier later e, history = earlier ++ later → Opening cfg i r₀ earlier e →
    ∀ k ∈ e.signers, k ∈ r.responsiveSigner → ∃ op ∈ later, op.signer = some k

/-- The tables of the coordinator after the steps of `history`. -/
structure Hearing (cfg : Config) (i : ℕ) (r₀ : Roast) (history : List RoastOp) (r : Roast) :
    Prop where
  nodup : r.responsiveSigner.Nodup
  few : r.responsiveSigner.length < sigQuorum cfg
  keys : (r.latestPreSignatureShare.map Prod.fst).Nodup
  present : ∀ k ∈ r.responsiveSigner, k ∈ r.latestPreSignatureShare.map Prod.fst
  heard : (∀ e ∈ r.signatureSession, ¬ e.Full cfg) →
    ∀ x ∈ r.latestPreSignatureShare, ∃ p, LastHeard x.1 p x.2 history
  again : HeardAgain cfg i r₀ history r

theorem RoastStep.path_unique (run : Path (RoastStep cfg i) r₀ history r)
    (other : Path (RoastStep cfg i) r₀ history r') : r = r' :=
  run.unique (fun _ _ _ _ step other => step.functional other) other

theorem Opening.last (opening : Opening cfg i r₀ (history ++ [op]) e)
    (run : Path (RoastStep cfg i) r₀ history r) (step : RoastStep cfg i r op r') :
    Opens r r' e := by
  obtain ⟨before, op', u, u', same, run', step', opens⟩ := opening
  obtain ⟨rfl, last⟩ := List.append_inj' same rfl
  obtain rfl : op = op' := by simpa using last
  cases RoastStep.path_unique run run'
  cases step.functional step'
  exact opens

theorem HeardAgain.snoc (again : HeardAgain cfg i r₀ history r)
    (run : Path (RoastStep cfg i) r₀ history r) (step : RoastStep cfg i r op r')
    (kept : ∀ k ∈ r'.responsiveSigner, k ∈ r.responsiveSigner ∨ op.signer = some k)
    (cleared : ∀ e, Opens r r' e → r'.responsiveSigner = []) :
    HeardAgain cfg i r₀ (history ++ [op]) r' := by
  intro earlier later e same opening k signer present
  rcases List.eq_nil_or_concat later with rfl | ⟨later, op', rfl⟩
  · rw [List.append_nil] at same
    subst same
    rw [cleared e (opening.last run step)] at present
    cases present
  · rw [List.concat_eq_append, ← List.append_assoc] at same
    obtain ⟨before, last⟩ := List.append_inj' same rfl
    obtain rfl : op = op' := by simpa using last
    rw [List.concat_eq_append]
    rcases kept k present with old | new
    · obtain ⟨x, inside, heard⟩ := again earlier later e before opening k signer old
      exact ⟨x, List.mem_append_left _ inside, heard⟩
    · exact ⟨op, List.mem_append_right _ (List.mem_singleton_self op), new⟩

theorem not_opens_of_counter
    (counter : r'.sessionCounter = r.sessionCounter ∨ r'.sessionCounter = some 0) :
    ¬ Opens r r' e := by
  rintro ⟨⟨c, before, after, -⟩, -⟩
  rcases counter with same | zero
  · rw [before, after] at same
    have number := Option.some.inj same
    omega
  · rw [after] at zero
    have number := Option.some.inj zero
    omega

namespace Hearing

/-- The steps on the tables that hear nobody and open nothing. -/
theorem quiet (hearing : Hearing cfg i r₀ history r) (run : Path (RoastStep cfg i) r₀ history r)
    (step : RoastStep cfg i r op r') (silent : op.signer = none)
    (responsive : r'.responsiveSigner = r.responsiveSigner)
    (latest : r'.latestPreSignatureShare = r.latestPreSignatureShare)
    (session : r'.signatureSession = r.signatureSession)
    (counter : r'.sessionCounter = r.sessionCounter ∨ r'.sessionCounter = some 0) :
    Hearing cfg i r₀ (history ++ [op]) r' where
  nodup := by
    rw [responsive]
    exact hearing.nodup
  few := by
    rw [responsive]
    exact hearing.few
  keys := by
    rw [latest]
    exact hearing.keys
  present := by
    rw [responsive, latest]
    exact hearing.present
  heard := by
    rw [session, latest]
    intro notFull x inside
    obtain ⟨p, last⟩ := hearing.heard notFull x inside
    exact ⟨p, lastHeard_snoc last (by simp [silent])⟩
  again := by
    apply hearing.again.snoc run step
    · intro k present
      rw [responsive] at present
      exact Or.inl present
    · intro e opens
      exact absurd opens (not_opens_of_counter counter)

theorem keys_hear (hearing : Hearing cfg i r₀ history r) (j : ℕ) (next : String) :
    ((hear j next r).latestPreSignatureShare.map Prod.fst).Nodup := by
  have absent : (j, next) ∉ r.latestPreSignatureShare.filter fun e => e.1 ≠ j := by simp
  rw [hear_latestPreSignatureShare, assertzOnce_of_not_mem absent, List.map_append,
    List.nodup_append]
  refine ⟨hearing.keys.sublist (List.filter_sublist.map _), by simp, ?_⟩
  intro k inside k' single same
  obtain ⟨x, kept, rfl⟩ := List.mem_map.mp inside
  simp only [List.map_cons, List.map_nil, List.mem_singleton] at single
  exact of_decide_eq_true (List.mem_filter.mp kept).2 (same.trans single)

theorem present_hear (hearing : Hearing cfg i r₀ history r) (j : ℕ) (next : String) :
    ∀ k ∈ (hear j next r).responsiveSigner,
      k ∈ (hear j next r).latestPreSignatureShare.map Prod.fst := by
  intro k inside
  simp only [hear_responsiveSigner, hear_latestPreSignatureShare, List.mem_map, mem_assertzOnce]
    at inside ⊢
  by_cases self : k = j
  · exact ⟨(j, next), Or.inr rfl, self.symm⟩
  · obtain ⟨x, listed, rfl⟩ := List.mem_map.mp (hearing.present k (inside.resolve_right self))
    exact ⟨x, Or.inl (List.mem_filter.mpr ⟨listed, by simpa using self⟩), rfl⟩

theorem heard_hear (hearing : Hearing cfg i r₀ history r)
    (notFull : ∀ e ∈ r.signatureSession, ¬ e.Full cfg) {p j : ℕ} {share : Option String}
    {next : String} : ∀ x ∈ (hear j next r).latestPreSignatureShare, ∃ p',
      LastHeard x.1 p' x.2 (history ++ [.receive p j share next]) := by
  intro x inside
  simp only [hear_latestPreSignatureShare, mem_assertzOnce] at inside
  rcases inside with old | rfl
  · obtain ⟨listed, other⟩ := List.mem_filter.mp old
    obtain ⟨p', last⟩ := hearing.heard notFull x listed
    have different : j ≠ x.1 := fun same => of_decide_eq_true other same.symm
    exact ⟨p', lastHeard_snoc last (by simpa [RoastOp.signer] using different)⟩
  · exact ⟨p, history, share, [], rfl, by simp⟩

theorem length_hear (hearing : Hearing cfg i r₀ history r) (j : ℕ) (next : String) :
    (hear j next r).responsiveSigner.length ≤ sigQuorum cfg := by
  have few := hearing.few
  rcases assertzOnceBy_cases (fun a b => decide (a = b)) j r.responsiveSigner with
    ⟨same, -⟩ | ⟨same, -⟩
  · rw [hear_responsiveSigner, assertzOnce, same]
    exact few.le
  · rw [hear_responsiveSigner, assertzOnce, same, List.length_append, List.length_singleton]
    exact few

theorem receive (hearing : Hearing cfg i r₀ history r) {p j : ℕ} {share : Option String}
    {next : String} (run : Path (RoastStep cfg i) r₀ history r)
    (step : RoastStep cfg i r (.receive p j share next) r') :
    Hearing cfg i r₀ (history ++ [.receive p j share next]) r' := by
  obtain ⟨notFull, received⟩ := applyReceiveSigShare_received step
  have length := hearing.length_hear j next
  cases received with
  | ended responsive latest counter out full =>
    refine ⟨by rw [responsive]; exact hearing.nodup, by rw [responsive]; exact hearing.few,
      by rw [latest]; exact hearing.keys, by rw [responsive, latest]; exact hearing.present, ?_, ?_⟩
    · intro none
      obtain ⟨e, inside, complete⟩ := full
      exact absurd complete (none e inside)
    · apply hearing.again.snoc run step
      · intro k present
        rw [responsive] at present
        exact Or.inl present
      · intro e opens
        exact absurd opens (not_opens_of_counter (Or.inl counter))
  | heard few responsive latest counter out =>
    refine ⟨?_, ?_, ?_, ?_, ?_, ?_⟩
    · rw [responsive]
      exact nodup_assertzOnce hearing.nodup
    · rw [responsive]
      omega
    · rw [latest]
      exact hearing.keys_hear j next
    · rw [responsive, latest]
      exact hearing.present_hear j next
    · intro _
      rw [latest]
      exact hearing.heard_hear notFull
    · apply hearing.again.snoc run step
      · intro k present
        rw [responsive, hear_responsiveSigner, mem_assertzOnce] at present
        exact present.imp id fun self => by simp [RoastOp.signer, self]
      · intro e opens
        exact absurd opens (not_opens_of_counter (Or.inl counter))
  | opened c enough responsive latest counter counter' session out =>
    refine ⟨by simp [responsive], ?_, ?_, by simp [responsive], ?_, ?_⟩
    · rw [responsive]
      exact sigQuorum_pos cfg
    · rw [latest]
      exact hearing.keys_hear j next
    · intro _
      rw [latest]
      exact hearing.heard_hear notFull
    · apply hearing.again.snoc run step
      · intro k present
        rw [responsive] at present
        cases present
      · intro e _
        exact responsive

theorem snoc (hearing : Hearing cfg i r₀ history r) (run : Path (RoastStep cfg i) r₀ history r)
    (step : RoastStep cfg i r op r') : Hearing cfg i r₀ (history ++ [op]) r' := by
  cases op with
  | start _ | stop | clearOut =>
    have step' := step
    cases step'
    exact hearing.quiet run step rfl rfl rfl rfl (Or.inl rfl)
  | resetCounter =>
    have step' := step
    cases step'
    exact hearing.quiet run step rfl rfl rfl rfl (Or.inr rfl)
  | answer share next =>
    have step' := step
    simp only [RoastStep, RoastOp.apply] at step'
    split at step'
    · cases step'
      exact hearing.quiet run step rfl rfl rfl rfl (Or.inl rfl)
    · cases step'
  | collectGarbage =>
    have step' := step
    cases step'
    refine ⟨List.nodup_nil, sigQuorum_pos cfg, List.nodup_nil, by simp [roastCollectGarbage],
      by simp [roastCollectGarbage], ?_⟩
    apply hearing.again.snoc run step
    · simp [roastCollectGarbage]
    · intro e _
      rfl
  | receive p j share next => exact hearing.receive run step

theorem of_path (run : Path (RoastStep cfg i) roastCollectGarbage history r) :
    Hearing cfg i roastCollectGarbage history r := by
  refine run.snoc_induction (motive := fun history r =>
    Hearing cfg i roastCollectGarbage history r) ?_ ?_
  · refine ⟨List.nodup_nil, sigQuorum_pos cfg, List.nodup_nil, by simp [roastCollectGarbage],
      by simp [roastCollectGarbage], ?_⟩
    rintro earlier later e same ⟨before, op, -, -, rfl, -⟩
    simp at same
  · intro history r op r' run hearing step
    exact hearing.snoc run step

end Hearing

theorem lookupPreSignatureShares_forall₂ (keys : (r.latestPreSignatureShare.map Prod.fst).Nodup)
    {signers : List ℕ} (present : ∀ k ∈ signers, k ∈ r.latestPreSignatureShare.map Prod.fst) :
    List.Forall₂ (fun k share => (k, share) ∈ r.latestPreSignatureShare) signers
      (lookupPreSignatureShares signers r) := by
  induction signers with
  | nil => exact .nil
  | cons k signers ih =>
    obtain ⟨⟨k', share⟩, listed, same⟩ := List.mem_map.mp (present k List.mem_cons_self)
    obtain rfl : k' = k := same
    have one : r.latestPreSignatureShare.filter (fun e => e.1 = k') = [(k', share)] := by
      apply filter_eq_singleton (List.Nodup.of_map _ keys) listed (by simp)
      intro x inside found
      exact List.inj_on_of_nodup_map keys inside listed (of_decide_eq_true found)
    have rest := ih fun j inside => present j (List.mem_cons_of_mem _ inside)
    rw [lookupPreSignatureShares, List.flatMap_cons, one]
    exact .cons listed rest

/-- The signers of the session are as many as the threshold and all different, and its
pre-signature aggregates the shares last heard from them, in their order. -/
structure LinedUp (cfg : Config) (steps : List RoastOp) (e : SignatureSession) : Prop where
  size : e.signers.length = sigQuorum cfg
  distinct : e.signers.Nodup
  shares : ∃ shares, e.preSignature = roastCryptoPreSigAggregate shares ∧
    List.Forall₂ (fun k share => ∃ p, LastHeard k p share steps) e.signers shares

theorem Opening.cases (opening : Opening cfg i r₀ history e) :
    ∃ before p j share next r c, history = before ++ [.receive p j share next] ∧
      Path (RoastStep cfg i) r₀ before r ∧ (∀ e ∈ r.signatureSession, ¬ e.Full cfg) ∧
      (hear j next r).responsiveSigner.length = sigQuorum cfg ∧
      e = nextSession c (hear j next r) := by
  obtain ⟨before, op, r, r', rfl, run, step, opens⟩ := opening
  cases op with
  | receive p j share next =>
    obtain ⟨notFull, received⟩ := applyReceiveSigShare_received step
    cases received with
    | ended _ _ counter _ _ | heard _ _ _ counter _ =>
      exact absurd opens (not_opens_of_counter (Or.inl counter))
    | opened c enough _ _ counter counter' session _ =>
      refine ⟨before, p, j, share, next, r, c, rfl, run, notFull, enough, ?_⟩
      obtain ⟨⟨c', current, -, number⟩, recorded⟩ := opens
      rw [counter] at current
      cases current
      rw [number, session] at recorded
      exact (Option.some.inj recorded).symm
  | resetCounter =>
    cases step
    exact absurd opens (not_opens_of_counter (Or.inr rfl))
  | collectGarbage =>
    cases step
    obtain ⟨⟨c, -, none, -⟩, -⟩ := opens
    cases none
  | answer share next =>
    simp only [RoastStep, RoastOp.apply] at step
    split at step
    · cases step
      exact absurd opens (not_opens_of_counter (Or.inl rfl))
    · cases step
  | start _ | stop | clearOut =>
    cases step
    exact absurd opens (not_opens_of_counter (Or.inl rfl))

theorem Opening.linedUp (opening : Opening cfg i roastCollectGarbage history e) :
    LinedUp cfg history e := by
  obtain ⟨before, p, j, share, next, r, c, rfl, run, notFull, enough, rfl⟩ := opening.cases
  have hearing := Hearing.of_path run
  refine ⟨enough, nodup_assertzOnce hearing.nodup, _, rfl, ?_⟩
  have lookup := lookupPreSignatureShares_forall₂ (hearing.keys_hear j next)
    (hearing.present_hear j next)
  exact lookup.imp fun k share' listed => hearing.heard_hear notFull _ listed

/-- Every pre-signature in the output is that of a session that was opened. -/
theorem opening_of_output (run : Path (RoastStep cfg i) roastCollectGarbage history r)
    (inside : .roastPreSignature signers preSignature ∈ r.msgOut) :
    ∃ earlier later e, history = earlier ++ later ∧
      Opening cfg i roastCollectGarbage earlier e ∧ e.signers = signers ∧
      e.preSignature = preSignature := by
  revert inside
  refine run.snoc_induction (motive := fun history r =>
    .roastPreSignature signers preSignature ∈ r.msgOut → ∃ earlier later e,
      history = earlier ++ later ∧ Opening cfg i roastCollectGarbage earlier e ∧
      e.signers = signers ∧ e.preSignature = preSignature) ?_ ?_
  · intro inside
    cases inside
  intro history r op r' run ih step inside
  have old : .roastPreSignature signers preSignature ∈ r.msgOut → ∃ earlier later e,
      history ++ [op] = earlier ++ later ∧ Opening cfg i roastCollectGarbage earlier e ∧
      e.signers = signers ∧ e.preSignature = preSignature := by
    intro inside
    obtain ⟨earlier, later, e, rfl, opening⟩ := ih inside
    exact ⟨earlier, later ++ [op], e, by simp, opening⟩
  cases op with
  | receive p j share next =>
    obtain ⟨-, received⟩ := applyReceiveSigShare_received step
    cases received with
    | ended _ _ _ out _ | heard _ _ _ _ out =>
      rw [out] at inside
      exact old inside
    | opened c _ _ _ counter counter' session out =>
      rcases out _ inside with before | new
      · exact old before
      · cases new
        exact ⟨_, [], _, (List.append_nil _).symm,
          ⟨history, _, r, r', rfl, run, step, ⟨c, counter, counter', rfl⟩, session⟩, rfl, rfl⟩
  | answer share next =>
    simp only [RoastStep, RoastOp.apply] at step
    split at step
    · cases step
      simp only [roastMsgOutAdd, mem_assertzOnce, reduceCtorEq, or_false] at inside
      exact old inside
    · cases step
  | clearOut | collectGarbage =>
    cases step
    cases inside
  | start _ | resetCounter | stop =>
    cases step
    exact old inside

theorem split_unique {α β : Type} {f : α → Option β} {xs xs' ys ys' : List α} {x x' : α} {b : β}
    (once : ((xs ++ x :: ys).filterMap f).Nodup) (same : xs ++ x :: ys = xs' ++ x' :: ys')
    (key : f x = some b) (key' : f x' = some b) : xs = xs' ∧ x = x' ∧ ys = ys' := by
  have later : ∀ {x x' : α} {zs ys' : List α}, ((x :: zs ++ x' :: ys').filterMap f).Nodup →
      f x = some b → f x' = some b → False := by
    intro x x' zs ys' once key key'
    rw [List.cons_append, List.filterMap_cons_some key, List.nodup_cons] at once
    exact once.1 (List.mem_filterMap.mpr ⟨x', by simp, key'⟩)
  rcases List.append_eq_append_iff.mp same with ⟨zs, rfl, rest⟩ | ⟨zs, rfl, rest⟩
  · cases zs with
    | nil =>
      obtain ⟨rfl, rfl⟩ := List.cons.inj rest
      exact ⟨by simp, rfl, rfl⟩
    | cons z zs =>
      obtain ⟨rfl, rfl⟩ := List.cons.inj rest
      rw [List.filterMap_append, List.nodup_append] at once
      exact (later once.2.1 key key').elim
  · cases zs with
    | nil =>
      obtain ⟨rfl, rfl⟩ := List.cons.inj rest
      exact ⟨by simp, rfl, rfl⟩
    | cons z zs =>
      obtain ⟨rfl, rfl⟩ := List.cons.inj rest
      rw [List.append_assoc, List.filterMap_append, List.nodup_append] at once
      exact (later once.2.1 key' key).elim

/-- A signer of a later session has been heard after the earlier one was opened. -/
theorem Opening.heard_between {mid : List RoastOp} {e' : SignatureSession}
    (opening : Opening cfg i roastCollectGarbage history e)
    (opening' : Opening cfg i roastCollectGarbage (history ++ mid) e') (more : mid ≠ [])
    (signer : k ∈ e.signers) (signer' : k ∈ e'.signers) : ∃ op ∈ mid, op.signer = some k := by
  obtain ⟨before, p, j, share, next, r, c, same, run, -, -, rfl⟩ := opening'.cases
  obtain ⟨mid, op, rfl⟩ := List.eq_nil_or_concat mid |>.resolve_left more
  rw [List.concat_eq_append, ← List.append_assoc] at same
  obtain ⟨earlier, last⟩ := List.append_inj' same rfl
  obtain rfl : op = .receive p j share next := by simpa using last
  rw [List.concat_eq_append]
  rcases mem_assertzOnce.mp signer' with old | rfl
  · obtain ⟨x, inside, heard⟩ :=
      (Hearing.of_path run).again history mid e earlier.symm opening k signer old
    exact ⟨x, List.mem_append_left _ inside, heard⟩
  · exact ⟨_, List.mem_append_right _ (List.mem_singleton_self _), rfl⟩

theorem opening_once {mid : List RoastOp} {e' : SignatureSession}
    (once : ((history ++ mid).filterMap RoastOp.delivery).Nodup)
    (opening : Opening cfg i roastCollectGarbage history e)
    (opening' : Opening cfg i roastCollectGarbage (history ++ mid) e')
    (signer : k ∈ e.signers) (signer' : k' ∈ e'.signers) (last : LastHeard k p share history)
    (last' : LastHeard k' p share' (history ++ mid)) : mid = [] := by
  by_contra more
  obtain ⟨before, signatureShare, after, rfl, -⟩ := last
  obtain ⟨before', signatureShare', after', same, quiet⟩ := last'
  rw [List.append_assoc, List.cons_append] at same once
  obtain ⟨-, one, rest⟩ := split_unique once same rfl rfl
  cases one
  obtain ⟨op, inside, heard⟩ := opening.heard_between opening' more signer signer'
  refine quiet op ?_ heard
  rw [← rest]
  exact List.mem_append_right _ inside

/-- What the history of a coordinator says of its pre-signatures: every delivery is heard
at most once, sessions line up with their signers, all output is of such sessions, and two
sessions that use the same delivery are one. -/
structure SharesOnce (cfg : Config) (i : ℕ) (y : Ledger) : Prop where
  path : Path (RoastStep cfg i) roastCollectGarbage y.history y.replica.roast
  heardOnce : y.deliveries.Nodup
  few : y.replica.roast.responsiveSigner.length < sigQuorum cfg
  oneLatest : ∀ k ∈ y.replica.roast.responsiveSigner,
    (y.replica.roast.latestPreSignatureShare.filter fun x => x.1 = k).length = 1
  linedUp : ∀ earlier later e, y.history = earlier ++ later →
    Opening cfg i roastCollectGarbage earlier e → LinedUp cfg earlier e
  output : ∀ signers preSignature,
    .roastPreSignature signers preSignature ∈ y.replica.roast.msgOut →
    ∃ earlier later e, y.history = earlier ++ later ∧
      Opening cfg i roastCollectGarbage earlier e ∧ e.signers = signers ∧
      e.preSignature = preSignature
  usedOnce : ∀ earlier later e earlier' later' e' k k' p share share',
    y.history = earlier ++ later → Opening cfg i roastCollectGarbage earlier e →
    y.history = earlier' ++ later' → Opening cfg i roastCollectGarbage earlier' e' →
    k ∈ e.signers → k' ∈ e'.signers → LastHeard k p share earlier →
    LastHeard k' p share' earlier' → earlier = earlier'

theorem SharesOnce.of_history {y : Ledger}
    (path : Path (RoastStep cfg i) roastCollectGarbage y.history y.replica.roast)
    (once : y.deliveries.Nodup) : SharesOnce cfg i y := by
  have hearing := Hearing.of_path path
  have within : ∀ {steps later : List RoastOp}, y.history = steps ++ later →
      (steps.filterMap RoastOp.delivery).Nodup := by
    intro steps later same
    rw [Ledger.deliveries, same] at once
    exact once.sublist ((List.sublist_append_left _ _).filterMap _)
  refine ⟨path, once, hearing.few, ?_, ?_, ?_, ?_⟩
  · intro k responsive
    obtain ⟨x, listed, rfl⟩ := List.mem_map.mp (hearing.present k responsive)
    rw [filter_eq_singleton (List.Nodup.of_map _ hearing.keys) listed (by simp), List.length_singleton]
    intro x' inside found
    exact List.inj_on_of_nodup_map hearing.keys inside listed (of_decide_eq_true found)
  · intro earlier later e _ opening
    exact opening.linedUp
  · intro signers preSignature inside
    exact opening_of_output path inside
  · intro earlier later e earlier' later' e' k k' p share share' same opening same' opening' signer
      signer' last last'
    have first : earlier <+: y.history := ⟨later, same.symm⟩
    have second : earlier' <+: y.history := ⟨later', same'.symm⟩
    rcases List.prefix_or_prefix_of_prefix first second with ⟨mid, rfl⟩ | ⟨mid, rfl⟩
    · rw [opening_once (within same') opening opening' signer signer' last last', List.append_nil]
    · rw [opening_once (within same) opening' opening signer' signer last' last, List.append_nil]

/-- Every run of a replica keeps its pre-signature shares apart. -/
theorem sharesOnce (start : Initial cfg s) (run : Path (Step cfg i) s labels t) :
    ∃ y, Path (LedgerStep cfg i) (Ledger.start s) labels y ∧ y.replica = t ∧
      SharesOnce cfg i y := by
  obtain ⟨y, recorded, same⟩ := Ledger.of_run run (Ledger.start s) rfl
  obtain ⟨hears, path⟩ := Ledger.roast_path start recorded
  exact ⟨y, recorded, same, SharesOnce.of_history path hears.once⟩

/-- Replica 0 coordinates; its first session is that of the COMMITs of replicas 0 and 1. -/
theorem sharesOnce_gathersShares : ∃ t,
    exec fourReplicas 0 Always gathersShares genesis = some t ∧
    .roastPreSignature [0, 1] "p0+p1" ∈ t.roast.msgOut ∧
    ∃ y, y.replica = t ∧ SharesOnce fourReplicas 0 y := by
  have runs : ∃ t, exec fourReplicas 0 Always gathersShares genesis = some t ∧
      .roastPreSignature [0, 1] "p0+p1" ∈ t.roast.msgOut := by
    decide +kernel
  obtain ⟨t, ran, inside⟩ := runs
  obtain ⟨y, -, same, once⟩ := sharesOnce genesis_initial (exec_path ran).unguard
  exact ⟨t, ran, inside, y, same, once⟩

end Fbft
