import Fbft.RoastTables
import Fbft.Tables
import Mathlib.Data.Finset.Card
import Mathlib.Data.Finset.Dedup

/-! The shares of a signature session and the messages they came from. The invariant
speaks about a run: each session has the list of the answers that it stores, and a
signer who is recorded for the session and may still answer has not answered yet. -/
namespace Fbft

open Database LabelledPath

variable {cfg : Config} {i j : ℕ} {now : ℚ} {s t : Replica} {a : Action} {r r' : Roast}
  {labels : List (ℚ × Action)}

/-- An answer: the signer and the share of a ROAST_SIGNATURE_SHARE. -/
abbrev Answer := ℕ × String

def answerOf (l : ℚ × Action) : Option Answer :=
  match l.2 with
  | .receiveSigShare signerId signatureShare _ => some (signerId, signatureShare)
  | _ => none

/-- The session as it was opened. -/
def SignatureSession.opened (e : SignatureSession) : SignatureSession :=
  { e with signatureShares := [] }

/-- In the run from `s` to `t` the session was opened, and the answers arrived later. -/
def AnsweredSince (cfg : Config) (i : ℕ) (s : Replica) (labels : List (ℚ × Action)) (t : Replica)
    (session : SignatureSession) (answers : List Answer) : Prop :=
  ∃ before after m, labels = before ++ after ∧ Path (Step cfg i) s before m ∧
    Path (Step cfg i) m after t ∧ session ∈ m.roast.signatureSession ∧
    answers.Sublist (after.filterMap answerOf)

/-- The shares of `e` are those answers, of different signers of the session. -/
structure StoresAnswers (e : SignatureSession) (answers : List Answer) : Prop where
  shares : e.signatureShares = answers.map fun x => some x.2
  distinct : (answers.map Prod.fst).Nodup
  signers : ∀ x ∈ answers, x.1 ∈ e.signers

/-- No session has more shares than signers, its shares are answers to it by different signers of
it, and a final session has `f + 1` of these. -/
structure GenuineSessions (cfg : Config) (i : ℕ) (s : Replica) (labels : List (ℚ × Action))
    (t : Replica) : Prop where
  short : ∀ e ∈ t.roast.signatureSession, e.signatureShares.length ≤ e.signers.length
  answered : ∀ e ∈ t.roast.signatureSession, ∃ answers,
    AnsweredSince cfg i s labels t e.opened answers ∧ StoresAnswers e answers
  final : roastFinalSignatureSession cfg t.roast → ∃ e ∈ t.roast.signatureSession, ∃ answers,
    AnsweredSince cfg i s labels t e.opened answers ∧ StoresAnswers e answers ∧
    (answers.map Prod.fst).toFinset.card = maxFaulty cfg + 1

/-- `genuine` says which answers may stand in a session, given as it was opened. -/
structure SessionTables (cfg : Config) (genuine : SignatureSession → List Answer → Prop)
    (r : Roast) : Prop where
  session : ∀ e ∈ r.signatureSession, ∃ answers, genuine e.opened answers ∧
    StoresAnswers e answers ∧ ∀ j, roastSignersSid j r = some e.sessionId →
      j ∈ e.signers ∧ (j ∈ answers.map Prod.fst →
        j ∈ r.responsiveSigner ∨ e.signatureShares.length = sigQuorum cfg)
  counter : ∀ j sid, roastSignersSid j r = some sid →
    ∃ counter, r.sessionCounter = some counter ∧ sid ≤ counter

/-- The answers allowed after one more share of signer `j`. -/
def AfterShare (genuine : SignatureSession → List Answer → Prop) (j : ℕ) (share : Option String)
    (e : SignatureSession) (answers : List Answer) : Prop :=
  genuine e answers ∨ answers = [] ∨
    ∃ earlier sigma, share = some sigma ∧ answers = earlier ++ [(j, sigma)] ∧ genuine e earlier

/-- A share is solicited when its signer is in no session, or has not answered the one
he is in; a COMMIT brings no share, so its sender must be in none. -/
def Solicited (j : ℕ) (share : Option String) (r : Roast) : Prop :=
  roastSignersSid j r = none ∨ (share ≠ none ∧ j ∉ r.responsiveSigner)

instance : Decidable (Solicited j share r) := inferInstanceAs (Decidable (_ ∨ _))

namespace SessionTables

variable {genuine genuine' : SignatureSession → List Answer → Prop} {share : Option String}

theorem mono (tables : SessionTables cfg genuine r)
    (weaker : ∀ e ∈ r.signatureSession, ∀ answers, StoresAnswers e answers →
      genuine e.opened answers → genuine' e.opened answers) :
    SessionTables cfg genuine' r where
  session := by
    intro e inside
    obtain ⟨answers, allowed, stores, open'⟩ := tables.session e inside
    exact ⟨answers, weaker e inside answers stores allowed, stores, open'⟩
  counter := tables.counter

theorem congr (tables : SessionTables cfg genuine r)
    (session : r'.signatureSession = r.signatureSession)
    (sid : r'.signersSid = r.signersSid) (responsive : r'.responsiveSigner = r.responsiveSigner)
    (counter : r'.sessionCounter = r.sessionCounter) : SessionTables cfg genuine r' := by
  have lookup : ∀ j, roastSignersSid j r' = roastSignersSid j r := by
    intro j
    simp only [roastSignersSid, sid]
  constructor
  · simpa only [session, lookup, responsive] using tables.session
  · simpa only [lookup, counter] using tables.counter

/-- A stored share is a new answer of a signer who had not answered, and only the session
that stores it can become final. -/
theorem store (tables : SessionTables cfg genuine r) (solicited : Solicited j share r)
    (notFinal : ∀ e ∈ r.signatureSession, e.signatureShares.length ≠ sigQuorum cfg)
    (h : storeSignatureShare j share r = some r') :
    (∀ e ∈ r'.signatureSession, ∃ answers, AfterShare genuine j share e.opened answers ∧
      StoresAnswers e answers ∧ ∀ k, roastSignersSid k r' = some e.sessionId →
        k ∈ e.signers ∧ (k ∈ answers.map Prod.fst → k ∈ r'.responsiveSigner ∨ (k = j ∧
          ∀ e' ∈ r'.signatureSession, e'.signatureShares.length = sigQuorum cfg → e' = e))) ∧
    r'.responsiveSigner = r.responsiveSigner ∧ r'.sessionCounter = r.sessionCounter ∧
    (∀ k, roastSignersSid k r' = roastSignersSid k r) := by
  have kept : ∀ e ∈ r.signatureSession, ∃ answers, AfterShare genuine j share e.opened answers ∧
      StoresAnswers e answers ∧ ∀ k, roastSignersSid k r = some e.sessionId →
        k ∈ e.signers ∧ (k ∈ answers.map Prod.fst → k ∈ r.responsiveSigner) := by
    intro e inside
    obtain ⟨answers, allowed, stores, open'⟩ := tables.session e inside
    refine ⟨answers, Or.inl allowed, stores, fun k recorded => ⟨(open' k recorded).1, ?_⟩⟩
    intro answered
    exact ((open' k recorded).2 answered).resolve_right (notFinal e inside)
  rcases storeSignatureShare_spec h with ⟨-, rfl⟩ | ⟨session, inside, recorded, rfl⟩
  · refine ⟨fun e inside => ?_, rfl, rfl, fun _ => rfl⟩
    obtain ⟨answers, allowed, stores, open'⟩ := kept e inside
    exact ⟨answers, allowed, stores, fun k recorded => ⟨(open' k recorded).1,
      fun answered => Or.inl ((open' k recorded).2 answered)⟩⟩
  refine ⟨?_, rfl, rfl, fun _ => rfl⟩
  intro e member
  rcases mem_setRoastSignatureSession.mp member with ⟨old, -⟩ | rfl
  · obtain ⟨answers, allowed, stores, open'⟩ := kept e old
    exact ⟨answers, allowed, stores, fun k recorded => ⟨(open' k recorded).1,
      fun answered => Or.inl ((open' k recorded).2 answered)⟩⟩
  obtain ⟨answers, allowed, stores, open'⟩ := tables.session session inside
  obtain ⟨signer, before⟩ := open' j recorded
  have fresh : j ∉ answers.map Prod.fst := by
    intro answered
    rcases solicited with absent | ⟨-, quiet⟩
    · rw [absent] at recorded
      cases recorded
    · rcases before answered with responsive | full
      · exact quiet responsive
      · exact notFinal session inside full
  obtain ⟨sigma, rfl⟩ : ∃ sigma, share = some sigma := by
    rcases solicited with absent | ⟨present, -⟩
    · rw [absent] at recorded
      cases recorded
    · exact Option.ne_none_iff_exists'.mp present
  refine ⟨answers ++ [(j, sigma)], Or.inr (Or.inr ⟨answers, sigma, rfl, rfl, allowed⟩), ?_, ?_⟩
  · refine ⟨by simp [stores.shares], ?_, ?_⟩
    · rw [List.map_append, List.map_singleton]
      exact stores.distinct.append (List.nodup_singleton _) (by simpa using fresh)
    · intro x answered
      rcases List.mem_append.mp answered with old | new
      · exact stores.signers x old
      · rw [List.mem_singleton.mp new]
        exact signer
  · intro k other
    refine ⟨(open' k other).1, fun answered => ?_⟩
    rw [List.map_append, List.mem_append] at answered
    rcases answered with old | new
    · exact Or.inl (((open' k other).2 old).resolve_right (notFinal session inside))
    · refine Or.inr ⟨by simpa using new, fun e' member' full => ?_⟩
      rcases mem_setRoastSignatureSession.mp member' with ⟨old, -⟩ | same
      · exact absurd full (notFinal e' old)
      · exact same

theorem initiate (tables : SessionTables cfg (AfterShare genuine j share) r)
    (h : initiateSession cfg r = some r') :
    SessionTables cfg (AfterShare genuine j share) r' := by
  rcases initiateSession_spec h with ⟨-, rfl⟩ | ⟨-, counter, current, -, responsive, -, -, counter',
    sid, sessions, -⟩
  · exact tables
  constructor
  · intro e member
    rcases (sessions e).mp member with ⟨old, other⟩ | rfl
    · obtain ⟨answers, allowed, stores, open'⟩ := tables.session e old
      refine ⟨answers, allowed, stores, fun k recorded => ?_⟩
      rw [sid k] at recorded
      split at recorded
      · exact absurd (Option.some.inj recorded).symm other
      · rename_i absent
        refine ⟨(open' k recorded).1, fun answered => ?_⟩
        rcases (open' k recorded).2 answered with present | full
        · exact absurd present absent
        · exact Or.inr full
    · refine ⟨[], Or.inr (Or.inl rfl), ⟨rfl, List.nodup_nil, by simp⟩, fun k recorded => ?_⟩
      rw [sid k] at recorded
      split at recorded
      · rename_i present
        exact ⟨present, by simp⟩
      · obtain ⟨counter'', same, bound⟩ := tables.counter k _ recorded
        rw [current] at same
        cases same
        exact absurd bound (by simp [nextSession])
  · intro k id recorded
    refine ⟨counter + 1, counter', ?_⟩
    rw [sid k] at recorded
    split at recorded
    · exact (Option.some.inj recorded).symm.le
    · obtain ⟨counter'', same, bound⟩ := tables.counter k id recorded
      rw [current] at same
      cases same
      omega

theorem receive (tables : SessionTables cfg genuine r) (solicited : Solicited j share r)
    (h : applyReceiveSigShare cfg j share next i r = some r') :
    SessionTables cfg (AfterShare genuine j share) r' := by
  obtain ⟨active, running, notFinal, -, stored, store, rest⟩ := applyReceiveSigShare_spec h
  obtain ⟨malicious, marked, -⟩ := markUnsolicited_frame j r
  have shortOf : ∀ e ∈ r.signatureSession, e.signatureShares.length ≠ sigQuorum cfg :=
    fun e inside full => notFinal ⟨by simp [running], e, inside, full⟩
  have tables' : SessionTables cfg genuine (markUnsolicited j r) := by
    rw [marked]
    exact tables.congr rfl rfl rfl rfl
  have solicited' : Solicited j share (markUnsolicited j r) := by
    rw [marked]
    exact solicited
  have shortOf' : ∀ e ∈ (markUnsolicited j r).signatureSession,
      e.signatureShares.length ≠ sigQuorum cfg := by
    rw [marked]
    exact shortOf
  obtain ⟨sessions, responsive, counter, sid⟩ := tables'.store solicited' shortOf' store
  have bound : ∀ k id, roastSignersSid k stored = some id →
      ∃ counter, stored.sessionCounter = some counter ∧ id ≤ counter := by
    intro k id recorded
    rw [counter]
    exact tables'.counter k id ((sid k).symm.trans recorded)
  rcases rest with ⟨final, rfl⟩ | ⟨-, opened⟩
  · refine ⟨fun e inside => ?_, bound⟩
    obtain ⟨answers, allowed, stores, open'⟩ := sessions e inside
    refine ⟨answers, allowed, stores, fun k recorded => ⟨(open' k recorded).1, fun answered => ?_⟩⟩
    rcases (open' k recorded).2 answered with present | ⟨-, only⟩
    · exact Or.inl present
    · obtain ⟨-, e', inside', full⟩ := final
      exact Or.inr (only e' inside' full ▸ full)
  · apply initiate _ opened
    refine ⟨fun e inside => ?_, bound⟩
    obtain ⟨answers, allowed, stores, open'⟩ := sessions e inside
    refine ⟨answers, allowed, stores, fun k recorded => ⟨(open' k recorded).1, fun answered => ?_⟩⟩
    left
    rcases (open' k recorded).2 answered with present | ⟨rfl, -⟩
    · exact mem_assertzOnce.mpr (Or.inl present)
    · exact mem_assertzOnce.mpr (Or.inr rfl)

theorem receiveNone (tables : SessionTables cfg genuine r) (solicited : Solicited j none r)
    (h : applyReceiveSigShare cfg j none next i r = some r') :
    SessionTables cfg (fun e answers => genuine e answers ∨ answers = []) r' := by
  refine (tables.receive solicited h).mono fun e _ answers _ allowed => ?_
  rcases allowed with old | empty | ⟨_, _, none, -⟩
  · exact Or.inl old
  · exact Or.inr empty
  · cases none

/-- Where no signer is in a session, ROAST_INIT starts anew over the old sessions. -/
theorem restart (tables : SessionTables cfg genuine r) (empty : r.signersSid = [])
    (entry : Option RoastActive) :
    SessionTables cfg genuine (setRoastSessionCounter 0 (setRoastActive entry r)) := by
  have absent : ∀ k, roastSignersSid k r = none := by simp [roastSignersSid, empty]
  constructor
  · intro e inside
    obtain ⟨answers, allowed, stores, -⟩ := tables.session e inside
    refine ⟨answers, allowed, stores, fun k recorded => ?_⟩
    have impossible := (absent k).symm.trans recorded
    cases impossible
  · intro k sid recorded
    have impossible := (absent k).symm.trans recorded
    cases impossible

/-- A signer in no session and not responsive stays so while another one is heard. -/
theorem receive_quiet (h : applyReceiveSigShare cfg j share next i r = some r') (other : k ≠ j)
    (absent : roastSignersSid k r = none) (quiet : k ∉ r.responsiveSigner) :
    roastSignersSid k r' = none ∧ k ∉ r'.responsiveSigner := by
  obtain ⟨-, -, -, -, stored, store, rest⟩ := applyReceiveSigShare_spec h
  obtain ⟨malicious, marked, -⟩ := markUnsolicited_frame j r
  have same : roastSignersSid k stored = none ∧ k ∉ stored.responsiveSigner := by
    rw [marked] at store
    rcases storeSignatureShare_spec store with ⟨-, rfl⟩ | ⟨session, -, -, rfl⟩
    all_goals exact ⟨absent, quiet⟩
  rcases rest with ⟨-, rfl⟩ | ⟨-, opened⟩
  · exact same
  have quiet' : k ∉ (roastMarkResponsive j
      (setLatestPreSignatureShare j next stored)).responsiveSigner := by
    intro inside
    rcases mem_assertzOnce.mp inside with old | new
    · exact same.2 old
    · exact other new
  rcases initiateSession_spec opened with ⟨-, rfl⟩ | ⟨-, counter, -, -, responsive, -, -, -, sid, -⟩
  · exact ⟨same.1, quiet'⟩
  · rw [sid k, if_neg quiet', responsive]
    exact ⟨same.1, List.not_mem_nil⟩

theorem receiveCommits {commits : List Commit} (tables : SessionTables cfg genuine r)
    (fresh : ∀ m ∈ commits, roastSignersSid m.senderId r = none ∧
      m.senderId ∉ r.responsiveSigner)
    (distinct : (commits.map Commit.senderId).Nodup)
    (h : receiveCommitShares cfg i commits r = some r') :
    SessionTables cfg (fun e answers => genuine e answers ∨ answers = []) r' := by
  induction commits generalizing r genuine with
  | nil =>
    cases h
    exact tables.mono fun _ _ _ _ allowed => Or.inl allowed
  | cons m commits ih =>
    obtain ⟨r₁, first, rest⟩ := Option.bind_eq_some_iff.mp h
    obtain ⟨new, distinct⟩ := List.nodup_cons.mp distinct
    have absent := (fresh m List.mem_cons_self).1
    have fresh₁ : ∀ m' ∈ commits, roastSignersSid m'.senderId r₁ = none ∧
        m'.senderId ∉ r₁.responsiveSigner := by
      intro m' later
      obtain ⟨absent', quiet'⟩ := fresh m' (List.mem_cons_of_mem _ later)
      have other : m'.senderId ≠ m.senderId := fun same => new (same ▸ List.mem_map_of_mem later)
      exact receive_quiet first other absent' quiet'
    have opened := ih (tables.receiveNone (Or.inl absent) first) fresh₁ distinct rest
    exact opened.mono fun e _ answers _ allowed => by tauto

end SessionTables

/-- COMMITs feed ROAST only for signers in no session, a ROAST_SIGNATURE_SHARE answers the
session of a signer not yet responsive, and the coordinator starts with no signer in a
session and one COMMIT for each. -/
def AnswersSolicited (cfg : Config) (i : ℕ) (s : Replica) (l : ℚ × Action) : Prop :=
  match l.2 with
  | .receiveCommit v n _ j _ =>
    inWv v n s → commitFeedsRoast cfg v n i s.roast → roastSignersSid j s.roast = none
  | .receiveSigShare j _ _ => roastSignersSid j s.roast = none ∨ j ∉ s.roast.responsiveSigner
  | .roastInit _ v n => primary cfg v = i → s.roast.signersSid = [] ∧
      (∀ m ∈ commitsFor v n s, m.senderId ∉ s.roast.responsiveSigner) ∧
      ((commitsFor v n s).map Commit.senderId).Nodup
  | _ => True

instance : Decidable (AnswersSolicited cfg i s l) := by
  obtain ⟨now, a⟩ := l
  apply a.casesOn (motive := fun a => Decidable (AnswersSolicited cfg i s (now, a))) <;> intros <;>
    dsimp only [AnswersSolicited] <;> infer_instance

def AfterLabel (genuine : SignatureSession → List Answer → Prop) (l : ℚ × Action)
    (e : SignatureSession) (answers : List Answer) : Prop :=
  genuine e answers ∨ answers = [] ∨
    ∃ earlier x, answerOf l = some x ∧ answers = earlier ++ [x] ∧ genuine e earlier

theorem SessionTables.step {genuine : SignatureSession → List Answer → Prop}
    (tables : SessionTables cfg genuine s.roast) (step : Step cfg i s (now, a) t)
    (solicited : AnswersSolicited cfg i s (now, a)) :
    SessionTables cfg (AfterLabel genuine (now, a)) t.roast := by
  have next := step.tables.roast
  have kept : SessionTables cfg (AfterLabel genuine (now, a)) s.roast :=
    tables.mono fun _ _ _ _ allowed => Or.inl allowed
  cases a with
  | msgOutClearAll =>
    rw [← Option.some.inj next]
    exact kept.congr rfl rfl rfl rfl
  | receiveCommit v n data j sig =>
    simp only [Action.nextRoast] at next
    split at next
    · rename_i feeds
      have received := tables.receiveNone (Or.inl (solicited feeds.1 feeds.2)) next
      exact received.mono fun e _ answers _ allowed => allowed.imp id Or.inl
    · rw [← Option.some.inj next]
      exact kept
  | receiveBlock height time blockHash =>
    rw [← Option.some.inj next]
    constructor <;> simp [roastCollectGarbage, roastSignersSid]
  | sendViewChange v =>
    rw [← Option.some.inj next]
    exact kept.congr rfl rfl rfl rfl
  | roastInit d v n =>
    simp only [Action.nextRoast, applyRoastInit] at next
    split at next
    · rename_i coordinator
      obtain ⟨empty, quiet, distinct⟩ := solicited coordinator
      have absent : ∀ j, roastSignersSid j s.roast = none := by simp [roastSignersSid, empty]
      have opened := (tables.restart empty (some ⟨v, n, d⟩)).receiveCommits
        (fun m inside => ⟨absent m.senderId, quiet m inside⟩) distinct next
      exact opened.mono fun e _ answers _ allowed => allowed.imp id Or.inl
    · rw [← Option.some.inj next]
      exact kept.congr rfl rfl rfl rfl
  | receivePreSignature signers preSignature share nextShare =>
    simp only [Action.nextRoast, applyReceivePreSignature] at next
    split at next
    · rw [← Option.some.inj next]
      exact kept.congr rfl rfl rfl rfl
    · cases next
  | receiveSigShare j share nextShare =>
    have solicited' : Solicited j (some share) s.roast :=
      solicited.imp id fun quiet => ⟨by simp, quiet⟩
    have received := tables.receive solicited' next
    refine received.mono fun e _ answers _ allowed => ?_
    rcases allowed with old | empty | ⟨earlier, sigma, same, rfl, before⟩
    · exact Or.inl old
    · exact Or.inr (Or.inl empty)
    · cases same
      exact Or.inr (Or.inr ⟨earlier, _, rfl, rfl, before⟩)
  | _ =>
    rw [← Option.some.inj next]
    exact kept

theorem AnsweredSince.extend {session : SignatureSession} {answers : List Answer}
    (answered : AnsweredSince cfg i s labels t session answers) (step : Step cfg i t l u) :
    AnsweredSince cfg i s (labels ++ [l]) u session answers ∧
    ∀ x, answerOf l = some x →
      AnsweredSince cfg i s (labels ++ [l]) u session (answers ++ [x]) := by
  obtain ⟨before, after, m, rfl, first, second, opened, listed⟩ := answered
  refine ⟨⟨before, after ++ [l], m, by simp, first, second.snoc step, opened, ?_⟩, fun x same =>
    ⟨before, after ++ [l], m, by simp, first, second.snoc step, opened, ?_⟩⟩
  · rw [List.filterMap_append]
    exact listed.trans (List.sublist_append_left _ _)
  · rw [List.filterMap_append]
    exact listed.append (by simp [same])

theorem sessionTables_run (start : Initial cfg s)
    (run : Path (Guarded (Step cfg i) (AnswersSolicited cfg i)) s labels t) :
    SessionTables cfg (AnsweredSince cfg i s labels t) t.roast := by
  refine run.snoc_induction
    (motive := fun labels t => SessionTables cfg (AnsweredSince cfg i s labels t) t.roast) ?_ ?_
  · obtain ⟨height, blockHash, timestamp, view, rfl⟩ := start
    constructor <;> simp [initNotx, setView, roastCollectGarbage, roastSignersSid]
  · rintro labels t l u run tables ⟨step, solicited⟩
    refine (tables.step step solicited).mono fun e inside answers stores allowed => ?_
    rcases allowed with old | rfl | ⟨earlier, x, same, rfl, before⟩
    · exact (old.extend step).1
    · have fresh : e.opened = e := by
        have empty : e.signatureShares = [] := stores.shares
        simp [SignatureSession.opened, ← empty]
      exact ⟨labels ++ [l], [], u, by simp, run.unguard.snoc step, .nil, fresh ▸ inside, by simp⟩
    · exact (before.extend step).2 x same

theorem StoresAnswers.length_le {e : SignatureSession} {answers : List Answer}
    (stores : StoresAnswers e answers) : e.signatureShares.length ≤ e.signers.length := by
  have subset : answers.map Prod.fst ⊆ e.signers := by
    intro j inside
    obtain ⟨x, answered, rfl⟩ := List.mem_map.mp inside
    exact stores.signers x answered
  have bound := (stores.distinct.subperm subset).length_le
  simpa [stores.shares] using bound

/-- Sessions hold one genuine share for each of their signers at most, and a final one has
the threshold of them, along every run in which all answers are solicited. -/
theorem genuineSessions_of_answersSolicited (start : Initial cfg s)
    (run : Path (Guarded (Step cfg i) (AnswersSolicited cfg i)) s labels t) :
    GenuineSessions cfg i s labels t := by
  have tables := sessionTables_run start run
  refine ⟨fun e inside => ?_, fun e inside => ?_, ?_⟩
  · obtain ⟨answers, -, stores, -⟩ := tables.session e inside
    exact stores.length_le
  · obtain ⟨answers, answered, stores, -⟩ := tables.session e inside
    exact ⟨answers, answered, stores⟩
  · rintro ⟨-, e, inside, full⟩
    obtain ⟨answers, answered, stores, -⟩ := tables.session e inside
    refine ⟨e, inside, answers, answered, stores, ?_⟩
    rw [List.toFinset_card_of_nodup stores.distinct, List.length_map]
    simpa [stores.shares, sigQuorum] using full

def coordinates : List (ℚ × Action) :=
  [(60, .receiveRequest "(H=1, T=60)" 60), (60, .sendPrePrepare "(H=1, T=60)" "B60" 0 1),
    (60, .receivePrepare 0 1 "(H=1, T=60)" 1 "S1"), (60, .receivePrepare 0 1 "(H=1, T=60)" 2 "S2"),
    (60, .sendCommit "(H=1, T=60)" 0 1 "p0"), (60, .receiveCommit 0 1 "p1" 1 "S1"),
    (60, .receiveCommit 0 1 "p2" 2 "S2"), (60, .roastInit "(H=1, T=60)" 0 1)]

theorem genuineSessions_coordinates : ∃ t,
    exec fourReplicas 0 (AnswersSolicited fourReplicas 0)
      (coordinates ++ [(60, .receiveSigShare 1 "x1" "q1"), (60, .receiveSigShare 2 "x2" "q2")])
      genesis = some t ∧
    t.roast.signatureSession =
      [⟨1, [0, 1], "p0+p1", [some "x1"]⟩, ⟨2, [2, 1], "p2+q1", [some "x2"]⟩] ∧
    GenuineSessions fourReplicas 0 genesis
      (coordinates ++ [(60, .receiveSigShare 1 "x1" "q1"), (60, .receiveSigShare 2 "x2" "q2")]) t := by
  have runs : ∃ t, exec fourReplicas 0 (AnswersSolicited fourReplicas 0)
      (coordinates ++ [(60, .receiveSigShare 1 "x1" "q1"), (60, .receiveSigShare 2 "x2" "q2")])
      genesis = some t ∧ t.roast.signatureSession =
        [⟨1, [0, 1], "p0+p1", [some "x1"]⟩, ⟨2, [2, 1], "p2+q1", [some "x2"]⟩] := by
    decide +kernel
  obtain ⟨t, ran, sessions⟩ := runs
  exact ⟨t, ran, sessions, genuineSessions_of_answersSolicited genesis_initial (exec_path ran)⟩

/-- Replica 1 answers its first session and then repeats the message twice. -/
def repeatsAnswer : List (ℚ × Action) :=
  coordinates ++ [(60, .receiveSigShare 1 "x1" "q1"), (60, .receiveSigShare 1 "x1" "q1"),
    (60, .receiveSigShare 1 "x1" "q1")]

/-- The second session becomes final with two shares of one signer, who was marked
malicious and heard all the same. -/
theorem repeatsAnswer_not_genuineSessions : ∃ s labels t, Initial fourReplicas s ∧
    Path (Step fourReplicas 0) s labels t ∧ ¬ GenuineSessions fourReplicas 0 s labels t := by
  have runs : ∃ t, exec fourReplicas 0 Always repeatsAnswer genesis = some t ∧
      t.roast.signatureSession =
        [⟨1, [0, 1], "p0+p1", [some "x1"]⟩, ⟨2, [2, 1], "p2+q1", [some "x1", some "x1"]⟩] := by
    decide +kernel
  obtain ⟨t, ran, sessions⟩ := runs
  refine ⟨genesis, repeatsAnswer, t, genesis_initial, (exec_path ran).unguard, fun genuine => ?_⟩
  obtain ⟨answers, ⟨before, after, m, split, -, -, -, listed⟩, stores⟩ :=
    genuine.answered ⟨2, [2, 1], "p2+q1", [some "x1", some "x1"]⟩ (by simp [sessions])
  have events : repeatsAnswer.filterMap answerOf = List.replicate 3 (1, "x1") := by decide
  have one : ∀ x ∈ answers, x.1 = 1 := by
    intro x answered
    have heard : x ∈ repeatsAnswer.filterMap answerOf := by
      rw [split, List.filterMap_append]
      exact List.mem_append_right _ (listed.subset answered)
    rw [events] at heard
    rw [List.eq_of_mem_replicate heard]
  have constant : answers.map Prod.fst = List.replicate answers.length 1 :=
    List.eq_replicate_iff.mpr ⟨by simp, by simpa using one⟩
  have few : answers.length ≤ 1 := by
    have distinct := stores.distinct
    rw [constant] at distinct
    exact List.nodup_replicate.mp distinct
  have two : answers.length = 2 := by simpa using congrArg List.length stores.shares.symm
  omega

end Fbft
