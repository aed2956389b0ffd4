import Fbft.InSync
import Fbft.Quiescence
import Fbft.ViewChangeDigests
import Fbft.ViewChanges

/-! A view change cannot get stuck. Where the correct replicas have asked for one view above one
block, and what faulty replicas have told its primary has reached the others, all of them are
active in it once nothing is left to do. -/
namespace Fbft

open Database LabelledPath

variable {cfg : Config} {c : Cluster} {w : World} {i j k v h : ℕ} {now : ℚ} {x : Node}
  {s t : Replica} {a : Action} {nu : List NuEntry} {chi : List ChiEntry} {block : String}
  {sha : String → String} {atomJsonDict : Json → String}

/-- Nothing is left to do about the view: the messages of the correct replicas have arrived,
the unbound blocks among them as some text, and no correct replica is about to send or to
process a NEW_VIEW. -/
structure ViewQuiescent (c : Cluster) (w : World) : Prop where
  delivered : ∀ j, c.Correct j → ∀ k, c.Correct k → ∀ m ∈ (w j).sent, ∃ received sig,
    m.readAs received ∧ c.verify j received sig = true ∧ ∀ a ∈ received.arrival j sig,
      received.feedsRoast c.cfg k (w k).state.roast ∨ a.Settled c.cfg k (w k).state
  starts : ∀ k, c.Correct k → ∀ nu chi, ¬ preSendNewView c.cfg nu chi k (w k).state
  enters : ∀ k, c.Correct k → ∀ hi nu chi, ¬ preProcessNewView c.cfg hi nu chi k (w k).state

def Cluster.KeepsWindow (c : Cluster) (w : World) (l : ClusterLabel) : Prop :=
  Fbft.KeepsWindow c.cfg (w l.1).state l.2

instance (c : Cluster) (w : World) (l : ClusterLabel) : Decidable (c.KeepsWindow w l) :=
  inferInstanceAs (Decidable (KeepsWindow _ _ _))

/-- The correct replicas have asked for view `v` above one block at height `h`. What its primary
has heard from faulty replicas has reached the others too, and speaks of no block below `h` and of
no other block `h`. The correct replicas know all requests that the primary has heard of, from
correct replicas as well. -/
structure ChangeTo (c : Cluster) (w : World) (v h : ℕ) (block : String) : Prop where
  positive : 0 < v
  primary : primary c.cfg v ∉ c.faulty
  view : ∀ k, c.Correct k → (w k).state.view = v
  height : ∀ k, c.Correct k → lowWatermark (w k).state = h
  above : ∀ k, c.Correct k → ∃ x ∈ (w k).state.checkpoint, x.stateVal = block
  asked : ∀ k, c.Correct k → ∃ pi qi, .viewChange v h block pi qi ∈ (w k).sent
  spread : ∀ m ∈ (w (Fbft.primary c.cfg v)).state.msgLogViewChange, m.senderId ∈ c.faulty →
    ∀ k, c.Correct k → ∃ m' ∈ (w k).state.msgLogViewChange, m'.content = m.content
  level : ∀ m ∈ (w (Fbft.primary c.cfg v)).state.msgLogViewChange, m.senderId ∈ c.faulty → h ≤ m.hi
  known : ∀ m ∈ (w (Fbft.primary c.cfg v)).state.msgLogViewChange, m.senderId ∈ c.faulty →
    m.hi = h → m.c = block
  requests : ∀ m ∈ (w (Fbft.primary c.cfg v)).state.msgLogViewChange, ∀ e ∈ m.pi,
    ∀ k, c.Correct k → ∃ r ∈ (w k).state.msgLogRequest, r.reqDigest = e.reqDigest

/-- Nu and Chi were made from a log whose VIEW_CHANGEs are still there. -/
structure MadeFrom (cfg : Config) (i v : ℕ) (nu : List NuEntry) (chi : List ChiEntry)
    (s t : Replica) : Prop where
  view : s.view = v
  log : ViewChangeLog cfg i s
  digested : Digested cfg s
  sends : preSendNewView cfg nu chi i s
  holds : Holds nu s t
  own : ∀ m ∈ t.msgLogViewChange, m.senderId = i → m.v = v → ⟨m.senderId, m.vcDigest⟩ ∈ nu

/-- The VIEW_CHANGE and the NEW_VIEW that a node has sent for its view stand on its log. -/
structure StandsOn (cfg : Config) (i : ℕ) (x : Node) : Prop where
  digested : Digested cfg x.state
  asks : ∀ v hi block pi qi, .viewChange v hi block pi qi ∈ x.sent → v ≤ x.state.view ∧
    (v = x.state.view → ∃ m ∈ x.state.msgLogViewChange, m.senderId = i ∧
      m.message = .viewChange v hi block pi qi)
  announces : ∀ v nu chi, .newView v nu chi ∈ x.sent → v ≤ x.state.view ∧
    (v = x.state.view → ∃ s, MadeFrom cfg i v nu chi s x.state)

theorem Step.keeps_viewChange (step : Step cfg i s (now, a) t) {m : ViewChange}
    (logged : m ∈ s.msgLogViewChange) (current : t.view ≤ m.v) : m ∈ t.msgLogViewChange := by
  refine step.mem_viewChange.mpr ⟨Or.inl logged, ?_⟩
  cases a with
  | recoverView v | sendViewChange v =>
    have next : t.view = v := step.tables.view
    simp only [Action.keepsView, decide_not, Bool.not_eq_true', decide_eq_false_iff_not]
    omega
  | _ => rfl

theorem MadeFrom.step {r : Replica} (made : MadeFrom cfg i v nu chi r s)
    (log : ViewChangeLog cfg i s) (step : Step cfg i s (now, a) t) (before : s.view = v)
    (after : t.view = v) : MadeFrom cfg i v nu chi r t := by
  refine { made with holds := fun m logged listed => ?_, own := fun m logged sender view => ?_ }
  · obtain ⟨m', inside, same⟩ := made.holds m logged listed
    have current := log.current m' inside
    exact ⟨m', step.keeps_viewChange inside (by omega), same⟩
  · obtain ⟨old | new, -⟩ := step.mem_viewChange.mp logged
    · exact made.own m old sender view
    · rcases step.new_viewChange new with ⟨-, -, raised, -⟩ | ⟨other, -⟩
      · omega
      · exact absurd sender other

theorem MadeFrom.of_sends (log : ViewChangeLog cfg i s) (digested : Digested cfg s)
    (step : Step cfg i s (now, .sendNewView nu chi) t) :
    MadeFrom cfg i s.view nu chi s t := by
  have same : t.msgLogViewChange = s.msgLogViewChange := by
    cases step.apply
    rfl
  refine ⟨rfl, log, digested, step.pre, fun m logged _ => ⟨m, same ▸ logged, rfl⟩,
    fun m logged _ _ => ?_⟩
  rw [same] at logged
  exact (mem_nu_iff step.pre.2.1).mpr ⟨m, logged, rfl⟩

namespace StandsOn

theorem initial (start : Initial cfg s) : StandsOn cfg i ⟨s, [], []⟩ := by
  obtain ⟨height, hash, timestamp, view, rfl⟩ := start
  constructor <;> simp [Digested, initNotx, setView]

private theorem step_asks (stands : StandsOn cfg i x) (journal : Journal cfg i x)
    (step : Step cfg i x.state (now, a) t) :
    ∀ v hi block pi qi, .viewChange v hi block pi qi ∈ (x.record t).sent → v ≤ t.view ∧
      (v = t.view → ∃ m ∈ t.msgLogViewChange, m.senderId = i ∧
        m.message = .viewChange v hi block pi qi) := by
  intro v hi block pi qi said
  have le := step.view_le
  rcases journal.mem_sent step said with old | new
  · obtain ⟨before, stays⟩ := stands.asks v hi block pi qi old
    refine ⟨before.trans le, fun current => ?_⟩
    obtain ⟨m, inside, sender, message⟩ := stays (by omega)
    have view : m.v = v := by
      cases message
      rfl
    exact ⟨m, step.keeps_viewChange inside (by omega), sender, message⟩
  · obtain ⟨acts, checkpoint, reported, message⟩ := Action.putsOut_of_mem new
    subst acts
    have next : t.view = v := step.tables.view
    have added : ownViewChange cfg v i checkpoint x.state ∈
        (Action.sendViewChange v).newViewChanges cfg i x.state :=
      List.mem_map.mpr ⟨checkpoint, Option.mem_toList.mpr reported, rfl⟩
    refine ⟨next.ge, fun _ => ⟨_, step.mem_viewChange.mpr ⟨Or.inr added, ?_⟩, rfl, message⟩⟩
    simp [Action.keepsView, ownViewChange]

private theorem step_announces (stands : StandsOn cfg i x) (journal : Journal cfg i x)
    (step : Step cfg i x.state (now, a) t) :
    ∀ v nu chi, .newView v nu chi ∈ (x.record t).sent → v ≤ t.view ∧
      (v = t.view → ∃ s, MadeFrom cfg i v nu chi s t) := by
  intro v nu chi said
  have le := step.view_le
  rcases journal.mem_sent step said with old | new
  · obtain ⟨before, stays⟩ := stands.announces v nu chi old
    refine ⟨before.trans le, fun current => ?_⟩
    have same : v = x.state.view := by omega
    obtain ⟨s, made⟩ := stays same
    exact ⟨s, made.step journal.viewChanges step same.symm current.symm⟩
  · obtain ⟨acts, view⟩ := Action.putsOut_of_mem new
    subst acts view
    exact ⟨le, fun _ => ⟨_, .of_sends journal.viewChanges stands.digested step⟩⟩

theorem step (stands : StandsOn cfg i x) (journal : Journal cfg i x)
    (step : Step cfg i x.state (now, a) t) : StandsOn cfg i (x.record t) where
  digested := stands.digested.step step
  asks := step_asks stands journal step
  announces := step_announces stands journal step

end StandsOn

theorem standsOn (reached : Reachable c.Initial c.Step w) (correct : c.Correct k) :
    StandsOn c.cfg k (w k) := by
  refine ClusterInvariant.nodes_keep (fun _ _ _ step => step) ?_ ?_ reached correct
  · exact fun _ _ _ _ => .initial ⟨_, _, _, _, rfl⟩
  · exact fun w i now a w' step journal stands => stands.step journal step.step

/-- The window is kept, and so every VIEW_CHANGE that was sent passes the test of the others. -/
structure AsksRightly (cfg : Config) (i : ℕ) (x : Node) : Prop where
  window : NumbersInWindow cfg i x.state
  passes : ∀ v hi block pi qi, .viewChange v hi block pi qi ∈ x.sent → correctViewChange v hi pi qi

theorem AsksRightly.step (asks : AsksRightly cfg i x) (journal : Journal cfg i x)
    (step : Step cfg i x.state (now, a) t) (keeps : KeepsWindow cfg x.state (now, a)) :
    AsksRightly cfg i (x.record t) := by
  refine ⟨asks.window.step step keeps, fun v hi block pi qi said => ?_⟩
  rcases journal.mem_sent step said with old | new
  · exact asks.passes v hi block pi qi old
  · obtain ⟨acts, checkpoint, reported, message⟩ := Action.putsOut_of_mem new
    subst acts
    have emitted : emittedViewChange cfg v i x.state =
        some (ownViewChange cfg v i checkpoint x.state) := congrArg (Option.map _) reported
    have raised : x.state.view < v := by
      have next := step.sendViewChange_raises.1
      omega
    have passes := acceptedByOthers_iff.mp asks.window.accepted v _ raised emitted
    cases message
    exact passes

theorem correctViewChange_of_sent
    (kept : Reachable c.Initial (Guarded c.Step c.KeepsWindow) w) (correct : c.Correct k)
    {pi : List PiEntry} {qi : List QiEntry}
    (said : .viewChange v h block pi qi ∈ (w k).sent) : correctViewChange v h pi qi := by
  have asks : AsksRightly c.cfg k (w k) := by
    refine ClusterInvariant.nodes_keep (fun _ _ _ moves => moves.1) ?_ ?_ kept correct
    · exact fun _ _ _ _ => ⟨.initial ⟨_, _, _, _, rfl⟩, nofun⟩
    · exact fun w i now a w' moves journal asks => asks.step journal moves.1.step moves.2
  exact asks.passes _ _ _ _ _ said

theorem distinctDigests_of_hashes (hashes : HashesJson cfg sha atomJsonDict)
    (collisionFree : Function.Injective sha) (injective : Set.InjOn atomJsonDict {j | j.Written})
    (log : ViewChangeLog cfg i s) (digested : Digested cfg s) : DistinctDigests s := by
  refine log.nodup.map_on fun m logged m' logged' same => ?_
  rw [digested m logged, digested m' logged'] at same
  obtain ⟨view, -, -, -, -, sender⟩ := hashes.inj collisionFree injective same
  exact log.onePerSender m logged m' logged' view sender

theorem ViewChange.content_eq {m m' : ViewChange} (digested : Digested cfg s)
    (digested' : Digested cfg t) (logged : m ∈ s.msgLogViewChange)
    (logged' : m' ∈ t.msgLogViewChange) (sender : m'.senderId = m.senderId)
    (message : m'.message = m.message) : m'.content = m.content := by
  have digest := digested m logged
  have digest' := digested' m' logged'
  obtain ⟨vcDigest, view, hi, block, pi, qi, senderId, senderSig⟩ := m
  obtain ⟨vcDigest', view', hi', block', pi', qi', senderId', senderSig'⟩ := m'
  cases sender
  cases message
  dsimp only at digest digest'
  subst digest digest'
  rfl

theorem length_nuVset (distinct : DistinctDigests s) (sent : correctNuOnce cfg i s = some nu) :
    (nuVset nu s).length = s.msgLogViewChange.length := by
  have nodup : (correctNuElement cfg i s).Nodup := correctNuElement_nodup distinct
  have perm : nu.Perm (correctNuElement cfg i s) := by
    simp only [correctNuOnce] at sent
    split at sent
    · rw [← Option.some.inj sent]
      exact sortNu_perm nodup
    · cases sent
  have single : ∀ e ∈ nu, (s.msgLogViewChange.filter fun m => m.vcDigest = e.d).length = 1 := by
    intro e listed
    obtain ⟨m, logged, rfl⟩ := (mem_nu_iff sent).mp listed
    rw [filter_digest_eq distinct logged]
    rfl
  rw [nuVset, List.length_flatMap, List.map_congr_left single]
  simp [perm.length_eq, correctNuElement_eq]

namespace ChangeTo

variable {m m' : ViewChange}

theorem correct (change : ChangeTo c w v h block) : c.Correct (Fbft.primary c.cfg v) :=
  ⟨primary_lt c.cfg v, change.primary⟩

theorem own (change : ChangeTo c w v h block) (reached : Reachable c.Initial c.Step w)
    (correct : c.Correct k) (logged : m ∈ (w k).state.msgLogViewChange)
    (honest : m.senderId ∉ c.faulty) : m.v = v ∧
      ∃ m' ∈ (w m.senderId).state.msgLogViewChange, m'.senderId = m.senderId ∧
        m'.message = m.message := by
  have inv := ClusterInvariant.reachable reached
  have authentic := (inv.genuine k correct).viewChange m logged
  have sender : c.Correct m.senderId := ⟨authentic.1, honest⟩
  obtain ⟨said, sent, read⟩ := authentic.sent honest
  rw [Message.readAs_viewChange read] at sent
  obtain ⟨before, stays⟩ := (standsOn reached sender).asks _ _ _ _ _ sent
  have later := (inv.journal k correct).viewChanges.current m logged
  rw [change.view k correct] at later
  rw [change.view _ sender] at before stays
  have view : m.v = v := by omega
  exact ⟨view, stays view⟩

theorem heard_block (change : ChangeTo c w v h block) (reached : Reachable c.Initial c.Step w)
    (logged : m ∈ (w (Fbft.primary c.cfg v)).state.msgLogViewChange)
    (honest : m.senderId ∉ c.faulty) : m.hi = h ∧ m.c = block := by
  obtain ⟨view, o, inside, sender, said⟩ := change.own reached change.correct logged honest
  have inv := ClusterInvariant.reachable reached
  have correct : c.Correct m.senderId :=
    ⟨((inv.genuine _ change.correct).viewChange m logged).1, honest⟩
  obtain ⟨pi, qi, asked⟩ := change.asked _ correct
  obtain ⟨o', inside', sender', message⟩ :=
    ((standsOn reached correct).asks _ _ _ _ _ asked).2 (change.view _ correct).symm
  have atView : o.v = v := (Message.viewChange.inj said).1.trans view
  have atView' : o'.v = v := (Message.viewChange.inj message).1
  have same := (inv.journal _ correct).viewChanges.onePerSender o inside o' inside'
    (atView.trans atView'.symm) (sender.trans sender'.symm)
  rw [same, message] at said
  obtain ⟨-, height, value, -⟩ := Message.viewChange.inj said
  exact ⟨height.symm, value.symm⟩

theorem reported (change : ChangeTo c w v h block) (reached : Reachable c.Initial c.Step w)
    (logged : m ∈ (w (Fbft.primary c.cfg v)).state.msgLogViewChange) :
    h ≤ m.hi ∧ (m.hi = h → m.c = block) := by
  by_cases honest : m.senderId ∈ c.faulty
  · exact ⟨change.level m logged honest, change.known m logged honest⟩
  · obtain ⟨height, value⟩ := change.heard_block reached logged honest
    exact ⟨height.ge, fun _ => value⟩

theorem same_content (change : ChangeTo c w v h block) (reached : Reachable c.Initial c.Step w)
    (correct : c.Correct i) (correct' : c.Correct k) (logged : m ∈ (w i).state.msgLogViewChange)
    (logged' : m' ∈ (w k).state.msgLogViewChange) (sender : m'.senderId = m.senderId)
    (honest : m.senderId ∉ c.faulty) : m'.content = m.content := by
  obtain ⟨view, o, inside, named, said⟩ := change.own reached correct logged honest
  obtain ⟨view', o', inside', named', said'⟩ :=
    change.own reached correct' logged' (sender ▸ honest)
  rw [sender] at inside' named'
  have inv := ClusterInvariant.reachable reached
  have member : c.Correct m.senderId :=
    ⟨((inv.genuine i correct).viewChange m logged).1, honest⟩
  have sameView : o.v = o'.v := by
    have first : o.v = m.v := (Message.viewChange.inj said).1
    have second : o'.v = m'.v := (Message.viewChange.inj said').1
    omega
  have same := (inv.journal _ member).viewChanges.onePerSender o inside o' inside' sameView
    (named.trans named'.symm)
  subst same
  exact ViewChange.content_eq (standsOn reached correct).digested
    (standsOn reached correct').digested logged logged' sender (said'.symm.trans said)

/-- Every correct replica has the VIEW_CHANGE of every other one. -/
theorem heard (change : ChangeTo c w v h block) (quiescent : ViewQuiescent c w)
    (kept : Reachable c.Initial (Guarded c.Step c.KeepsWindow) w) (correct : c.Correct j)
    (correct' : c.Correct k) :
    ∃ m ∈ (w k).state.msgLogViewChange, m.senderId = j ∧ m.v = v ∧ m.hi = h := by
  have reached := kept.unguard
  obtain ⟨pi, qi, said⟩ := change.asked j correct
  have allowed := correctViewChange_of_sent kept correct said
  obtain ⟨o, inside, sender, message⟩ :=
    ((standsOn reached correct).asks _ _ _ _ _ said).2 (change.view j correct).symm
  have entry : o.v = v ∧ o.hi = h :=
    ⟨(Message.viewChange.inj message).1, (Message.viewChange.inj message).2.1⟩
  by_cases self : j = k
  · subst self
    exact ⟨o, inside, sender, entry⟩
  obtain ⟨received, sig, read, -, settled⟩ := quiescent.delivered j correct k correct' _ said
  have same : received = .viewChange v h block pi qi := by
    cases received <;> cases read
    rfl
  subst same
  by_cases present : ∃ m ∈ (w k).state.msgLogViewChange, m.v = v ∧ m.senderId = j
  · obtain ⟨m, logged, view, sender'⟩ := present
    have content := change.same_content reached correct correct' inside logged
      (sender'.trans sender.symm) (sender ▸ correct.2)
    have height : m.content.hi = o.content.hi := by rw [content]
    exact ⟨m, logged, sender', view, height.trans entry.2⟩
  · have accepted : applyReceiveViewChange c.cfg v h block pi qi j sig k (w k).state =
        some (msgLogAddViewChange
          ⟨c.cfg.digestViewChange v h block pi qi j, v, h, block, pi, qi, j, sig⟩ (w k).state) :=
      if_pos ⟨self, (change.view k correct').le, allowed, present⟩
    have same := congrArg Replica.msgLogViewChange ((settled _ rfl).resolve_left id _ accepted)
    have entered : ⟨c.cfg.digestViewChange v h block pi qi j, v, h, block, pi, qi, j, sig⟩ ∈
        (w k).state.msgLogViewChange := by
      rw [← same]
      exact mem_assertzOnce.mpr (Or.inr rfl)
    exact ⟨_, entered, rfl, rfl, rfl⟩

theorem reaches (change : ChangeTo c w v h block) (quiescent : ViewQuiescent c w)
    (kept : Reachable c.Initial (Guarded c.Step c.KeepsWindow) w) (correct : c.Correct k)
    (logged : m ∈ (w (Fbft.primary c.cfg v)).state.msgLogViewChange) :
    ∃ m' ∈ (w k).state.msgLogViewChange, m'.content = m.content := by
  have reached := kept.unguard
  by_cases honest : m.senderId ∈ c.faulty
  · exact change.spread m logged honest k correct
  · have inv := ClusterInvariant.reachable reached
    have member := ((inv.genuine _ change.correct).viewChange m logged).1
    obtain ⟨m', logged', sender, -⟩ := change.heard quiescent kept ⟨member, honest⟩ correct
    exact ⟨m', logged', change.same_content reached change.correct correct logged logged' sender
      honest⟩

theorem enough_viewChanges (change : ChangeTo c w v h block) (quiescent : ViewQuiescent c w)
    (kept : Reachable c.Initial (Guarded c.Step c.KeepsWindow) w) :
    quorum c.cfg ≤ (w (Fbft.primary c.cfg v)).state.msgLogViewChange.length := by
  have senders : Finset.range c.cfg.clusterSize \ c.faulty ⊆
      ((w (Fbft.primary c.cfg v)).state.msgLogViewChange.map ViewChange.senderId).toFinset := by
    intro j inside
    obtain ⟨m, logged, rfl, -⟩ :=
      change.heard quiescent kept (Cluster.mem_correct.mp inside) change.correct
    exact List.mem_toFinset.mpr (List.mem_map_of_mem logged)
  have count := Finset.card_le_card senders
  have distinct := List.toFinset_card_le
    ((w (Fbft.primary c.cfg v)).state.msgLogViewChange.map ViewChange.senderId)
  rw [List.length_map] at distinct
  have enough := c.card_correct
  omega

end ChangeTo

theorem unifyChi_of_readAs {sent received : List ChiEntry}
    (read : List.Forall₂ ChiEntry.readAs sent received) :
    ∃ unified, unifyChi received sent = some unified := by
  induction read with
  | nil => exact ⟨[], rfl⟩
  | @cons e e' sent received first _ ih =>
    obtain ⟨rest, same⟩ := ih
    obtain ⟨number, digest, data⟩ := first
    obtain ⟨entry, found⟩ : ∃ entry, e'.unify e = some entry := by
      rw [ChiEntry.unify, if_pos ⟨number, digest⟩]
      rcases data with unbound | bound
      · rw [unbound]
        cases e'.data <;> exact ⟨_, rfl⟩
      · rw [bound]
        cases e.data <;> simp [Data.unify]
    exact ⟨entry :: rest, by simp only [unifyChi, found, same]⟩

theorem correctChi_requests {e : ChiEntry} (solved : correctChi cfg nu s = some chi)
    (inside : e ∈ chi) : e.reqDigest = nullDigest ∨
      ∃ m ∈ nuVset nu s, ∃ p ∈ m.pi, p.reqDigest = e.reqDigest := by
  rw [(correctChi_range solved).2.2 e inside]
  rcases chiEntry_cases (nuVset nu s) e.n with ⟨m, p, q, first, -, same⟩ | ⟨same, -⟩
  · obtain ⟨before, after, split, -⟩ := first.first
    rw [same]
    exact Or.inr ⟨m, split ▸ List.mem_append_right _ List.mem_cons_self, p,
      first.eligible.listed, rfl⟩
  · rw [same]
    exact Or.inl rfl

namespace ChangeTo

variable {m : NewView}

/-- A logged NEW_VIEW is one that the primary has sent, and the primary still has the log
that it was made from. -/
theorem made (change : ChangeTo c w v h block) (reached : Reachable c.Initial c.Step w)
    (correct : c.Correct k) (logged : m ∈ (w k).state.msgLogNewView) (view : m.v = v) :
    ∃ chi, .newView v m.nu chi ∈ (w (Fbft.primary c.cfg v)).sent ∧
      List.Forall₂ ChiEntry.readAs chi m.chi ∧
      ∃ s, MadeFrom c.cfg (Fbft.primary c.cfg v) v m.nu chi s
        (w (Fbft.primary c.cfg v)).state := by
  have inv := ClusterInvariant.reachable reached
  have authentic := (inv.genuine k correct).newView m logged
  rw [view] at authentic
  obtain ⟨said, sent, read⟩ := authentic.sent change.primary
  obtain ⟨chi, rfl, entries⟩ := Message.readAs_newView read
  have stays := ((standsOn reached change.correct).announces _ _ _ sent).2
  exact ⟨chi, sent, entries, stays (change.view _ change.correct).symm⟩

/-- Every correct replica has the log that the NEW_VIEW was made from. -/
theorem holds (change : ChangeTo c w v h block) (quiescent : ViewQuiescent c w)
    (kept : Reachable c.Initial (Guarded c.Step c.KeepsWindow) w) (correct : c.Correct k)
    (made : MadeFrom c.cfg (Fbft.primary c.cfg v) v nu chi s (w (Fbft.primary c.cfg v)).state) :
    Holds nu s (w k).state := by
  intro m logged listed
  obtain ⟨m', logged', same⟩ := made.holds m logged listed
  obtain ⟨m'', logged'', same'⟩ := change.reaches quiescent kept correct logged'
  exact ⟨m'', logged'', same'.trans same⟩

theorem exists_at (change : ChangeTo c w v h block) (quiescent : ViewQuiescent c w)
    (kept : Reachable c.Initial (Guarded c.Step c.KeepsWindow) w) (correct : c.Correct k)
    (made : MadeFrom c.cfg (Fbft.primary c.cfg v) v nu chi s (w (Fbft.primary c.cfg v)).state) :
    ∃ m ∈ nuVset nu (w k).state, m.hi = h := by
  obtain ⟨o, logged, sender, view, height⟩ :=
    change.heard quiescent kept change.correct change.correct
  have named := made.own o logged sender view
  obtain ⟨m, logged', same⟩ := change.reaches quiescent kept correct logged
  have number : m.content.hi = o.content.hi := by rw [same]
  exact ⟨m, mem_nuVset.mpr ⟨logged', _, named, (ViewChange.vcDigest_of_content same).1⟩,
    number.trans height⟩

end ChangeTo

section

variable (hashes : HashesJson c.cfg sha atomJsonDict) (collisionFree : Function.Injective sha)
  (injective : Set.InjOn atomJsonDict {j | j.Written})
include hashes collisionFree injective

theorem distinctDigests_correct (reached : Reachable c.Initial c.Step w) (correct : c.Correct k) :
    DistinctDigests (w k).state :=
  distinctDigests_of_hashes hashes collisionFree injective
    ((ClusterInvariant.reachable reached).journal k correct).viewChanges
    (standsOn reached correct).digested

namespace ChangeTo

variable {m : ViewChange}

theorem computes (change : ChangeTo c w v h block) (quiescent : ViewQuiescent c w)
    (kept : Reachable c.Initial (Guarded c.Step c.KeepsWindow) w) (correct : c.Correct k)
    (made : MadeFrom c.cfg (Fbft.primary c.cfg v) v nu chi s (w (Fbft.primary c.cfg v)).state) :
    nu ∈ correctNuAll c.cfg k (w k).state ∧ correctChi c.cfg nu (w k).state = some chi := by
  have reached := kept.unguard
  have before := distinctDigests_of_hashes hashes collisionFree injective made.log made.digested
  have after := distinctDigests_correct hashes collisionFree injective reached correct
  have holds := change.holds quiescent kept correct made
  exact ⟨mem_correctNuAll_of_holds before after holds made.sends.2.1,
    correctChi_of_holds before after holds made.sends⟩

theorem of_primary (change : ChangeTo c w v h block) (quiescent : ViewQuiescent c w)
    (kept : Reachable c.Initial (Guarded c.Step c.KeepsWindow) w) (correct : c.Correct k)
    (made : MadeFrom c.cfg (Fbft.primary c.cfg v) v nu chi s (w (Fbft.primary c.cfg v)).state)
    (listed : m ∈ nuVset nu (w k).state) :
    ∃ m' ∈ (w (Fbft.primary c.cfg v)).state.msgLogViewChange, m'.content = m.content := by
  have reached := kept.unguard
  obtain ⟨logged, e, named, digest⟩ := mem_nuVset.mp listed
  obtain ⟨o, inside, rfl⟩ := (mem_nu_iff made.sends.2.1).mp named
  obtain ⟨m', logged', same⟩ := made.holds o inside named
  obtain ⟨m'', logged'', same'⟩ := change.reaches quiescent kept correct logged'
  have equal : m = m'' := by
    apply eq_of_digest (distinctDigests_correct hashes collisionFree injective reached correct)
      logged logged''
    rw [digest, (ViewChange.vcDigest_of_content (same'.trans same)).1]
  exact ⟨m', logged', by rw [equal, same']⟩

theorem least (change : ChangeTo c w v h block) (quiescent : ViewQuiescent c w)
    (kept : Reachable c.Initial (Guarded c.Step c.KeepsWindow) w) (correct : c.Correct k)
    (made : MadeFrom c.cfg (Fbft.primary c.cfg v) v nu chi s (w (Fbft.primary c.cfg v)).state) :
    ((nuVset nu (w k).state).map ViewChange.hi).min? = some h := by
  have reached := kept.unguard
  obtain ⟨o, listed, height⟩ := change.exists_at quiescent kept correct made
  refine List.min?_eq_some_iff.mpr ⟨List.mem_map.mpr ⟨o, listed, height⟩, fun n member => ?_⟩
  obtain ⟨m, inside, rfl⟩ := List.mem_map.mp member
  obtain ⟨m', logged, same⟩ :=
    change.of_primary hashes collisionFree injective quiescent kept correct made inside
  have number : m'.content.hi = m.content.hi := by rw [same]
  exact (change.reported reached logged).1.trans_eq number

theorem knows (change : ChangeTo c w v h block) (quiescent : ViewQuiescent c w)
    (kept : Reachable c.Initial (Guarded c.Step c.KeepsWindow) w) (correct : c.Correct k)
    (made : MadeFrom c.cfg (Fbft.primary c.cfg v) v nu chi s (w (Fbft.primary c.cfg v)).state)
    {e : ChiEntry} (inside : e ∈ chi) : e.reqDigest = nullDigest ∨
      ∃ r ∈ (w k).state.msgLogRequest, r.reqDigest = e.reqDigest := by
  obtain ⟨-, solved⟩ :=
    change.computes hashes collisionFree injective quiescent kept correct made
  rcases correctChi_requests solved inside with null | ⟨o, listed, p, certified, request⟩
  · exact Or.inl null
  · obtain ⟨m', logged, same⟩ :=
      change.of_primary hashes collisionFree injective quiescent kept correct made listed
    have entries : m'.content.pi = o.content.pi := by rw [same]
    obtain ⟨r, requested, name⟩ :=
      change.requests m' logged p ((show m'.pi = o.pi from entries) ▸ certified) k correct
    exact Or.inr ⟨r, requested, name.trans request⟩

/-- A correct replica that has logged the NEW_VIEW is active. -/
theorem active (change : ChangeTo c w v h block) (quiescent : ViewQuiescent c w)
    (kept : Reachable c.Initial (Guarded c.Step c.KeepsWindow) w) (correct : c.Correct k)
    {m : NewView} (logged : m ∈ (w k).state.msgLogNewView) (view : m.v = v) :
    (w k).state.activeView = true := by
  have reached := kept.unguard
  by_contra waits
  obtain ⟨chi, -, read, s, made⟩ := change.made reached correct logged view
  obtain ⟨listed, solved⟩ :=
    change.computes hashes collisionFree injective quiescent kept correct made
  obtain ⟨unified, found⟩ := unifyChi_of_readAs read
  have single := ((ClusterInvariant.reachable reached).journal k correct).state.checkpoint
  refine quiescent.enters k correct h m.nu unified ⟨Bool.eq_false_iff.mpr waits,
    mem_correctNewView logged (view.trans (change.view k correct).symm) listed solved found,
    change.height k correct ▸ getH_eq single, ?_, ?_, ?_, ?_⟩
  · obtain ⟨o, inside, height⟩ :=
      change.exists_at quiescent kept correct made
    exact List.ne_nil_of_mem (mem_viewChangesAt.mpr ⟨inside, height⟩)
  · intro o inside
    obtain ⟨listed, height⟩ := mem_viewChangesAt.mp inside
    obtain ⟨m', logged, same⟩ :=
      change.of_primary hashes collisionFree injective quiescent kept correct made listed
    have number : m'.content.hi = o.content.hi := by rw [same]
    have value : m'.content.c = o.content.c := by rw [same]
    obtain ⟨x, inside, val⟩ := change.above k correct
    have reported := (change.reported reached logged).2 (number.trans height)
    exact ⟨x, inside, val.trans (reported.symm.trans value)⟩
  · rw [unifyChi_numbers found]
    by_cases empty : chi = []
    · subst empty
      exact Or.inr (List.map_eq_nil_iff.mp (unifyChi_numbers found))
    · exact Or.inl (correctChi_least solved empty
        (change.least hashes collisionFree injective quiescent kept correct made))
  · intro e inside
    obtain ⟨a, -, b, entry, same⟩ := mem_unifyChi found inside
    obtain ⟨-, digest, -⟩ := ChiEntry.unify_spec same
    rw [digest]
    exact change.knows hashes collisionFree injective quiescent kept correct made entry

theorem announced (change : ChangeTo c w v h block) (quiescent : ViewQuiescent c w)
    (kept : Reachable c.Initial (Guarded c.Step c.KeepsWindow) w) :
    ∃ m ∈ (w (Fbft.primary c.cfg v)).state.msgLogNewView, m.v = v := by
  have reached := kept.unguard
  by_contra silent
  have distinct := distinctDigests_correct hashes collisionFree injective reached change.correct
  have enough := change.enough_viewChanges quiescent kept
  have element : quorum c.cfg ≤
      (correctNuElement c.cfg (Fbft.primary c.cfg v) (w (Fbft.primary c.cfg v)).state).length := by
    rwa [correctNuElement_eq, List.length_map]
  obtain ⟨nu, once⟩ : ∃ nu, correctNuOnce c.cfg (Fbft.primary c.cfg v)
      (w (Fbft.primary c.cfg v)).state = some nu := ⟨_, if_pos element⟩
  have large : quorum c.cfg ≤ (nuVset nu (w (Fbft.primary c.cfg v)).state).length := by
    rwa [length_nuVset distinct once]
  obtain ⟨minS, -, -, solved⟩ := correctChi_some large
  have view := change.view _ change.correct
  exact quiescent.starts _ change.correct nu _ ⟨by rw [view], once, solved, by rwa [view]⟩

theorem entered (change : ChangeTo c w v h block) (quiescent : ViewQuiescent c w)
    (kept : Reachable c.Initial (Guarded c.Step c.KeepsWindow) w) (correct : c.Correct k) :
    (w k).state.activeView = true := by
  have reached := kept.unguard
  obtain ⟨m, logged, view⟩ := change.announced hashes collisionFree injective quiescent kept
  obtain ⟨chi, said, -⟩ := change.made reached change.correct logged view
  by_cases self : k = Fbft.primary c.cfg v
  · subst self
    exact change.active hashes collisionFree injective quiescent kept correct logged view
  obtain ⟨received, sig, read, -, settled⟩ :=
    quiescent.delivered _ change.correct k correct _ said
  obtain ⟨chi', rfl⟩ : ∃ chi', received = .newView v m.nu chi' := by
    cases received with
    | newView v' nu' chi' =>
      obtain ⟨rfl, rfl, -⟩ := read
      exact ⟨chi', rfl⟩
    | _ => cases read
  have current := change.view k correct
  obtain ⟨t, accepted, -, -, m', logged', view', -⟩ := receiveNewView_logged (i := k)
    (current ▸ change.positive) (congrArg (Fbft.primary c.cfg) current.symm) self m.nu chi' sig
  rw [current] at accepted view'
  have same := (settled _ rfl).resolve_left id _ accepted
  subst same
  exact change.active hashes collisionFree injective quiescent kept correct logged' view'

end ChangeTo

/-- The view change ends with every correct replica active in the view, on one Nu and one Chi
that the primary has announced and every one of them computes from its own log. -/
theorem viewQuiescent_active (kept : Reachable c.Initial (Guarded c.Step c.KeepsWindow) w)
    (quiescent : ViewQuiescent c w) (change : ChangeTo c w v h block) :
    ∃ nu chi, .newView v nu chi ∈ (w (primary c.cfg v)).sent ∧ ∀ k, c.Correct k →
      (w k).state.activeView = true ∧ nu ∈ correctNuAll c.cfg k (w k).state ∧
      correctChi c.cfg nu (w k).state = some chi := by
  have reached := kept.unguard
  obtain ⟨m, logged, view⟩ := change.announced hashes collisionFree injective quiescent kept
  obtain ⟨chi, said, -, s, made⟩ := change.made reached change.correct logged view
  exact ⟨m.nu, chi, said, fun k correct =>
    ⟨change.entered hashes collisionFree injective quiescent kept correct,
      change.computes hashes collisionFree injective quiescent kept correct made⟩⟩

end

def textCluster : Cluster where
  cfg := textReplicas
  faulty := {2}
  verify := fourWithOneFaulty.verify
  members := by decide
  size := by decide
  few := by decide

def preparedOfFour : List PiEntry := [⟨1, "(H=1, T=60)", 0⟩]

def prePreparedOfFour : List QiEntry := [⟨1, "(H=1, T=60)", some "B60", 0⟩]

def nuOfFour : List NuEntry :=
  [⟨0, textReplicas.digestViewChange 1 0 "H0" preparedOfFour prePreparedOfFour 0⟩,
    ⟨1, textReplicas.digestViewChange 1 0 "H0" [] prePreparedOfFour 1⟩,
    ⟨2, textReplicas.digestViewChange 1 0 "H0" [] [] 2⟩,
    ⟨3, textReplicas.digestViewChange 1 0 "H0" [] prePreparedOfFour 3⟩]

def chiOfFour : List ChiEntry := [⟨1, "(H=1, T=60)", some "B60"⟩]

/-- The round of view 0 stops at the PREPAREs; the four go on to view 1, where the block is
proposed again. -/
def changeOfFour : List ClusterLabel :=
  [(0, 60, .receiveRequest "(H=1, T=60)" 60), (1, 60, .receiveRequest "(H=1, T=60)" 60),
    (3, 60, .receiveRequest "(H=1, T=60)" 60),
    (0, 60, .sendPrePrepare "(H=1, T=60)" "B60" 0 1),
    (1, 60, .receivePrePrepare 0 1 "(H=1, T=60)" "B60" 0 "S0"),
    (3, 60, .receivePrePrepare 0 1 "(H=1, T=60)" "B60" 0 "S0"),
    (1, 60, .sendPrepare "(H=1, T=60)" 0 1), (3, 60, .sendPrepare "(H=1, T=60)" 0 1),
    (0, 60, .receivePrepare 0 1 "(H=1, T=60)" 1 "S1"),
    (0, 60, .receivePrepare 0 1 "(H=1, T=60)" 3 "S3"),
    (0, 1000, .sendViewChange 1), (1, 1000, .sendViewChange 1), (3, 1000, .sendViewChange 1),
    (0, 1000, .receiveViewChange 1 0 "H0" [] [] 2 "S2"),
    (1, 1000, .receiveViewChange 1 0 "H0" [] [] 2 "S2"),
    (3, 1000, .receiveViewChange 1 0 "H0" [] [] 2 "S2"),
    (1, 1000, .receiveViewChange 1 0 "H0" preparedOfFour prePreparedOfFour 0 "S0"),
    (3, 1000, .receiveViewChange 1 0 "H0" preparedOfFour prePreparedOfFour 0 "S0"),
    (0, 1000, .receiveViewChange 1 0 "H0" [] prePreparedOfFour 1 "S1"),
    (3, 1000, .receiveViewChange 1 0 "H0" [] prePreparedOfFour 1 "S1"),
    (0, 1000, .receiveViewChange 1 0 "H0" [] prePreparedOfFour 3 "S3"),
    (1, 1000, .receiveViewChange 1 0 "H0" [] prePreparedOfFour 3 "S3"),
    (1, 1000, .sendNewView nuOfFour chiOfFour),
    (0, 1000, .receiveNewView 1 nuOfFour chiOfFour 1 "S1"),
    (3, 1000, .receiveNewView 1 nuOfFour chiOfFour 1 "S1"),
    (0, 1000, .processNewView 0 nuOfFour chiOfFour),
    (1, 1000, .processNewView 0 nuOfFour chiOfFour),
    (3, 1000, .processNewView 0 nuOfFour chiOfFour),
    (0, 1000, .receivePrepare 1 1 "(H=1, T=60)" 3 "S3"),
    (1, 1000, .receivePrepare 1 1 "(H=1, T=60)" 0 "S0"),
    (1, 1000, .receivePrepare 1 1 "(H=1, T=60)" 3 "S3"),
    (3, 1000, .receivePrepare 1 1 "(H=1, T=60)" 0 "S0")]

def ChangedToOne (w : World) : Prop :=
  (∀ j ∈ [0, 1, 3], ∀ k ∈ [0, 1, 3], ∀ m ∈ (w j).sent, ∀ a ∈ m.arrival j ("S" ++ Nat.repr j),
    m.feedsRoast textReplicas k (w k).state.roast ∨ a.Settled textReplicas k (w k).state) ∧
  (∀ k ∈ [0, 1, 3], (w k).state.view = 1 ∧ (w k).state.activeView = true ∧
    lowWatermark (w k).state = 0 ∧ (∃ x ∈ (w k).state.checkpoint, x.stateVal = "H0") ∧
    (∃ r ∈ (w k).state.msgLogRequest, r.reqDigest = "(H=1, T=60)") ∧
    (∃ m ∈ (w k).state.msgLogViewChange, .viewChange 1 0 "H0" m.pi m.qi ∈ (w k).sent) ∧
    ∀ m ∈ (w (primary textCluster.cfg 1)).state.msgLogViewChange,
      m.senderId ∈ textCluster.faulty →
        ∃ m' ∈ (w k).state.msgLogViewChange, m'.content = m.content) ∧
  (∀ m ∈ (w (primary textCluster.cfg 1)).state.msgLogViewChange, m.hi = 0 ∧ m.c = "H0" ∧
    ∀ e ∈ m.pi, e.reqDigest = "(H=1, T=60)") ∧
  ∃ m ∈ (w 1).state.msgLogNewView, m.v = 1

instance (w : World) : Decidable (ChangedToOne w) := by
  unfold ChangedToOne
  infer_instance

theorem textCluster_initial :
    textCluster.Initial fun _ => ⟨initNotx textReplicas 0 "H0" 0 none, [], []⟩ :=
  fun _ _ => ⟨0, "H0", 0, rfl⟩

theorem textCluster_correct (correct : textCluster.Correct k) : k ∈ [0, 1, 3] := by
  obtain ⟨member, honest⟩ := correct
  have below : k < 4 := member
  exact fourWithOneFaulty_correct ⟨below, honest⟩

theorem ChangedToOne.viewQuiescent (changed : ChangedToOne w) : ViewQuiescent textCluster w := by
  obtain ⟨arrived, settled, -, m, logged, view⟩ := changed
  refine ⟨fun j correct k correct' m said => ?_, fun k correct nu chi due => ?_,
    fun k correct hi nu chi due => ?_⟩
  · exact ⟨m, _, m.readAs_refl, by simp [textCluster, fourWithOneFaulty],
      arrived j (textCluster_correct correct) k (textCluster_correct correct') m said⟩
  · obtain ⟨primary, -, -, silent⟩ := due
    obtain ⟨current, -⟩ := settled k (textCluster_correct correct)
    rw [current] at primary silent
    have self : 1 = k := primary
    subst self
    exact silent ⟨m, logged, view⟩
  · obtain ⟨-, active, -⟩ := settled k (textCluster_correct correct)
    rw [due.1] at active
    cases active

theorem ChangedToOne.changeTo (changed : ChangedToOne w) : ChangeTo textCluster w 1 0 "H0" := by
  obtain ⟨-, settled, spoken, -⟩ := changed
  refine ⟨Nat.one_pos, by decide, fun k correct => ?_, fun k correct => ?_, fun k correct => ?_,
    fun k correct => ?_, fun m inside faulty k correct => ?_,
    fun m inside _ => (spoken m inside).1.ge, fun m inside _ _ => (spoken m inside).2.1,
    fun m inside e listed k correct => ?_⟩
  all_goals
    obtain ⟨view, -, height, point, request, ⟨o, -, said⟩, spread⟩ :=
      settled k (textCluster_correct correct)
  · exact view
  · exact height
  · exact point
  · exact ⟨o.pi, o.qi, said⟩
  · exact spread m inside faulty
  · rwa [(spoken m inside).2.2 e listed]

theorem viewQuiescent_active_changeOfFour : ∃ w,
    textCluster.exec textCluster.KeepsWindow changeOfFour
      (fun _ => ⟨initNotx textReplicas 0 "H0" 0 none, [], []⟩) = some w ∧
    ViewQuiescent textCluster w ∧ ChangeTo textCluster w 1 0 "H0" ∧
    ∃ nu chi, .newView 1 nu chi ∈ (w 1).sent ∧ ∀ k, textCluster.Correct k →
      (w k).state.activeView = true ∧ nu ∈ correctNuAll textReplicas k (w k).state ∧
      correctChi textReplicas nu (w k).state = some chi := by
  have runs : ∃ w, textCluster.exec textCluster.KeepsWindow changeOfFour
      (fun _ => ⟨initNotx textReplicas 0 "H0" 0 none, [], []⟩) = some w ∧ ChangedToOne w := by
    decide +kernel
  obtain ⟨w, ran, changed⟩ := runs
  have active := viewQuiescent_active
    (show HashesJson textCluster.cfg id _ from fun _ _ _ _ _ _ => rfl) Function.injective_id
    Json.write_injOn ⟨_, _, textCluster_initial, Cluster.exec_path ran⟩ changed.viewQuiescent
    changed.changeTo
  have first : primary textCluster.cfg 1 = 1 := by decide
  rw [first] at active
  exact ⟨w, ran, changed.viewQuiescent, changed.changeTo, active⟩

end Fbft
