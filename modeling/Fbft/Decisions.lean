import Fbft.Agreement
import Fbft.WriteOnce

/-! What the protocol is for. A cluster decides one request for each number: seen from
outside it is a row of registers that are written once, and what a correct replica signs and
executes is what the register holds. -/
namespace Fbft

open Database LabelledPath CrossView

variable {c : Cluster} {w w' w₀ : World} {l : ClusterLabel} {i j k v n : ℕ} {d d' : String}
  {now : ℚ} {labels : List ClusterLabel}

namespace Cluster

/-- A quorum has committed in a view in which the request is certified. -/
def Decided (c : Cluster) (w : World) (n : ℕ) (d : String) : Prop :=
  ∃ v, (c.history w).QuorumCommits v n ∧ c.Certified w v n d

open Classical in
/-- The registers of the cluster. -/
noncomputable def decisions (c : Cluster) (w : World) (n : ℕ) : Option String :=
  if decided : ∃ d, c.Decided w n d then some decided.choose else none

theorem Decided.mono (grows : Grows w w') (decided : c.Decided w n d) : c.Decided w' n d := by
  obtain ⟨v, quorum, certified⟩ := decided
  exact ⟨v, quorum.mono grows.history, certified.mono grows⟩

theorem decisions_eq_none : c.decisions w n = none ↔ ∀ d, ¬ c.Decided w n d := by
  simp [decisions]

end Cluster

namespace SoundInvariant

/-- The views may differ in which two requests are decided. -/
theorem decided_unique (inv : SoundInvariant c w) (decided : c.Decided w n d)
    (decided' : c.Decided w n d') : d = d' := by
  obtain ⟨v, quorum, certified⟩ := decided
  obtain ⟨v', quorum', certified'⟩ := decided'
  rcases Nat.lt_trichotomy v v' with later | rfl | later
  · exact (inv.lawful.agreement quorum (fun _ other => inv.cluster.certified_unique other certified)
      later certified'.1).symm
  · exact inv.cluster.certified_unique certified certified'
  · exact inv.lawful.agreement quorum'
      (fun _ other => inv.cluster.certified_unique other certified') later certified.1

theorem decisions_eq_some (inv : SoundInvariant c w) :
    c.decisions w n = some d ↔ c.Decided w n d := by
  constructor
  · intro holds
    by_cases decided : ∃ d, c.Decided w n d
    · rw [Cluster.decisions, dif_pos decided] at holds
      exact Option.some.inj holds ▸ decided.choose_spec
    · simp [Cluster.decisions, decided] at holds
  · intro decided
    have known : ∃ d, c.Decided w n d := ⟨d, decided⟩
    rw [Cluster.decisions, dif_pos known]
    exact congrArg some (inv.decided_unique known.choose_spec decided)

theorem decided_of_committed (inv : SoundInvariant c w) (correct : c.Correct i)
    (commit : committed c.cfg d v n (w i).state) : c.Decided w n d :=
  ⟨v, inv.quorumCommits correct commit,
    (inv.certifying i correct).certified inv.cluster correct commit.1⟩

end SoundInvariant

/-- In addition, nobody has committed to a number without a certificate. -/
structure DecisionInvariant (c : Cluster) (w : World) : Prop where
  sound : SoundInvariant c w
  certified : ∀ k, c.Correct k → ∀ v n, (w k).commits v n = true → ∃ d, c.Certified w v n d

namespace DecisionInvariant

theorem initial (start : c.Initial w) : DecisionInvariant c w where
  sound := SoundInvariant.initial start
  certified := by
    intro k correct v n committed
    obtain ⟨height, hash, timestamp, fresh⟩ := start k correct
    simp [fresh, Node.commits] at committed

theorem step (one : c.OneSignature) (inv : DecisionInvariant c w) (step : c.Step w l w')
    (sound : SoundStep c w l) : DecisionInvariant c w' := by
  obtain ⟨i, now, a⟩ := l
  refine ⟨inv.sound.step one step sound, fun k correct v n committed => ?_⟩
  have old : (w k).commits v n = true → ∃ d, c.Certified w' v n d := by
    intro before
    obtain ⟨d, certified⟩ := inv.certified k correct v n before
    exact ⟨d, certified.mono step.grows⟩
  by_cases self : k = i
  · subst self
    rcases step.new_commits (inv.sound.cluster.journal k correct) committed with
      before | ⟨d, data, rfl⟩
    · exact old before
    · have certificate : prepared c.cfg d v n (w k).state := step.acts.pre.2.1
      exact ⟨d, ((inv.sound.certifying k correct).certified inv.sound.cluster correct
        certificate).mono step.grows⟩
  · rw [step.at_other self] at committed
    exact old committed

/-- A number is decided by the COMMIT that completes the quorum, for its request. -/
theorem decides (inv : DecisionInvariant c w) (step : c.Step w (i, now, a) w')
    (inv' : SoundInvariant c w') (undecided : ∀ d, ¬ c.Decided w n d)
    (decided : c.Decided w' n d) : ∃ v data, a = .sendCommit d v n data := by
  obtain ⟨v, ⟨A, quorum, commits⟩, certified⟩ := decided
  by_cases before : ∀ k ∈ A, c.Correct k → (w k).commits v n = true
  · obtain ⟨k, correct, inside, -⟩ := inv'.lawful.inter A A quorum quorum
    obtain ⟨d', certified'⟩ := inv.certified k correct v n (before k inside correct)
    exact absurd ⟨v, ⟨A, quorum, before⟩, certified'⟩ (undecided d')
  · simp only [not_forall] at before
    obtain ⟨k, inside, correct, fresh⟩ := before
    have committed : (w' k).commits v n = true := commits k inside correct
    have self : k = i := by
      by_contra other
      rw [step.at_other other] at committed
      exact fresh committed
    subst self
    rcases step.new_commits (inv.sound.cluster.journal k correct) committed with
      old | ⟨d', data, rfl⟩
    · exact absurd old fresh
    · have certificate : prepared c.cfg d' v n (w k).state := step.acts.pre.2.1
      have certified' := ((inv.sound.certifying k correct).certified inv.sound.cluster correct
        certificate).mono step.grows
      exact ⟨v, data, by rw [inv'.cluster.certified_unique certified certified']⟩

end DecisionInvariant

theorem SoundInvariant.decisions_same (inv : SoundInvariant c w) (inv' : SoundInvariant c w')
    (grows : Grows w w') (old : ∀ d, c.Decided w' n d → ∃ d, c.Decided w n d) :
    c.decisions w' n = c.decisions w n := by
  refine Option.ext fun d => ?_
  rw [inv.decisions_eq_some, inv'.decisions_eq_some]
  constructor
  · intro decided
    obtain ⟨d', before⟩ := old d decided
    exact inv'.decided_unique (before.mono grows) decided ▸ before
  · intro before
    exact before.mono grows

/-- The write that a step of the cluster may make. -/
def ClusterLabel.write (l : ClusterLabel) : Option (ℕ × String) :=
  match l.2.2 with
  | .sendCommit d _ n _ => some (n, d)
  | _ => none

/-- A step leaves the registers as they are, or it sends a COMMIT that writes one of them. -/
theorem DecisionInvariant.matched (one : c.OneSignature) (inv : DecisionInvariant c w)
    (step : c.Step w l w') (sound : SoundStep c w l) :
    c.decisions w' = c.decisions w ∨
      ∃ x ∈ ClusterLabel.write l, WriteOnce.Step (c.decisions w) x (c.decisions w') := by
  obtain ⟨i, now, a⟩ := l
  have inv' := (inv.step one step sound).sound
  by_cases fresh : ∃ n d, (∀ d, ¬ c.Decided w n d) ∧ c.Decided w' n d
  · obtain ⟨n, d, undecided, decided⟩ := fresh
    obtain ⟨v, data, rfl⟩ := inv.decides step inv' undecided decided
    refine Or.inr ⟨(n, d), rfl, Cluster.decisions_eq_none.mpr undecided, funext fun m => ?_⟩
    by_cases same : m = n
    · subst same
      rw [Function.update_self, inv'.decisions_eq_some]
      exact decided
    · rw [Function.update_of_ne same]
      refine inv.sound.decisions_same inv' step.grows fun d' decided' => ?_
      by_contra undecided'
      obtain ⟨v', data', acts⟩ := inv.decides step inv' (not_exists.mp undecided') decided'
      cases acts
      exact same rfl
  · refine Or.inl (funext fun m => inv.sound.decisions_same inv' step.grows fun d decided => ?_)
    by_contra undecided
    exact fresh ⟨m, d, not_exists.mp undecided, decided⟩

theorem decisions_initial (start : c.Initial w) : c.decisions w = fun _ => none := by
  have inv := DecisionInvariant.initial start
  funext n
  refine Cluster.decisions_eq_none.mpr ?_
  rintro d ⟨v, ⟨A, quorum, commits⟩, -⟩
  obtain ⟨k, correct, inside, -⟩ := inv.sound.lawful.inter A A quorum quorum
  obtain ⟨height, hash, timestamp, fresh⟩ := start k correct
  have committed : (w k).commits v n = true := commits k inside correct
  simp [fresh, Node.commits] at committed

theorem DecisionInvariant.run (one : c.OneSignature) (inv : DecisionInvariant c w)
    (run : Path (Guarded c.Step (SoundStep c)) w labels w') :
    ∃ writes, writes.Sublist (labels.filterMap ClusterLabel.write) ∧
      Path WriteOnce.Step (c.decisions w) writes (c.decisions w') := by
  refine run.refines ?_ ?_ inv
  · intro w l w' inv next
    exact inv.step one next.1 next.2
  · intro w l w' inv next
    exact inv.matched one next.1 next.2

/-- Along every run of sound steps the cluster refines a row of registers that are written
once, by COMMITs of correct replicas. -/
theorem decisions_refine (one : c.OneSignature) (start : c.Initial w₀)
    (run : Path (Guarded c.Step (SoundStep c)) w₀ labels w) :
    ∃ writes, writes.Sublist (labels.filterMap ClusterLabel.write) ∧
      Path WriteOnce.Step (fun _ => none) writes (c.decisions w) := by
  have refined := (DecisionInvariant.initial start).run one run
  rwa [decisions_initial start] at refined

/-- The number and the request that an action acts upon after a commit. -/
def Action.concludes : Action → Option (ℕ × String)
  | roastInit d _ n | execute d _ n _ => some (n, d)
  | _ => none

theorem Step.concludes_committed {cfg : Config} {s t : Replica} {a : Action}
    (step : Step cfg i s (now, a) t) (concludes : a.concludes = some (n, d)) :
    ∃ v, committed cfg d v n s := by
  cases a with
  | roastInit d' v n' | execute d' v n' val =>
    cases concludes
    exact ⟨v, step.pre.2.1⟩
  | _ => cases concludes

/-- What a correct replica starts to sign or executes is what the cluster has decided, then
and ever after. -/
theorem decisions_of_concludes (one : c.OneSignature) (start : c.Initial w₀)
    (run : Path (Guarded c.Step (SoundStep c)) w₀ labels w) (acts : l ∈ labels)
    (concludes : l.2.2.concludes = some (n, d)) : c.decisions w n = some d := by
  obtain ⟨before, after, rfl⟩ := List.append_of_mem acts
  obtain ⟨m, earlier, rest⟩ := run.split
  have inv : DecisionInvariant c m := by
    refine earlier.invariant ?_ (DecisionInvariant.initial start)
    intro w l w' inv next
    exact inv.step one next.1 next.2
  obtain ⟨writes, -, written⟩ := inv.run one rest
  have decided : c.decisions m n = some d := by
    cases rest with
    | cons first _ =>
      obtain ⟨v, commit⟩ := first.1.step.concludes_committed concludes
      exact inv.sound.decisions_eq_some.mpr (inv.sound.decided_of_committed first.1.correct commit)
  exact (WriteOnce.holds_iff written).mpr (Or.inl decided)

/-- Replica 0 collects the COMMITs and the shares, and executes. -/
def executesFirst : List ClusterLabel :=
  commitsFirst ++
    [(0, 60, .receiveCommit 0 1 "p1" 1 "S1"), (0, 60, .receiveCommit 0 1 "p2" 2 "S2"),
      (0, 60, .roastInit "(H=1, T=60)" 0 1), (0, 60, .receiveSigShare 1 "s1" "n1"),
      (0, 60, .receiveSigShare 0 "s0" "n0"), (0, 60, .execute "(H=1, T=60)" 0 1 "B60")]

theorem decisions_refine_executesFirst : ∃ w writes,
    fourWithOneFaulty.exec (SoundStep fourWithOneFaulty) executesFirst genesisWorld = some w ∧
    writes.Sublist [(1, "(H=1, T=60)"), (1, "(H=1, T=60)")] ∧
    Path WriteOnce.Step (fun _ => none) writes (fourWithOneFaulty.decisions w) := by
  have runs : ∃ w,
      fourWithOneFaulty.exec (SoundStep fourWithOneFaulty) executesFirst genesisWorld = some w ∧
      (w 0).state.lastExec = 1 := by
    decide +kernel
  obtain ⟨w, ran, -⟩ := runs
  obtain ⟨writes, sublist, written⟩ := decisions_refine fourWithOneFaulty_oneSignature
    (genesisWorld_initial rfl) (Cluster.exec_path ran)
  exact ⟨w, writes, ran, sublist, written⟩

theorem decisions_of_concludes_executesFirst : ∃ w,
    fourWithOneFaulty.exec (SoundStep fourWithOneFaulty) executesFirst genesisWorld = some w ∧
    (w 0).state.lastExec = 1 ∧ fourWithOneFaulty.decisions w 1 = some "(H=1, T=60)" := by
  have runs : ∃ w,
      fourWithOneFaulty.exec (SoundStep fourWithOneFaulty) executesFirst genesisWorld = some w ∧
      (w 0).state.lastExec = 1 := by
    decide +kernel
  obtain ⟨w, ran, executed⟩ := runs
  exact ⟨w, ran, executed, decisions_of_concludes
    (l := (0, 60, .execute "(H=1, T=60)" 0 1 "B60")) fourWithOneFaulty_oneSignature
    (genesisWorld_initial rfl) (Cluster.exec_path ran) (by simp [executesFirst]) rfl⟩

end Fbft
