import Fbft.Invariant
import Mathlib.Data.Finset.Card
import Mathlib.Data.Finset.Dedup

/-! What a Nu stands for. The VIEW_CHANGE log holds one message for each view and
sender, but for all views from the current one on, and `correct_nu_element` takes
them all; so the log has to be free of other views for Nu to name different replicas. -/
namespace Fbft

open Database LabelledPath

variable {cfg : Config} {i : ℕ} {now : ℚ} {s t : Replica} {a : Action} {nu : List NuEntry}

/-- The VIEW_CHANGE log of a reachable state. -/
structure ViewChangeLog (cfg : Config) (i : ℕ) (s : Replica) : Prop where
  nodup : s.msgLogViewChange.Nodup
  onePerSender : ∀ m ∈ s.msgLogViewChange, ∀ m' ∈ s.msgLogViewChange,
    m.v = m'.v → m.senderId = m'.senderId → m = m'
  current : ∀ m ∈ s.msgLogViewChange, s.view ≤ m.v
  own : ∀ m ∈ s.msgLogViewChange, m.senderId = i → m.v ≤ s.view

theorem Step.mem_viewChange (step : Step cfg i s (now, a) t) : m ∈ t.msgLogViewChange ↔
    (m ∈ s.msgLogViewChange ∨ m ∈ a.newViewChanges cfg i s) ∧ a.keepsView m.v := by
  rw [step.tables.viewChange, List.mem_filter, mem_assertzAll]

/-- A VIEW_CHANGE is added for the next view by the replica itself, or from another one
that has none logged for that view. -/
theorem Step.new_viewChange (step : Step cfg i s (now, a) t)
    (new : m ∈ a.newViewChanges cfg i s) :
    (a = .sendViewChange m.v ∧ m.senderId = i ∧ m.v = s.view + 1 ∧ t.view = m.v) ∨
    (m.senderId ≠ i ∧ s.view ≤ m.v ∧ t.view = s.view ∧
      ∀ m' ∈ s.msgLogViewChange, m'.v = m.v → m'.senderId ≠ m.senderId) := by
  have next := step.tables.view
  cases a with
  | sendViewChange v =>
    obtain ⟨c, -, rfl⟩ := List.mem_map.mp new
    exact Or.inl ⟨rfl, rfl, step.pre.1, next⟩
  | receiveViewChange v hi c pi qi j sig =>
    obtain ⟨other, higher, -, none, -⟩ := applyReceiveViewChange_spec step.apply
    rw [List.mem_singleton.mp new]
    exact Or.inr ⟨other, higher, next, fun m' logged view sender => none ⟨m', logged, view, sender⟩⟩
  | _ => cases new

theorem Action.newViewChanges_unique (new : m ∈ a.newViewChanges cfg i s)
    (new' : m' ∈ a.newViewChanges cfg i s) : m = m' := by
  cases a with
  | sendViewChange v =>
    obtain ⟨c, reported, rfl⟩ := List.mem_map.mp new
    obtain ⟨c', reported', rfl⟩ := List.mem_map.mp new'
    rw [Option.mem_toList] at reported reported'
    rw [Option.mem_unique reported reported']
  | receiveViewChange v hi c pi qi j sig =>
    rw [List.mem_singleton.mp new, List.mem_singleton.mp new']
  | _ => cases new

namespace ViewChangeLog

theorem initial (start : Initial cfg s) : ViewChangeLog cfg i s := by
  obtain ⟨height, blockHash, timestamp, view, rfl⟩ := start
  constructor <;> simp [initNotx, setView]

private theorem new_old (log : ViewChangeLog cfg i s) (step : Step cfg i s (now, a) t)
    (new : m ∈ a.newViewChanges cfg i s) (old : m' ∈ s.msgLogViewChange) (view : m.v = m'.v)
    (sender : m.senderId = m'.senderId) : m = m' := by
  rcases step.new_viewChange new with ⟨-, own, raised, -⟩ | ⟨-, -, -, none⟩
  · have bound := log.own m' old (sender ▸ own)
    omega
  · exact absurd sender.symm (none m' old view.symm)

theorem step (log : ViewChangeLog cfg i s) (step : Step cfg i s (now, a) t) :
    ViewChangeLog cfg i t where
  nodup := by
    rw [step.tables.viewChange]
    exact (nodup_assertzAll log.nodup).filter _
  onePerSender := by
    intro m logged m' logged' view sender
    obtain ⟨old | new, -⟩ := step.mem_viewChange.mp logged
    · obtain ⟨old' | new', -⟩ := step.mem_viewChange.mp logged'
      · exact log.onePerSender m old m' old' view sender
      · exact (new_old log step new' old view.symm sender.symm).symm
    · obtain ⟨old' | new', -⟩ := step.mem_viewChange.mp logged'
      · exact new_old log step new old' view sender
      · exact Action.newViewChanges_unique new new'
  current := by
    intro m logged
    obtain ⟨old | new, kept⟩ := step.mem_viewChange.mp logged
    · have bound := log.current m old
      rcases step.view_cases with same | ⟨-, rfl | rfl⟩
      · omega
      all_goals simpa [Action.keepsView] using kept
    · rcases step.new_viewChange new with ⟨-, -, -, next⟩ | ⟨-, higher, same, -⟩ <;> omega
  own := by
    intro m logged sender
    have le := step.view_le
    obtain ⟨old | new, -⟩ := step.mem_viewChange.mp logged
    · exact (log.own m old sender).trans le
    · rcases step.new_viewChange new with ⟨-, -, -, next⟩ | ⟨other, -⟩
      · omega
      · exact absurd sender other

theorem reachable (run : Reachable (Initial cfg) (Step cfg i) s) : ViewChangeLog cfg i s :=
  run.invariant (fun _ start => initial start) fun _ _ _ log next => log.step next

end ViewChangeLog

theorem correctNuElement_eq (cfg : Config) (i : ℕ) (s : Replica) :
    correctNuElement cfg i s = s.msgLogViewChange.map fun m => ⟨m.senderId, m.vcDigest⟩ := by
  simp [correctNuElement]

theorem sublist_of_mem_subsets {l sub : List NuEntry} (h : sub ∈ subsets l) : sub.Sublist l := by
  induction l generalizing sub with
  | nil =>
    rw [List.mem_singleton.mp h]
  | cons e tail ih =>
    simp only [subsets, List.mem_append, List.mem_map] at h
    rcases h with ⟨sub', inside, rfl⟩ | inside
    · exact (ih inside).cons_cons e
    · exact (ih inside).cons e

@[simp] theorem mem_sortNu {e : NuEntry} : e ∈ sortNu nu ↔ e ∈ nu := by
  simp [sortNu, List.mem_dedup]

theorem sortNu_perm (nodup : nu.Nodup) : (sortNu nu).Perm nu := by
  have sorted := List.perm_insertionSort NuEntry.le nu
  have same : sortNu nu = nu.insertionSort NuEntry.le :=
    List.dedup_eq_self.mpr (sorted.nodup_iff.mpr nodup)
  rwa [same]

theorem NuEntry.le_total (a b : NuEntry) : a.le b ∨ b.le a := by
  rcases lt_trichotomy a.j b.j with lt | eq | gt
  · exact Or.inl (Or.inl lt)
  · rcases String.le_total a.d b.d with le | ge
    · exact Or.inl (Or.inr ⟨eq, le⟩)
    · exact Or.inr (Or.inr ⟨eq.symm, ge⟩)
  · exact Or.inr (Or.inl gt)

theorem NuEntry.le_trans {a b c : NuEntry} (ab : a.le b) (bc : b.le c) : a.le c := by
  rcases ab with lt | ⟨eq, le⟩
  · rcases bc with lt' | ⟨eq', -⟩
    · exact Or.inl (lt.trans lt')
    · exact Or.inl (eq' ▸ lt)
  · rcases bc with lt' | ⟨eq', le'⟩
    · exact Or.inl (eq ▸ lt')
    · exact Or.inr ⟨eq.trans eq', le.trans le'⟩

theorem NuEntry.le_antisymm {a b : NuEntry} (ab : a.le b) (ba : b.le a) : a = b := by
  rcases ab with lt | ⟨eq, le⟩
  · rcases ba with lt' | ⟨eq', -⟩
    · exact absurd lt' lt.asymm
    · exact absurd eq' lt.ne'
  · rcases ba with lt' | ⟨-, le'⟩
    · exact absurd eq lt'.ne'
    · cases a
      cases b
      cases eq
      cases le.antisymm le'
      rfl

instance : Std.Total NuEntry.le := ⟨NuEntry.le_total⟩
instance : IsTrans NuEntry NuEntry.le := ⟨fun _ _ _ => NuEntry.le_trans⟩
instance : Std.Antisymm NuEntry.le := ⟨fun _ _ => NuEntry.le_antisymm⟩

/-- The order in which the VIEW_CHANGEs came is not seen in Nu. -/
theorem sortNu_eq_of_perm {nu' : List NuEntry} (reordered : nu.Perm nu') :
    sortNu nu = sortNu nu' := by
  have sorted : nu.insertionSort NuEntry.le = nu'.insertionSort NuEntry.le := by
    have perm := (List.perm_insertionSort NuEntry.le nu).trans
      (reordered.trans (List.perm_insertionSort NuEntry.le nu').symm)
    exact perm.eq_of_pairwise' (List.pairwise_insertionSort _ nu)
      (List.pairwise_insertionSort _ nu')
  rw [sortNu, sorted, sortNu]

theorem mem_subsets_of_sublist {l sub : List NuEntry} (part : sub.Sublist l) :
    sub ∈ subsets l := by
  induction part with
  | slnil => exact List.mem_singleton.mpr rfl
  | cons e _ ih => exact List.mem_append_right _ ih
  | cons_cons e _ ih => exact List.mem_append_left _ (List.mem_map_of_mem ih)

/-- Every part of the log of at least quorum size makes a Nu. -/
theorem mem_correctNuAll {sub : List NuEntry} (part : sub.Sublist (correctNuElement cfg i s))
    (large : quorum cfg ≤ sub.length) : sortNu sub ∈ correctNuAll cfg i s :=
  List.mem_map_of_mem (List.mem_filter.mpr ⟨mem_subsets_of_sublist part, decide_eq_true large⟩)

/-- Each Nu that is sent or accepted is a sorted part of the log of at least quorum size. -/
theorem nu_of_log (h : correctNuOnce cfg i s = some nu ∨ nu ∈ correctNuAll cfg i s) :
    ∃ sub, sub.Sublist (correctNuElement cfg i s) ∧ quorum cfg ≤ sub.length ∧ nu = sortNu sub := by
  rcases h with once | all
  · simp only [correctNuOnce] at once
    split at once
    · rename_i large
      cases once
      exact ⟨_, List.Sublist.refl _, large, rfl⟩
    · cases once
  · simp only [correctNuAll, filterSubsetsBySize, List.mem_map, List.mem_filter,
      decide_eq_true_eq] at all
    obtain ⟨sub, ⟨inside, large⟩, rfl⟩ := all
    exact ⟨sub, sublist_of_mem_subsets inside, large, rfl⟩

/-- Nu names logged VIEW_CHANGEs for the current view, of a quorum of different replicas. -/
structure RestsOnQuorum (cfg : Config) (nu : List NuEntry) (s : Replica) : Prop where
  logged : ∀ e ∈ nu, ∃ m ∈ s.msgLogViewChange,
    m.senderId = e.j ∧ m.vcDigest = e.d ∧ m.v = s.view
  distinct : (nu.map NuEntry.j).Nodup
  large : quorum cfg ≤ (nu.map NuEntry.j).toFinset.card

def MixedQuorum (cfg : Config) (s : Replica) : Prop :=
  quorum cfg ≤ s.msgLogViewChange.length ∧ ∃ m ∈ s.msgLogViewChange, m.v ≠ s.view

instance : Decidable (MixedQuorum cfg s) := inferInstanceAs (Decidable (_ ∧ _))

/-- A part of the log whose VIEW_CHANGEs are all for the current view has distinct senders. -/
theorem restsOnQuorum_of_sublist (log : ViewChangeLog cfg i s) {sub : List NuEntry}
    (part : sub.Sublist (correctNuElement cfg i s)) (large : quorum cfg ≤ sub.length)
    (current : ∀ m ∈ nuVset (sortNu sub) s, m.v = s.view) :
    RestsOnQuorum cfg (sortNu sub) s := by
  rw [correctNuElement_eq] at part
  obtain ⟨chosen, chosenPart, rfl⟩ := List.sublist_map_iff.mp part
  have view : ∀ m ∈ chosen, m.v = s.view := by
    intro m inside
    apply current m
    exact mem_nuVset.mpr ⟨chosenPart.subset inside, _,
      mem_sortNu.mpr (List.mem_map_of_mem inside), rfl⟩
  have senders : ((chosen.map fun m => (⟨m.senderId, m.vcDigest⟩ : NuEntry)).map
      NuEntry.j).Nodup := by
    rw [List.map_map]
    apply (log.nodup.sublist chosenPart).map_on
    intro m inside m' inside' same
    exact log.onePerSender m (chosenPart.subset inside) m' (chosenPart.subset inside')
      ((view m inside).trans (view m' inside').symm) same
  have reordered := (sortNu_perm senders.of_map).map NuEntry.j
  refine ⟨?_, reordered.nodup_iff.mpr senders, ?_⟩
  · intro e listed
    obtain ⟨m, inside, rfl⟩ := List.mem_map.mp (mem_sortNu.mp listed)
    exact ⟨m, chosenPart.subset inside, rfl, rfl, view m inside⟩
  · rw [List.toFinset_card_of_nodup (reordered.nodup_iff.mpr senders), reordered.length_eq,
      List.length_map]
    exact large

/-- A NEW_VIEW that is sent or accepted rests on a quorum for the current view, in every
reachable state whose log holds no quorum mixed with another view. -/
theorem newView_restsOnQuorum (reached : Reachable (Initial cfg) (Step cfg i) s)
    (unmixed : ¬ MixedQuorum cfg s) (nu : List NuEntry) (chi : List ChiEntry)
    (used : preSendNewView cfg nu chi i s ∨ (nu, chi) ∈ correctNewView cfg i s) :
    RestsOnQuorum cfg nu s := by
  have log := ViewChangeLog.reachable reached
  have source : correctNuOnce cfg i s = some nu ∨ nu ∈ correctNuAll cfg i s := by
    rcases used with sent | accepted
    · exact Or.inl sent.2.1
    · obtain ⟨m, -, -, -, listed, -⟩ := correctNewView_spec accepted
      exact Or.inr listed
  obtain ⟨sub, part, large, rfl⟩ := nu_of_log source
  have enough : quorum cfg ≤ s.msgLogViewChange.length := by
    have bound := part.length_le
    rw [correctNuElement_eq, List.length_map] at bound
    omega
  apply restsOnQuorum_of_sublist log part large
  intro m inside
  by_contra other
  exact unmixed ⟨enough, m, (mem_nuVset.mp inside).1, other⟩

def entersViewOne : List (ℚ × Action) :=
  [(60, .receiveRequest "(H=1, T=60)" 60), (100, .sendViewChange 1),
    (100, .receiveViewChange 1 0 "H0" [] [] 3 "S3")]

theorem newView_restsOnQuorum_three : ∃ s,
    exec fourReplicas 1 Always
      (entersViewOne ++ [(100, .receiveViewChange 1 0 "H0" [] [] 0 "S0")]) genesis = some s ∧
    preSendNewView fourReplicas [⟨0, "1/0"⟩, ⟨1, "1/1"⟩, ⟨3, "1/3"⟩] [] 1 s ∧
    RestsOnQuorum fourReplicas [⟨0, "1/0"⟩, ⟨1, "1/1"⟩, ⟨3, "1/3"⟩] s := by
  have runs : ∃ s, exec fourReplicas 1 Always
      (entersViewOne ++ [(100, .receiveViewChange 1 0 "H0" [] [] 0 "S0")]) genesis = some s ∧
      preSendNewView fourReplicas [⟨0, "1/0"⟩, ⟨1, "1/1"⟩, ⟨3, "1/3"⟩] [] 1 s ∧
      ¬ MixedQuorum fourReplicas s := by
    decide +kernel
  obtain ⟨s, ran, sends, unmixed⟩ := runs
  exact ⟨s, ran, sends,
    newView_restsOnQuorum (exec_reachable genesis_initial ran) unmixed _ _ (Or.inl sends)⟩

/-- The faulty replica 3 sends a second VIEW_CHANGE, for view 2, and makes up the quorum. -/
theorem newView_not_restsOnQuorum : ∃ s nu chi,
    Reachable (Initial fourReplicas) (Step fourReplicas 1) s ∧
    preSendNewView fourReplicas nu chi 1 s ∧ ¬ RestsOnQuorum fourReplicas nu s := by
  have runs : ∃ s, exec fourReplicas 1 Always
      (entersViewOne ++ [(100, .receiveViewChange 2 0 "H0" [] [] 3 "S3")]) genesis = some s ∧
      preSendNewView fourReplicas [⟨1, "1/1"⟩, ⟨3, "1/3"⟩, ⟨3, "2/3"⟩] [] 1 s := by
    decide +kernel
  obtain ⟨s, ran, sends⟩ := runs
  refine ⟨s, _, _, exec_reachable genesis_initial ran, sends, fun rests => ?_⟩
  exact absurd rests.distinct (by decide)

end Fbft
