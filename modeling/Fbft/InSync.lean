import Fbft.Nu

/-! Whether a replica that enters a new view knows the checkpoints that the view starts from.
The guard collects the VIEW_CHANGEs with `Hi` already bound to the replica's own height, so it
compares the replica with those that agree with it and with no other. -/
namespace Fbft

open Database LabelledPath

variable {cfg : Config} {i hi : ℕ} {s : Replica} {nu : List NuEntry} {chi : List ChiEntry}

/-- The replica knows the checkpoint of every VIEW_CHANGE of Nu, is behind none of them, and
Chi starts right above the lowest. -/
structure InSync (hi : ℕ) (nu : List NuEntry) (chi : List ChiEntry) (s : Replica) : Prop where
  known : ∀ m ∈ nuVset nu s, ∃ c ∈ s.checkpoint, c.stateVal = m.c
  least : ∃ minS, ((nuVset nu s).map ViewChange.hi).min? = some minS ∧ minS ≤ hi ∧
    (chi ≠ [] → (chi.map ChiEntry.n).min? = some (minS + 1))
  notBehind : ∀ m ∈ nuVset nu s, m.hi ≤ hi

/-- The VIEW_CHANGEs that the guard does not look at are of lower, known checkpoints. -/
def OthersKnown (hi : ℕ) (nu : List NuEntry) (s : Replica) : Prop :=
  ∀ m ∈ nuVset nu s, m.hi ≠ hi → m.hi < hi ∧ ∃ c ∈ s.checkpoint, c.stateVal = m.c

theorem mem_viewChangesAt {m : ViewChange} :
    m ∈ viewChangesAt hi nu s ↔ m ∈ nuVset nu s ∧ m.hi = hi := by
  simp [viewChangesAt]

theorem correctChi_least (solved : correctChi cfg nu s = some chi) (nonempty : chi ≠ [])
    (least : ((nuVset nu s).map ViewChange.hi).min? = some minS) :
    (chi.map ChiEntry.n).min? = some (minS + 1) := by
  obtain ⟨-, range, -⟩ := correctChi_range solved
  obtain ⟨member, bound⟩ := List.min?_eq_some_iff.mp least
  have above : ∀ n ∈ chi.map ChiEntry.n, minS + 1 ≤ n := by
    intro n inside
    obtain ⟨⟨m, listed, lower⟩, -⟩ := (range n).mp inside
    have le := bound m.hi (List.mem_map_of_mem listed)
    omega
  refine List.min?_eq_some_iff.mpr ⟨?_, above⟩
  obtain ⟨e, inside⟩ := List.exists_mem_of_ne_nil _ nonempty
  have number := List.mem_map_of_mem (f := ChiEntry.n) inside
  obtain ⟨-, p, certificate, upper⟩ := (range e.n).mp number
  obtain ⟨m, listed, lowest⟩ := List.mem_map.mp member
  exact (range (minS + 1)).mpr ⟨⟨m, listed, by omega⟩, p, certificate, (above e.n number).trans upper⟩

/-- A replica that may process a NEW_VIEW is in sync with it exactly when the VIEW_CHANGEs
of other heights are of lower checkpoints that it knows. -/
theorem inSync_iff_othersKnown (pre : preProcessNewView cfg hi nu chi i s) :
    InSync hi nu chi s ↔ OthersKnown hi nu s := by
  obtain ⟨-, correct, -, some, known, first, -⟩ := pre
  constructor
  · intro sync m inside other
    have le := sync.notBehind m inside
    exact ⟨by omega, sync.known m inside⟩
  intro others
  have notBehind : ∀ m ∈ nuVset nu s, m.hi ≤ hi := by
    intro m inside
    by_cases same : m.hi = hi
    · exact same.le
    · exact (others m inside same).1.le
  refine ⟨fun m inside => ?_, ?_, notBehind⟩
  · by_cases same : m.hi = hi
    · exact known m (mem_viewChangesAt.mpr ⟨inside, same⟩)
    · exact (others m inside same).2
  -- the minimum exists and is at most `hi`, because some VIEW_CHANGE speaks for `hi`
  obtain ⟨m, at_hi⟩ := List.exists_mem_of_ne_nil _ some
  obtain ⟨inside, same⟩ := mem_viewChangesAt.mp at_hi
  have listed : m.hi ∈ (nuVset nu s).map ViewChange.hi := List.mem_map_of_mem inside
  obtain ⟨minS, least⟩ := Option.ne_none_iff_exists'.mp
    (mt List.min?_eq_none_iff.mp (List.ne_nil_of_mem listed))
  have le := (List.min?_eq_some_iff.mp least).2 m.hi listed
  refine ⟨minS, least, by omega, fun nonempty => ?_⟩
  obtain ⟨x, -, -, -, -, computed, solved, unified⟩ := correctNewView_spec correct
  have numbers := unifyChi_numbers unified
  rw [numbers]
  apply correctChi_least solved _ least
  rintro rfl
  exact nonempty (List.map_eq_nil_iff.mp numbers)

/-- Replica 0 leaves view 0 above block 1, as replica 1 does. Replica 3 names that block too, but
claims to be at height 0. -/
def entersAboveBlock : List (ℚ × Action) :=
  [(60, .receiveRequest "(H=1, T=60)" 60), (60, .receiveRequest "(H=2, T=120)" 120),
    (60, .receiveBlock 1 60 "H1"), (1000, .sendViewChange 1),
    (1000, .receiveViewChange 1 1 "H1" [] [] 1 "S1"),
    (1000, .receiveViewChange 1 0 "H1" [] [] 3 "S3"),
    (1000, .receiveNewView 1 [⟨0, "1/0"⟩, ⟨1, "1/1"⟩, ⟨3, "1/3"⟩] [] 1 "S1")]

theorem inSync_entersAboveBlock : ∃ s,
    exec fourReplicas 0 Always entersAboveBlock genesis = some s ∧
    (∃ m ∈ nuVset [⟨0, "1/0"⟩, ⟨1, "1/1"⟩, ⟨3, "1/3"⟩] s, m.hi ≠ 1) ∧
    InSync 1 [⟨0, "1/0"⟩, ⟨1, "1/1"⟩, ⟨3, "1/3"⟩] [] s := by
  have runs : ∃ s, exec fourReplicas 0 Always entersAboveBlock genesis = some s ∧
      preProcessNewView fourReplicas 1 [⟨0, "1/0"⟩, ⟨1, "1/1"⟩, ⟨3, "1/3"⟩] [] 0 s ∧
      (∃ m ∈ nuVset [⟨0, "1/0"⟩, ⟨1, "1/1"⟩, ⟨3, "1/3"⟩] s, m.hi ≠ 1) ∧
      OthersKnown 1 [⟨0, "1/0"⟩, ⟨1, "1/1"⟩, ⟨3, "1/3"⟩] s := by
    unfold OthersKnown
    decide +kernel
  obtain ⟨s, ran, pre, lower, others⟩ := runs
  exact ⟨s, ran, lower, (inSync_iff_othersKnown pre).mpr others⟩

/-- Replica 0 leaves view 0, as replica 1 does at its height. Replica 2 is one block ahead. -/
def entersBehind : List (ℚ × Action) :=
  [(60, .receiveRequest "(H=1, T=60)" 60), (1000, .sendViewChange 1),
    (1000, .receiveViewChange 1 0 "H0" [] [] 1 "S1"),
    (1000, .receiveViewChange 1 1 "H1" [] [] 2 "S2"),
    (1000, .receiveNewView 1 [⟨0, "1/0"⟩, ⟨1, "1/1"⟩, ⟨2, "1/2"⟩] [] 1 "S1")]

/-- Replica 2 reports block 1, which replica 0 does not have; it may enter the view all the
same, and is active in it without that block. -/
theorem entersBehind_not_inSync : ∃ s nu t,
    Reachable (Initial fourReplicas) (Step fourReplicas 0) s ∧
    preProcessNewView fourReplicas 0 nu [] 0 s ∧ ¬ InSync 0 nu [] s ∧
    Step fourReplicas 0 s (1000, .processNewView 0 nu []) t ∧ t.activeView = true ∧
    t.checkpoint = [⟨0, "H0", 0⟩] ∧ ∃ m ∈ nuVset nu s, m.hi = 1 ∧ m.c = "H1" := by
  have runs : ∃ s, exec fourReplicas 0 Always entersBehind genesis = some s ∧
      preProcessNewView fourReplicas 0 [⟨0, "1/0"⟩, ⟨1, "1/1"⟩, ⟨2, "1/2"⟩] [] 0 s ∧
      (∃ m ∈ nuVset [⟨0, "1/0"⟩, ⟨1, "1/1"⟩, ⟨2, "1/2"⟩] s, m.hi = 1 ∧ m.c = "H1") ∧
      (applyProcessNewView fourReplicas 0 [] 0 s).activeView = true ∧
      (applyProcessNewView fourReplicas 0 [] 0 s).checkpoint = [⟨0, "H0", 0⟩] := by
    decide +kernel
  obtain ⟨s, ran, pre, ⟨m, inside, ahead, block⟩, active, checkpoint⟩ := runs
  refine ⟨s, _, _, exec_reachable genesis_initial ran, pre, fun sync => ?_,
    ⟨trivial, pre, rfl⟩, active, checkpoint, m, inside, ahead, block⟩
  have le := sync.notBehind m inside
  omega

end Fbft
