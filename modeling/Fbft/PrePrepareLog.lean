import Fbft.Nu

/-! The order of the pre-prepare log and the blocks in it. Numbers are stacked: an entry
above the window has the entry of the number below it somewhere before it, so the first
entry with the digest of the window is the one of the window. -/
namespace Fbft

open Database LabelledPath

variable {cfg : Config} {i : ℕ} {now : ℚ} {s t : Replica} {a : Action}

def Stacked (h : ℕ) (log : List PrePrepare) : Prop :=
  ∀ before m after, log = before ++ m :: after → h + 1 < m.n → ∃ m' ∈ before, m'.n + 1 = m.n

structure PrePrepareLog (s : Replica) : Prop where
  bound : ∀ m ∈ s.msgLogPrePrepare, m.reqDigest ≠ nullDigest → m.data ≠ none
  qi : ∀ q ∈ s.viewChangeQi, q.data ≠ none
  viewChange : ∀ m ∈ s.msgLogViewChange, ∀ q ∈ m.qi, q.data ≠ none
  stacked : Stacked (lowWatermark s) s.msgLogPrePrepare

theorem Stacked.nil : Stacked h [] := by
  intro before m after split
  simp at split

theorem Stacked.append (stacked : Stacked h log) (window : m.n = h + 1) :
    Stacked h (log ++ [m]) := by
  intro before m' after split above
  rcases List.append_eq_append_iff.mp split with ⟨rest, rfl, same⟩ | ⟨rest, rfl, same⟩
  · cases rest with
    | nil =>
      simp only [List.nil_append, List.cons.injEq] at same
      rw [← same.1] at above
      omega
    | cons x rest => simp at same
  · cases rest with
    | nil =>
      simp only [List.nil_append, List.cons.injEq] at same
      rw [same.1] at above
      omega
    | cons x rest =>
      simp only [List.cons_append, List.cons.injEq] at same
      obtain ⟨rfl, rfl⟩ := same
      exact stacked before m' rest (by simp) above

theorem Stacked.of_range {k : ℕ} (numbers : log.map PrePrepare.n = List.range' (h + 1) k) :
    Stacked h log := by
  intro before m after split above
  rw [split, List.map_append, List.map_cons] at numbers
  have position : (List.range' (h + 1) k)[before.length]? = some m.n := by
    rw [← numbers]
    simp
  have inRange : before.length < k := by
    by_contra outside
    rw [List.getElem?_eq_none (by simpa using outside)] at position
    cases position
  rw [List.getElem?_range' inRange] at position
  have value : m.n = h + 1 + before.length := by simpa using (Option.some.inj position).symm
  have previous : (List.range' (h + 1) k)[before.length - 1]? = some (h + before.length) := by
    rw [List.getElem?_range' (by omega)]
    simp only [one_mul, Option.some.injEq]
    omega
  rw [← numbers, List.getElem?_append_left (by simp; omega), List.getElem?_map] at previous
  obtain ⟨m', found, number⟩ := Option.map_eq_some_iff.mp previous
  exact ⟨m', List.mem_of_getElem? found, by omega⟩

/-- A block removes the numbers up to its height and nothing between the others. -/
theorem Stacked.filter {h' : ℕ} (stacked : Stacked h log) (grown : h ≤ h') :
    Stacked h' (log.filter fun m => h' < m.n) := by
  intro before m after split above
  obtain ⟨before', rest, rfl, same, split'⟩ := List.filter_eq_append_iff.mp split
  obtain ⟨dropped, rest', rfl, small, -, -⟩ := List.filter_eq_cons_iff.mp split'
  obtain ⟨m', inside, number⟩ := stacked (before' ++ dropped) m rest' (by simp) (by omega)
  refine ⟨m', ?_, number⟩
  have high : h' < m'.n := by omega
  rcases List.mem_append.mp inside with kept | removed
  · rw [← same]
    exact List.mem_filter.mpr ⟨kept, by simpa using high⟩
  · exact absurd (by simpa using high) (small m' removed)

theorem Stacked.window (stacked : Stacked h log) (positive : ∀ m ∈ log, h < m.n)
    (split : log = before ++ m :: after) (above : h + 1 < m.n) :
    ∃ m' ∈ before, m'.n = h + 1 := by
  induction hn : m.n using Nat.strong_induction_on generalizing before m after with
  | _ n ih =>
    obtain ⟨m', inside, number⟩ := stacked before m after split above
    obtain ⟨first, last, rfl⟩ := List.append_of_mem inside
    have low : h < m'.n := positive m' (by rw [split]; simp)
    by_cases window : m'.n = h + 1
    · exact ⟨m', inside, window⟩
    · have split' : log = first ++ m' :: (last ++ m :: after) := by
        rw [split]
        simp
      obtain ⟨m'', inside'', window''⟩ := ih m'.n (by omega) split' (by omega) rfl
      exact ⟨m'', List.mem_append_left _ inside'', window''⟩

theorem Data.unify_bound {a b c : Data} (h : Data.unify a b = some c) (bound : b ≠ none) :
    c ≠ none := by
  rcases a with _ | x <;> rcases b with _ | y <;> simp only [Data.unify] at h
  · exact absurd rfl bound
  · cases h
    exact bound
  · exact absurd rfl bound
  · split at h
    · cases h
      exact Option.some_ne_none _
    · cases h

theorem correctChi_numbers (h : correctChi cfg nu s = some chi) :
    ∃ minS k, chi.map ChiEntry.n = List.range' (minS + 1) k := by
  have large : quorum cfg ≤ (nuVset nu s).length := by
    by_contra small
    simp [correctChi, small] at h
  obtain ⟨minS, -, -, same⟩ := correctChi_some large
  rw [h] at same
  cases same
  have numbers : ChiEntry.n ∘ chiEntry (nuVset nu s) = id := by
    funext n
    simp
  refine ⟨minS, maxPreparedN (nuVset nu s) minS + 1 - (minS + 1), ?_⟩
  rw [List.map_map, numbers, List.map_id, between]

theorem preProcessNewView_range (pre : preProcessNewView cfg hi nu chi i s) :
    ∃ k, chi.map ChiEntry.n = List.range' (hi + 1) k := by
  obtain ⟨-, correct, -, -, -, least, -⟩ := pre
  obtain ⟨m, -, -, -, -, computed, solved, unified⟩ := correctNewView_spec correct
  obtain ⟨minS, k, numbers⟩ := correctChi_numbers solved
  rw [← unifyChi_numbers unified] at numbers
  rcases least with least | rfl
  · cases k with
    | zero => simp [numbers] at least
    | succ k =>
      obtain ⟨member, bound⟩ := List.min?_eq_some_iff.mp least
      rw [numbers, List.mem_range'_1] at member
      have first := bound (minS + 1) (by rw [numbers, List.mem_range'_1]; omega)
      have same : minS = hi := by omega
      exact ⟨k + 1, same ▸ numbers⟩
  · exact ⟨0, rfl⟩

theorem correctChi_bound (log : PrePrepareLog s) (solved : correctChi cfg nu s = some chi) :
    ∀ e ∈ chi, e.reqDigest ≠ nullDigest → e.data ≠ none := by
  intro e inside named
  have entry := (correctChi_range solved).2.2 e inside
  rcases chiEntry_cases (nuVset nu s) e.n with ⟨mp, p, q, -, head, same⟩ | ⟨same, -⟩
  · have listed : q ∈ qiEntries (nuVset nu s) :=
      (List.mem_filter.mp (List.mem_of_head? head)).1
    obtain ⟨vc, member, inQi⟩ := List.mem_flatMap.mp listed
    have known := log.viewChange vc (mem_nuVset.mp member).1 q inQi
    have data : e.data = q.data := by rw [entry, same]
    exact data ▸ known
  · rw [entry, same] at named
    exact absurd rfl named

theorem preProcessNewView_bound (log : PrePrepareLog s)
    (pre : preProcessNewView cfg hi nu chi i s) :
    ∀ e ∈ chi, e.reqDigest ≠ nullDigest → e.data ≠ none := by
  intro e inside named
  obtain ⟨m, -, -, -, -, computed, solved, unified⟩ := correctNewView_spec pre.2.1
  obtain ⟨x, -, b, member, unifies⟩ := mem_unifyChi unified inside
  obtain ⟨-, digest, -, -, data⟩ := ChiEntry.unify_spec unifies
  exact Data.unify_bound data (correctChi_bound log solved b member (digest ▸ named))

theorem populatedPrePrepares_eq (empty : s.msgLogPrePrepare = [])
    (distinct : (chi.map ChiEntry.n).Nodup) :
    populatedPrePrepares cfg chi s = prePreparesOfChi cfg s.view chi := by
  have apart : (prePreparesOfChi cfg s.view chi).Pairwise fun a b => a.unifies b = false ∧
      b.unifies a = false := by
    rw [prePreparesOfChi, List.pairwise_map]
    refine (List.pairwise_map.mp distinct).imp fun {e e'} different => ?_
    have different' : ¬ e'.n = e.n := fun same => different same.symm
    simp [PrePrepare.unifies, different, different']
  rw [populatedPrePrepares, empty]
  exact assertzAllBy_nil_of_pairwise (apart.imp And.right)

theorem Step.processNewView_log (inv : Invariant cfg i s)
    (step : Step cfg i s (now, .processNewView hi nu chi) t) :
    t.msgLogPrePrepare = prePreparesOfChi cfg s.view chi := by
  have empty := inv.inactive step.pre.1
  obtain ⟨distinct, -⟩ := preProcessNewView_numbers step.pre
  rw [step.tables.prePrepare, ← populatedPrePrepares_eq empty distinct]
  simp [Action.keeps, Action.newPrePrepares, populatedPrePrepares]

namespace PrePrepareLog

theorem initial (start : Initial cfg s) : PrePrepareLog s := by
  obtain ⟨height, blockHash, timestamp, view, rfl⟩ := start
  constructor <;> simp [initNotx, setView]
  exact Stacked.nil

private theorem new_bound (log : PrePrepareLog s) (step : Step cfg i s (now, a) t)
    (new : m ∈ a.newPrePrepares cfg i s) : m.reqDigest ≠ nullDigest → m.data ≠ none := by
  cases a with
  | sendPrePrepare d data v n | receivePrePrepare v n d data j sig =>
    rw [List.mem_singleton.mp new]
    simp
  | processNewView hi nu chi =>
    obtain ⟨e, inside, rfl⟩ := List.mem_map.mp new
    exact preProcessNewView_bound log step.pre e inside
  | _ => cases new

/-- Qi is filled from pre-prepares of known requests, so none of its blocks is unbound. -/
theorem updateViewChangeQi_bound (log : PrePrepareLog s) (inv : Invariant cfg i s) :
    ∀ q ∈ (updateViewChangeQi cfg s).viewChangeQi, q.data ≠ none := by
  intro q listed
  obtain ⟨⟨⟨r, known, digest⟩, -⟩, -, m, inside, -, -, digest', -, data⟩ :=
    mem_updateViewChangeQi.mp listed
  have named := inv.request r known
  rw [digest, ← digest'] at named
  exact data ▸ log.bound m inside named

private theorem step_qi (log : PrePrepareLog s) (inv : Invariant cfg i s)
    (step : Step cfg i s (now, a) t) : ∀ q ∈ t.viewChangeQi, q.data ≠ none := by
  intro q listed
  rw [step.tables.viewChangeQi] at listed
  cases a with
  | sendViewChange v => exact log.updateViewChangeQi_bound inv q listed
  | receiveBlock height time blockHash => exact log.qi q (List.mem_filter.mp listed).1
  | _ => exact log.qi q listed

private theorem step_viewChange (log : PrePrepareLog s) (inv : Invariant cfg i s)
    (step : Step cfg i s (now, a) t) : ∀ m ∈ t.msgLogViewChange, ∀ q ∈ m.qi, q.data ≠ none := by
  intro m logged
  obtain ⟨old | new, -⟩ := step.mem_viewChange.mp logged
  · exact log.viewChange m old
  · cases a with
    | sendViewChange v =>
      obtain ⟨c, -, rfl⟩ := List.mem_map.mp new
      exact log.updateViewChangeQi_bound inv
    | receiveViewChange v hi c pi qi j sig =>
      rw [List.mem_singleton.mp new]
      exact step.admissible
    | _ => cases new

private theorem step_stacked (log : PrePrepareLog s) (inv : Invariant cfg i s)
    (step : Step cfg i s (now, a) t) : Stacked (lowWatermark t) t.msgLogPrePrepare := by
  have table := step.tables.prePrepare
  have height := step.lowWatermark_cases inv.checkpoint
  have appended : ∀ m : PrePrepare, m.n = lowWatermark s + 1 →
      Stacked (lowWatermark s) (assertzOnceBy PrePrepare.unifies m s.msgLogPrePrepare) := by
    intro m window
    rcases assertzOnceBy_cases PrePrepare.unifies m s.msgLogPrePrepare with ⟨same, -⟩ | ⟨same, -⟩
    · rw [same]
      exact log.stacked
    · rw [same]
      exact log.stacked.append window
  cases a with
  | sendPrePrepare d data v n =>
    have same : lowWatermark t = lowWatermark s := by simpa using height
    have window := ((inWv_iff inv.checkpoint).mp step.pre.2.2.2.1).2
    rw [table, same]
    simpa [Action.keeps, Action.newPrePrepares] using
      appended ⟨v, n, d, some data, i, sigOwnReplica⟩ window
  | receivePrePrepare v n d data j sig =>
    have same : lowWatermark t = lowWatermark s := by simpa using height
    obtain ⟨-, -, inside, -⟩ := applyReceivePrePrepare_spec step.apply
    have window := ((inWv_iff inv.checkpoint).mp inside).2
    rw [table, same]
    simpa [Action.keeps, Action.newPrePrepares] using appended ⟨v, n, d, some data, j, sig⟩ window
  | processNewView hi nu chi =>
    have same : lowWatermark t = lowWatermark s := by simpa using height
    have low : hi = lowWatermark s := by
      have found := step.pre.2.2.1
      rw [getH_eq inv.checkpoint] at found
      exact (Option.some.inj found).symm
    obtain ⟨k, numbers⟩ := preProcessNewView_range step.pre
    rw [step.processNewView_log inv, same]
    apply Stacked.of_range (k := k)
    rw [← low, ← numbers, prePreparesOfChi, List.map_map]
    rfl
  | receiveBlock blockHeight time blockHash =>
    obtain ⟨grown, single⟩ := step.block_checkpoint inv.checkpoint
    rw [table, lowWatermark_eq single]
    simpa [Action.keeps, Action.newPrePrepares] using log.stacked.filter grown.le
  | recoverView v =>
    obtain ⟨higher, next⟩ := step.recoverView_raises
    rw [step.prePrepare_empty inv (by omega)]
    exact Stacked.nil
  | sendViewChange v =>
    obtain ⟨higher, next⟩ := step.sendViewChange_raises
    rw [step.prePrepare_empty inv (by omega)]
    exact Stacked.nil
  | _ =>
    have same : lowWatermark t = lowWatermark s := by simpa using height
    rw [table, same]
    simpa [Action.keeps, Action.newPrePrepares] using log.stacked

theorem step (log : PrePrepareLog s) (inv : Invariant cfg i s) (step : Step cfg i s (now, a) t) :
    PrePrepareLog t where
  bound := by
    intro m logged
    obtain ⟨old | new, -⟩ := step.mem_prePrepare logged
    · exact log.bound m old
    · exact new_bound log step new
  qi := step_qi log inv step
  viewChange := step_viewChange log inv step
  stacked := step_stacked log inv step

theorem reachable (reached : Reachable (Initial cfg) (Step cfg i) s) :
    Invariant cfg i s ∧ PrePrepareLog s := by
  apply reached.invariant
  · exact fun _ start => ⟨Invariant.initial start, PrePrepareLog.initial start⟩
  · rintro s ⟨now, a⟩ t ⟨inv, log⟩ step
    exact ⟨inv.step step, log.step inv step⟩

end PrePrepareLog

end Fbft
