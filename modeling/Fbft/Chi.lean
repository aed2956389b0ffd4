import Fbft.Step

/-! What `correct_chi` selects for each sequence number, and when that is the
certificate of the highest view. -/
namespace Fbft

open Database LabelledPath

variable {cfg : Config} {s : Replica} {msgs : List ViewChange} {n : ℕ}

theorem mem_nuVset {nu : List NuEntry} {m : ViewChange} : m ∈ nuVset nu s ↔
    m ∈ s.msgLogViewChange ∧ ∃ e ∈ nu, m.vcDigest = e.d := by
  simp only [nuVset, List.mem_flatMap, List.mem_filter, decide_eq_true_eq]
  tauto

def piEntries (msgs : List ViewChange) : List PiEntry := msgs.flatMap ViewChange.pi

def qiEntries (msgs : List ViewChange) : List QiEntry := msgs.flatMap ViewChange.qi

structure HighestCertificate (msgs : List ViewChange) (n : ℕ) (d : String) (v : ℕ) : Prop where
  listed : ⟨n, d, v⟩ ∈ piEntries msgs
  highest : ∀ p ∈ piEntries msgs, p.n = n → p.v ≤ v

/-- A block pre-prepared for `n` and `d` in view `v` or later. -/
def PrePreparedBlock (msgs : List ViewChange) (n : ℕ) (d : String) (v : ℕ) (data : Data) : Prop :=
  ∃ q ∈ qiEntries msgs, q.n = n ∧ q.reqDigest = d ∧ v ≤ q.v ∧ q.data = data

/-- What the reference protocol asks of one entry of Chi. -/
structure ReproposedEntry (msgs : List ViewChange) (e : ChiEntry) : Prop where
  certified : (∃ p ∈ piEntries msgs, p.n = e.n) → ∃ v, HighestCertificate msgs e.n e.reqDigest v ∧
    ((∃ data, PrePreparedBlock msgs e.n e.reqDigest v data) →
      PrePreparedBlock msgs e.n e.reqDigest v e.data)
  null : e.reqDigest = nullDigest → ¬ ∃ p ∈ piEntries msgs, p.n = e.n

/-- One entry for each sequence number above the least checkpoint and up to the greatest
prepared one, each as the reference protocol asks. -/
structure Reproposes (msgs : List ViewChange) (chi : List ChiEntry) : Prop where
  once : (chi.map ChiEntry.n).Nodup
  range : ∀ n, n ∈ chi.map ChiEntry.n ↔ (∃ m ∈ msgs, m.hi < n) ∧ ∃ p ∈ piEntries msgs, n ≤ p.n
  entries : ∀ e ∈ chi, ReproposedEntry msgs e

def companions (msgs : List ViewChange) (p : PiEntry) : List QiEntry :=
  (qiEntries msgs).filter fun q => q.n = p.n ∧ q.reqDigest = p.reqDigest ∧ q.v = p.v

/-- `correct_chi` can take `p` from the Pi of `m`: no entry of that one list beats it,
and its block is known for exactly its view. -/
structure Eligible (msgs : List ViewChange) (m : ViewChange) (p : PiEntry) : Prop where
  listed : p ∈ m.pi
  topmost : topmost m.pi p
  companion : companions msgs p ≠ []

/-- `m` is the first message from which something for `n` can be taken, and it gives `p`. -/
structure FirstEligible (msgs : List ViewChange) (n : ℕ) (m : ViewChange) (p : PiEntry) : Prop where
  number : p.n = n
  eligible : Eligible msgs m p
  first : ∃ before after, msgs = before ++ m :: after ∧
    ∀ m' ∈ before, ∀ p', p'.n = n → ¬ Eligible msgs m' p'

theorem topmost_unique {pi : List PiEntry} {p p' : PiEntry} (mem : p ∈ pi) (mem' : p' ∈ pi)
    (top : topmost pi p) (top' : topmost pi p') (same : p.n = p'.n) : p = p' := by
  have same' : p.reqDigest = p'.reqDigest ∧ p.v = p'.v := by
    rcases top p' mem' same.symm with lower | ⟨view, digest⟩
    · rcases top' p mem same with lower' | ⟨view', digest'⟩
      · omega
      · exact ⟨digest', view'⟩
    · exact ⟨digest.symm, view.symm⟩
  obtain ⟨n, d, v⟩ := p
  obtain ⟨n', d', v'⟩ := p'
  simp_all

/-- For one message as the source of Pi: the solutions that pair `p` with `mq`. -/
private def pairs (n : ℕ) (mp mq : ViewChange) (p : PiEntry) : List ChiEntry :=
  (mq.qi.filter fun q =>
    q.n = n ∧ q.reqDigest = p.reqDigest ∧ q.v = p.v ∧ topmost mp.pi p).map fun q =>
      ⟨n, p.reqDigest, q.data⟩

private theorem pairs_of_topmost {mp mq : ViewChange} {p : PiEntry} (top : topmost mp.pi p)
    (number : p.n = n) :
    pairs n mp mq p = (mq.qi.filter fun q =>
      q.n = p.n ∧ q.reqDigest = p.reqDigest ∧ q.v = p.v).map fun q => ⟨n, p.reqDigest, q.data⟩ := by
  unfold pairs
  subst number
  simp [top]

private theorem pairs_of_not_topmost {mp mq : ViewChange} {p : PiEntry}
    (beaten : ¬ topmost mp.pi p) : pairs n mp mq p = [] := by
  simp [pairs, beaten]

/-- All solutions that take Pi from `mp`. -/
private def solutionsFrom (msgs : List ViewChange) (n : ℕ) (mp : ViewChange) : List ChiEntry :=
  msgs.flatMap fun mq => (mp.pi.filter fun p => p.n = n).flatMap (pairs n mp mq)

private theorem solutionsFrom_head (msgs : List ViewChange) {mp : ViewChange} {p : PiEntry}
    (mem : p ∈ mp.pi) (top : topmost mp.pi p) (number : p.n = n) :
    (solutionsFrom msgs n mp).head? =
      (companions msgs p).head?.map fun q => ⟨n, p.reqDigest, q.data⟩ := by
  have listed : p ∈ mp.pi.filter fun p => p.n = n := by simp [mem, number]
  unfold solutionsFrom companions qiEntries
  rw [List.filter_flatMap]
  refine head?_flatMap_congr fun mq _ => ?_
  have same : ∀ p' ∈ mp.pi.filter fun p => p.n = n,
      pairs n mp mq p' = [] ∨ pairs n mp mq p' = pairs n mp mq p := by
    intro p' member
    obtain ⟨mem', number'⟩ : p' ∈ mp.pi ∧ p'.n = n := by simpa using member
    by_cases top' : topmost mp.pi p'
    · rw [topmost_unique mem mem' top top' (number.trans number'.symm)]
      exact Or.inr rfl
    · exact Or.inl (pairs_of_not_topmost top')
  rw [head?_flatMap_of_same same ⟨p, listed, rfl⟩, pairs_of_topmost top number, List.head?_map]

private theorem solutionsFrom_eq_nil_iff {mp : ViewChange} :
    solutionsFrom msgs n mp = [] ↔ ∀ p, p.n = n → ¬ Eligible msgs mp p := by
  constructor
  · rintro empty p number ⟨mem, top, companion⟩
    have head := solutionsFrom_head msgs mem top number
    rw [empty] at head
    obtain ⟨q, rest, same⟩ := List.exists_cons_of_ne_nil companion
    simp [same] at head
  · intro none
    unfold solutionsFrom
    refine List.flatMap_eq_nil_iff.mpr fun mq inside => List.flatMap_eq_nil_iff.mpr fun p member => ?_
    obtain ⟨mem, number⟩ : p ∈ mp.pi ∧ p.n = n := by simpa using member
    by_cases top : topmost mp.pi p
    · by_contra some
      refine none p number ⟨mem, top, ?_⟩
      rw [pairs_of_topmost top number] at some
      obtain ⟨q, found⟩ := List.exists_mem_of_ne_nil _ (mt List.map_eq_nil_iff.mpr some)
      obtain ⟨listed, matching⟩ := List.mem_filter.mp found
      exact List.ne_nil_of_mem (List.mem_filter.mpr
        ⟨List.mem_flatMap.mpr ⟨mq, inside, listed⟩, matching⟩)
    · exact pairs_of_not_topmost top

theorem chiCase1_head_iff {e : ChiEntry} :
    (chiCase1 msgs n).head? = some e ↔
      ∃ m p q, FirstEligible msgs n m p ∧ (companions msgs p).head? = some q ∧
        e = ⟨n, p.reqDigest, q.data⟩ := by
  have unfolded : chiCase1 msgs n = msgs.flatMap (solutionsFrom msgs n) := rfl
  rw [unfolded, head?_flatMap_eq_some_iff]
  constructor
  · rintro ⟨before, m, after, same, empty, found⟩
    have nonempty : solutionsFrom msgs n m ≠ [] := by
      intro none
      simp [none] at found
    obtain ⟨p, number, eligible⟩ : ∃ p, p.n = n ∧ Eligible msgs m p := by
      by_contra none
      exact nonempty (solutionsFrom_eq_nil_iff.mpr fun p number eligible =>
        none ⟨p, number, eligible⟩)
    rw [solutionsFrom_head msgs eligible.listed eligible.topmost number] at found
    obtain ⟨q, head, rfl⟩ := Option.map_eq_some_iff.mp found
    exact ⟨m, p, q, ⟨number, eligible, before, after, same, fun m' inside =>
      solutionsFrom_eq_nil_iff.mp (empty m' inside)⟩, head, rfl⟩
  · rintro ⟨m, p, q, ⟨number, eligible, before, after, same, none⟩, head, rfl⟩
    refine ⟨before, m, after, same, fun m' inside => solutionsFrom_eq_nil_iff.mpr (none m' inside), ?_⟩
    rw [solutionsFrom_head msgs eligible.listed eligible.topmost number, head]
    rfl

/-- Where something can be taken, something is taken first. -/
theorem exists_firstEligible {m : ViewChange} {p : PiEntry} (inside : m ∈ msgs)
    (eligible : Eligible msgs m p) : ∃ m' p', FirstEligible msgs p.n m' p' := by
  have unfolded : chiCase1 msgs p.n = msgs.flatMap (solutionsFrom msgs p.n) := rfl
  cases found : (chiCase1 msgs p.n).head? with
  | some e =>
    obtain ⟨m', p', q, first, -⟩ := chiCase1_head_iff.mp found
    exact ⟨m', p', first⟩
  | none =>
    have empty := List.head?_eq_none_iff.mp found
    rw [unfolded, List.flatMap_eq_nil_iff] at empty
    exact absurd eligible (solutionsFrom_eq_nil_iff.mp (empty m inside) p rfl)

/-- A certificate is re-proposed, or there is none that can be taken and the entry is null. -/
theorem chiEntry_cases (msgs : List ViewChange) (n : ℕ) :
    (∃ m p q, FirstEligible msgs n m p ∧ (companions msgs p).head? = some q ∧
      chiEntry msgs n = ⟨n, p.reqDigest, q.data⟩) ∨
    (chiEntry msgs n = ⟨n, nullDigest, none⟩ ∧ ¬ ∃ m p, FirstEligible msgs n m p) := by
  cases found : (chiCase1 msgs n).head? with
  | some e =>
    obtain ⟨m, p, q, first, head, rfl⟩ := chiCase1_head_iff.mp found
    exact Or.inl ⟨m, p, q, first, head, by simp [chiEntry, found]⟩
  | none =>
    refine Or.inr ⟨by simp [chiEntry, found], ?_⟩
    rintro ⟨m, p, first⟩
    obtain ⟨q, rest, same⟩ := List.exists_cons_of_ne_nil first.eligible.companion
    have present := chiCase1_head_iff.mpr ⟨m, p, q, first, by rw [same]; rfl, rfl⟩
    rw [found] at present
    cases present

/-- The first message that offers a certificate for `n` offers one of the highest view, and
with it a block of that view or later when Nu holds any. -/
def FirstOfferHighest (msgs : List ViewChange) (n : ℕ) : Prop :=
  ∃ m p q v, FirstEligible msgs n m p ∧ (companions msgs p).head? = some q ∧
    p.reqDigest ≠ nullDigest ∧ HighestCertificate msgs n p.reqDigest v ∧
    ((∃ data, PrePreparedBlock msgs n p.reqDigest v data) →
      PrePreparedBlock msgs n p.reqDigest v q.data)

@[simp] theorem chiEntry_n (msgs : List ViewChange) (n : ℕ) : (chiEntry msgs n).n = n := by
  rcases chiEntry_cases msgs n with ⟨m, p, q, -, -, same⟩ | ⟨same, -⟩ <;> rw [same]

/-- Entry by entry: the code meets the reference exactly where the first offer is highest. -/
theorem reproposedEntry_iff :
    ReproposedEntry msgs (chiEntry msgs n) ↔
      ((∃ p ∈ piEntries msgs, p.n = n) → FirstOfferHighest msgs n) := by
  constructor
  · intro meets listed
    have named : (chiEntry msgs n).reqDigest ≠ nullDigest := by
      intro null
      exact meets.null null (by simpa using listed)
    obtain ⟨v, highest, block⟩ := meets.certified (by simpa using listed)
    rcases chiEntry_cases msgs n with ⟨m, p, q, first, head, same⟩ | ⟨same, -⟩
    · rw [same] at named highest block
      exact ⟨m, p, q, v, first, head, named, highest, block⟩
    · rw [same] at named
      exact absurd rfl named
  · intro offer
    by_cases listed : ∃ p ∈ piEntries msgs, p.n = n
    · obtain ⟨m, p, q, v, first, head, named, highest, block⟩ := offer listed
      have same : chiEntry msgs n = ⟨n, p.reqDigest, q.data⟩ := by
        simp [chiEntry, chiCase1_head_iff.mpr ⟨m, p, q, first, head, rfl⟩]
      rw [same]
      exact ⟨fun _ => ⟨v, highest, block⟩, fun null => absurd null named⟩
    · exact ⟨fun some => absurd (by simpa using some) listed, fun _ => by simpa using listed⟩

theorem mem_between {low high : ℕ} : n ∈ between low high ↔ low ≤ n ∧ n ≤ high := by
  unfold between
  rw [List.mem_range'_1]
  omega

theorem maxPreparedN_spec (msgs : List ViewChange) (minS : ℕ) (above : minS < n) :
    n ≤ maxPreparedN msgs minS ↔ ∃ p ∈ piEntries msgs, n ≤ p.n := by
  have unfolded : maxPreparedN msgs minS = ((piEntries msgs).map PiEntry.n).max?.getD minS := rfl
  rw [unfolded]
  cases found : ((piEntries msgs).map PiEntry.n).max? with
  | none =>
    have empty : piEntries msgs = [] := List.map_eq_nil_iff.mp (List.max?_eq_none_iff.mp found)
    simp [empty]
    omega
  | some top =>
    obtain ⟨member, bound⟩ := List.max?_eq_some_iff.mp found
    obtain ⟨p, listed, rfl⟩ := List.mem_map.mp member
    constructor
    · exact fun below => ⟨p, listed, below⟩
    · rintro ⟨p', listed', below⟩
      exact below.trans (bound _ (List.mem_map_of_mem listed'))

theorem correctChi_some {nu : List NuEntry} (large : quorum cfg ≤ (nuVset nu s).length) :
    ∃ minS, (nuVset nu s).map ViewChange.hi ≠ [] ∧
      ((nuVset nu s).map ViewChange.hi).min? = some minS ∧
      correctChi cfg nu s = some ((between (minS + 1) (maxPreparedN (nuVset nu s) minS)).map
        (chiEntry (nuVset nu s))) := by
  have positive : 0 < quorum cfg := by unfold quorum; omega
  have nonempty : (nuVset nu s).map ViewChange.hi ≠ [] := by
    intro empty
    rw [List.map_eq_nil_iff.mp empty] at large
    simp at large
    omega
  obtain ⟨minS, least⟩ := Option.ne_none_iff_exists'.mp (mt List.min?_eq_none_iff.mp nonempty)
  exact ⟨minS, nonempty, least, by simp [correctChi, large, least]⟩

theorem correctChi_range {nu : List NuEntry} {chi : List ChiEntry}
    (h : correctChi cfg nu s = some chi) :
    (chi.map ChiEntry.n).Nodup ∧
    (∀ n, n ∈ chi.map ChiEntry.n ↔
      (∃ m ∈ nuVset nu s, m.hi < n) ∧ ∃ p ∈ piEntries (nuVset nu s), n ≤ p.n) ∧
    ∀ e ∈ chi, e = chiEntry (nuVset nu s) e.n := by
  have large : quorum cfg ≤ (nuVset nu s).length := by
    by_contra small
    simp [correctChi, small] at h
  obtain ⟨minS, -, least, same⟩ := correctChi_some large
  rw [h] at same
  cases same
  obtain ⟨member, bound⟩ := List.min?_eq_some_iff.mp least
  have numbers : ((between (minS + 1) (maxPreparedN (nuVset nu s) minS)).map
      (chiEntry (nuVset nu s))).map ChiEntry.n =
      between (minS + 1) (maxPreparedN (nuVset nu s) minS) := by
    simp [Function.comp_def]
  have above : ∀ n, minS < n ↔ ∃ m ∈ nuVset nu s, m.hi < n := by
    intro n
    constructor
    · intro lower
      obtain ⟨m, inside, rfl⟩ := List.mem_map.mp member
      exact ⟨m, inside, lower⟩
    · rintro ⟨m, inside, lower⟩
      exact (bound _ (List.mem_map_of_mem inside)).trans_lt lower
  refine ⟨?_, fun n => ?_, ?_⟩
  · rw [numbers]
    exact List.nodup_range'
  · rw [numbers, mem_between, ← above]
    constructor
    · rintro ⟨lower, upper⟩
      exact ⟨lower, (maxPreparedN_spec _ _ lower).mp upper⟩
    · rintro ⟨lower, upper⟩
      exact ⟨lower, (maxPreparedN_spec _ _ lower).mpr upper⟩
  · intro e inside
    obtain ⟨n, -, rfl⟩ := List.mem_map.mp inside
    rw [chiEntry_n]

/-- Lists of at most one element have only one order. -/
private theorem eq_of_perm_of_length_le_one {l l' : List α} (perm : l.Perm l')
    (short : l.length ≤ 1) : l = l' := by
  match l, short with
  | [], _ => exact (List.nil_perm.mp perm).symm
  | [a], _ => exact List.singleton_perm.mp perm

theorem filter_digest_length (distinct : (msgs.map ViewChange.vcDigest).Nodup) (d : String) :
    (msgs.filter fun m => m.vcDigest = d).length ≤ 1 := by
  have nodup : ((msgs.filter fun m => m.vcDigest = d).map ViewChange.vcDigest).Nodup :=
    distinct.sublist (List.filter_sublist.map _)
  have constant : (msgs.filter fun m => m.vcDigest = d).map ViewChange.vcDigest =
      List.replicate (msgs.filter fun m => m.vcDigest = d).length d := by
    refine List.eq_replicate_iff.mpr ⟨by simp, fun d' member => ?_⟩
    obtain ⟨m, inside, rfl⟩ := List.mem_map.mp member
    simpa using (List.mem_filter.mp inside).2
  rw [constant] at nodup
  exact List.nodup_replicate.mp nodup

/-- When each digest names one message, Nu alone fixes the order of the messages. -/
theorem nuVset_perm {s' : Replica} (distinct : (s.msgLogViewChange.map ViewChange.vcDigest).Nodup)
    (reordered : s.msgLogViewChange.Perm s'.msgLogViewChange) (nu : List NuEntry) :
    nuVset nu s = nuVset nu s' := by
  unfold nuVset
  congr 1
  funext e
  exact eq_of_perm_of_length_le_one (reordered.filter _) (filter_digest_length distinct e.d)

theorem correctChi_perm {s' : Replica}
    (distinct : (s.msgLogViewChange.map ViewChange.vcDigest).Nodup)
    (reordered : s.msgLogViewChange.Perm s'.msgLogViewChange) (nu : List NuEntry) :
    correctChi cfg nu s = correctChi cfg nu s' := by
  unfold correctChi
  rw [nuVset_perm distinct reordered]

/-- `correct_chi` re-proposes the certificates of the highest views, whatever the order of
arrival, exactly when for each number the first message that offers one offers such. -/
theorem correctChi_reproposes_iff {nu : List NuEntry}
    (distinct : (s.msgLogViewChange.map ViewChange.vcDigest).Nodup)
    (large : quorum cfg ≤ (nuVset nu s).length) :
    (∃ chi, correctChi cfg nu s = some chi ∧ Reproposes (nuVset nu s) chi ∧
      ∀ s' : Replica, s.msgLogViewChange.Perm s'.msgLogViewChange →
        correctChi cfg nu s' = some chi) ↔
    ∀ n, (∃ m ∈ nuVset nu s, m.hi < n) → (∃ p ∈ piEntries (nuVset nu s), p.n = n) →
      FirstOfferHighest (nuVset nu s) n := by
  constructor
  · rintro ⟨chi, computed, meets, -⟩ n above ⟨p, listed, rfl⟩
    obtain ⟨e, inside, number⟩ : ∃ e ∈ chi, e.n = p.n :=
      List.mem_map.mp ((meets.range p.n).mpr ⟨above, p, listed, le_refl _⟩)
    have entry := meets.entries e inside
    rw [(correctChi_range computed).2.2 e inside, number] at entry
    exact reproposedEntry_iff.mp entry ⟨p, listed, rfl⟩
  · intro highest
    obtain ⟨minS, -, -, computed⟩ := correctChi_some large
    obtain ⟨once, range, entry⟩ := correctChi_range computed
    refine ⟨_, computed, ⟨once, range, fun e inside => ?_⟩, fun s' reordered => ?_⟩
    · rw [entry e inside]
      refine reproposedEntry_iff.mpr fun listed => highest e.n ?_ listed
      exact ((range e.n).mp (List.mem_map_of_mem inside)).1
    · rw [← correctChi_perm distinct reordered, computed]

/-- Replica 2 collects VIEW_CHANGEs for view 2. Replica 0 prepared one request in view 0,
replica 1 another one in view 1. -/
def splitCertificates : List (ℚ × Action) :=
  [(100, .receiveRequest "(H=1, T=60)" 60), (100, .sendViewChange 1), (200, .sendViewChange 2),
    (200, .receiveViewChange 2 0 "H0" [⟨1, "(H=1, T=60)", 0⟩]
      [⟨1, "(H=1, T=60)", some "B60", 0⟩] 0 "S0"),
    (200, .receiveViewChange 2 0 "H0" [⟨1, "(H=2, T=120)", 1⟩]
      [⟨1, "(H=2, T=120)", some "B120", 1⟩] 1 "S1")]

def splitNu : List NuEntry := [⟨0, "2/0"⟩, ⟨1, "2/1"⟩, ⟨2, "2/2"⟩]

/-- The certificate of view 0 stands in the first list and wins over that of view 1. -/
theorem splitCertificates_chi : ∃ s, exec fourReplicas 2 Always splitCertificates genesis = some s ∧
    correctNuOnce fourReplicas 2 s = some splitNu ∧
    (s.msgLogViewChange.map ViewChange.vcDigest).Nodup ∧
    quorum fourReplicas ≤ (nuVset splitNu s).length ∧
    (∀ m ∈ nuVset splitNu s, correctViewChange m.v m.hi m.pi m.qi) ∧
    piEntries (nuVset splitNu s) = [⟨1, "(H=1, T=60)", 0⟩, ⟨1, "(H=2, T=120)", 1⟩] ∧
    correctChi fourReplicas splitNu s = some [⟨1, "(H=1, T=60)", some "B60"⟩] := by
  decide +kernel

theorem correctChi_not_reproposes :
    ∃ s nu, Reachable (Initial fourReplicas) (Step fourReplicas 2) s ∧
      correctNuOnce fourReplicas 2 s = some nu ∧
      (s.msgLogViewChange.map ViewChange.vcDigest).Nodup ∧
      quorum fourReplicas ≤ (nuVset nu s).length ∧
      (∀ m ∈ nuVset nu s, correctViewChange m.v m.hi m.pi m.qi) ∧
      ¬ ∃ chi, correctChi fourReplicas nu s = some chi ∧ Reproposes (nuVset nu s) chi := by
  obtain ⟨s, ran, collected, distinct, large, correct, entries, computed⟩ := splitCertificates_chi
  refine ⟨s, splitNu, exec_reachable genesis_initial ran, collected, distinct, large, correct, ?_⟩
  rintro ⟨chi, same, meets⟩
  rw [computed] at same
  cases same
  obtain ⟨v, ⟨listed, highest⟩, -⟩ :=
    (meets.entries _ (List.mem_singleton_self _)).certified (by simp [entries])
  have later : 1 ≤ v := highest ⟨1, "(H=2, T=120)", 1⟩ (by simp [entries]) rfl
  have view : v = 0 := by simpa [entries] using listed
  omega

/-- The equivalence at the reachable log above. -/
theorem correctChi_reproposes_iff_split :
    ∃ s, exec fourReplicas 2 Always splitCertificates genesis = some s ∧
      ((∃ chi, correctChi fourReplicas splitNu s = some chi ∧
        Reproposes (nuVset splitNu s) chi ∧
        ∀ s' : Replica, s.msgLogViewChange.Perm s'.msgLogViewChange →
          correctChi fourReplicas splitNu s' = some chi) ↔
      ∀ n, (∃ m ∈ nuVset splitNu s, m.hi < n) →
        (∃ p ∈ piEntries (nuVset splitNu s), p.n = n) →
          FirstOfferHighest (nuVset splitNu s) n) := by
  obtain ⟨s, ran, -, distinct, large, -⟩ := splitCertificates_chi
  exact ⟨s, ran, correctChi_reproposes_iff distinct large⟩

end Fbft
