import Mathlib.Data.Finset.Basic
import Mathlib.Order.Nat

/-! Agreement across views, for any protocol that numbers its decisions and moves from view
to view on the reports of a quorum. What a quorum committed in one view is all that can be
accepted for the same number later, when reports cover commits and a new view takes up the
reported certificate of the highest view. -/
namespace CrossView

variable {α D : Type*}

structure Entry (D : Type*) where
  number : ℕ
  value : D
  view : ℕ

/-- What a participant reports on entering a view: the number up to which all is settled for
it, and its certificates. -/
structure Report (D : Type*) where
  low : ℕ
  entries : List (Entry D)

structure History (α D : Type*) where
  quorum : Finset α → Prop
  correct : α → Prop
  commits : α → ℕ → ℕ → Prop
  reports : α → ℕ → Report D → Prop
  certified : ℕ → ℕ → D → Prop
  accepted : ℕ → ℕ → D → Prop

namespace History

/-- The correct members of some quorum have committed number `n` in view `v`. -/
def QuorumCommits (h : History α D) (v n : ℕ) : Prop :=
  ∃ A, h.quorum A ∧ ∀ k ∈ A, h.correct k → h.commits k v n

/-- A quorum has moved on: it committed a smaller number in a later view. -/
def Overtaken (h : History α D) (v n : ℕ) : Prop :=
  ∃ v' n', v < v' ∧ n' < n ∧ h.QuorumCommits v' n'

/-- The report leaves no doubt about a commit of number `n` in view `v`. -/
def Covers (h : History α D) (r : Report D) (v n : ℕ) : Prop :=
  n ≤ r.low ∨ (∃ e ∈ r.entries, e.number = n ∧ v ≤ e.view) ∨ h.Overtaken v n

/-- The reports of a quorum for view `v` that let the value be accepted for number `n`: none
has settled the number, what they list for it is certified in earlier views, and the value
is the one with the highest view, if any is listed. -/
structure Supports (h : History α D) (reports : List (α × Report D)) (v n : ℕ) (d : D) :
    Prop where
  quorum : ∃ A, h.quorum A ∧ ∀ k ∈ A, ∃ x ∈ reports, x.1 = k
  reported : ∀ x ∈ reports, h.correct x.1 → h.reports x.1 v x.2
  unsettled : ∀ x ∈ reports, x.2.low < n
  certified : ∀ x ∈ reports, ∀ e ∈ x.2.entries, e.number = n →
    e.view < v ∧ h.certified e.view n e.value
  highest : ∀ x ∈ reports, ∀ e ∈ x.2.entries, e.number = n →
    ∃ x' ∈ reports, ∃ e' ∈ x'.2.entries, e'.number = n ∧ e'.value = d ∧ e.view ≤ e'.view

/-- The value may be accepted: the view was entered on a quorum that committed below `n` in
it, or on the reports of a quorum. -/
def Justified (h : History α D) (v n : ℕ) (d : D) : Prop :=
  (∃ n' < n, h.QuorumCommits v n') ∨ ∃ reports, h.Supports reports v n d

/-- A participant has entered view `v` on these reports. What it has settled reaches the
settled numbers of each of them, and above that it has taken up the certificate of the
highest view. -/
structure Entered (h : History α D) (takenUp : ℕ → D → Prop) (reports : List (α × Report D))
    (v low : ℕ) : Prop where
  quorum : ∃ A, h.quorum A ∧ ∀ k ∈ A, ∃ x ∈ reports, x.1 = k
  reported : ∀ x ∈ reports, h.correct x.1 → h.reports x.1 v x.2
  settled : ∀ x ∈ reports, x.2.low ≤ low
  certified : ∀ x ∈ reports, ∀ e ∈ x.2.entries, low < e.number →
    e.view < v ∧ h.certified e.view e.number e.value
  highest : ∀ x ∈ reports, ∀ e ∈ x.2.entries, low < e.number →
    ∃ x' ∈ reports, ∃ e' ∈ x'.2.entries, e'.number = e.number ∧ takenUp e'.number e'.value ∧
      e.view ≤ e'.view

/-- The laws of a protocol that changes views soundly. -/
structure Lawful (h : History α D) : Prop where
  inter : ∀ A B, h.quorum A → h.quorum B → ∃ k, h.correct k ∧ k ∈ A ∧ k ∈ B
  accepted : ∀ v n d, h.certified v n d → h.accepted v n d
  ordered : ∀ k v n v' n', h.correct k → h.commits k v n → h.commits k v' n' → v < v' → n ≤ n'
  covered : ∀ k v n v' r, h.correct k → h.commits k v n → h.reports k v' r → v < v' →
    h.Covers r v n
  justified : ∀ v n d, h.accepted v n d → 0 < v → h.Justified v n d

variable {h h' : History α D} {takenUp takenUp' : ℕ → D → Prop}
  {reports : List (α × Report D)} {r : Report D} {v v' n low low' : ℕ} {d d' : D}

/-- More is on record of the same participants. -/
structure Extends (h h' : History α D) : Prop where
  quorum : ∀ A, h.quorum A → h'.quorum A
  correct : ∀ k, h'.correct k → h.correct k
  commits : ∀ k v n, h.commits k v n → h'.commits k v n
  reports : ∀ k v r, h.reports k v r → h'.reports k v r
  certified : ∀ v n d, h.certified v n d → h'.certified v n d

theorem QuorumCommits.mono (extends' : h.Extends h') (committed : h.QuorumCommits v n) :
    h'.QuorumCommits v n := by
  obtain ⟨A, quorum, commits⟩ := committed
  exact ⟨A, extends'.quorum A quorum, fun k inside correct =>
    extends'.commits k v n (commits k inside (extends'.correct k correct))⟩

theorem Overtaken.mono (extends' : h.Extends h') (overtaken : h.Overtaken v n) :
    h'.Overtaken v n := by
  obtain ⟨v', n', later, below, committed⟩ := overtaken
  exact ⟨v', n', later, below, committed.mono extends'⟩

theorem Covers.mono (extends' : h.Extends h') (covers : h.Covers r v n) : h'.Covers r v n :=
  covers.imp_right (Or.imp_right (Overtaken.mono extends'))

theorem Entered.mono (extends' : h.Extends h') (entered : h.Entered takenUp reports v low)
    (grown : low ≤ low') (still : ∀ n d, takenUp n d → takenUp' n d) :
    h'.Entered takenUp' reports v low' where
  quorum := by
    obtain ⟨A, quorum, senders⟩ := entered.quorum
    exact ⟨A, extends'.quorum A quorum, senders⟩
  reported := fun x inside correct =>
    extends'.reports x.1 v x.2 (entered.reported x inside (extends'.correct x.1 correct))
  settled := fun x inside => (entered.settled x inside).trans grown
  certified := by
    intro x inside e listed above
    obtain ⟨earlier, certified⟩ := entered.certified x inside e listed (by omega)
    exact ⟨earlier, extends'.certified _ _ _ certified⟩
  highest := by
    intro x inside e listed above
    obtain ⟨x', inside', e', listed', number, taken, higher⟩ :=
      entered.highest x inside e listed (by omega)
    exact ⟨x', inside', e', listed', number, still _ _ taken, higher⟩

theorem Supports.mono (extends' : h.Extends h') (supports : h.Supports reports v n d) :
    h'.Supports reports v n d where
  quorum := by
    obtain ⟨A, quorum, senders⟩ := supports.quorum
    exact ⟨A, extends'.quorum A quorum, senders⟩
  reported := fun x inside correct =>
    extends'.reports x.1 v x.2 (supports.reported x inside (extends'.correct x.1 correct))
  unsettled := supports.unsettled
  certified := by
    intro x inside e listed number
    obtain ⟨earlier, certified⟩ := supports.certified x inside e listed number
    exact ⟨earlier, extends'.certified _ _ _ certified⟩
  highest := supports.highest

theorem Justified.mono (extends' : h.Extends h') (justified : h.Justified v n d) :
    h'.Justified v n d := by
  rcases justified with ⟨n', below, committed⟩ | ⟨reports, supports⟩
  · exact Or.inl ⟨n', below, committed.mono extends'⟩
  · exact Or.inr ⟨reports, supports.mono extends'⟩

/-- What is accepted above the settled numbers, when it is all that was taken up, is
supported by the reports. -/
theorem Entered.supports (entered : h.Entered takenUp reports v low) (above : low < n)
    (only : ∀ d', takenUp n d' → d' = d) : h.Supports reports v n d where
  quorum := entered.quorum
  reported := entered.reported
  unsettled := fun x inside => (entered.settled x inside).trans_lt above
  certified := by
    rintro x inside e listed rfl
    exact entered.certified x inside e listed above
  highest := by
    rintro x inside e listed rfl
    obtain ⟨x', inside', e', listed', number, taken, higher⟩ :=
      entered.highest x inside e listed above
    exact ⟨x', inside', e', listed', number, only _ (number ▸ taken), higher⟩

theorem Lawful.not_overtaken (lawful : h.Lawful) (committed : h.QuorumCommits v n) :
    ¬ h.Overtaken v n := by
  rintro ⟨v', n', later, below, committed'⟩
  obtain ⟨A, quorum, commits⟩ := committed
  obtain ⟨B, quorum', commits'⟩ := committed'
  obtain ⟨k, correct, inA, inB⟩ := lawful.inter A B quorum quorum'
  have ordered := lawful.ordered k v n v' n' correct (commits k inA correct)
    (commits' k inB correct) later
  omega

/-- Among the reports that support a value in a later view, one lists a certificate of the
committed view or a later one. -/
theorem Lawful.exists_entry (lawful : h.Lawful) (committed : h.QuorumCommits v n) (later : v < v')
    (supports : h.Supports reports v' n d) :
    ∃ x ∈ reports, ∃ e ∈ x.2.entries, e.number = n ∧ v ≤ e.view := by
  obtain ⟨A, quorum, commits⟩ := committed
  obtain ⟨B, quorum', senders⟩ := supports.quorum
  obtain ⟨k, correct, inA, inB⟩ := lawful.inter A B quorum quorum'
  obtain ⟨x, inside, rfl⟩ := senders k inB
  rcases lawful.covered x.1 v n v' x.2 correct (commits x.1 inA correct)
    (supports.reported x inside correct) later with settled | ⟨e, listed, found⟩ | overtaken
  · have unsettled := supports.unsettled x inside
    omega
  · exact ⟨x, inside, e, listed, found⟩
  · exact absurd overtaken (lawful.not_overtaken ⟨A, quorum, commits⟩)

/-- Induction on the later view: the certificate taken up is of the committed view, where it
is unique, or of a view in between. -/
theorem Lawful.agreement (lawful : h.Lawful) (committed : h.QuorumCommits v n)
    (unique : ∀ d', h.certified v n d' → d' = d) (later : v < v')
    (accepted : h.accepted v' n d') : d' = d := by
  induction v' using Nat.strong_induction_on generalizing d' with
  | _ v' ih =>
    rcases lawful.justified v' n d' accepted (by omega) with ⟨n', below, committed'⟩ |
      ⟨reports, supports⟩
    · exact absurd ⟨v', n', later, below, committed'⟩ (lawful.not_overtaken committed)
    · obtain ⟨x, inside, e, listed, number, bound⟩ :=
        lawful.exists_entry committed later supports
      obtain ⟨x', inside', e', listed', number', value, higher⟩ :=
        supports.highest x inside e listed number
      obtain ⟨earlier, certified⟩ := supports.certified x' inside' e' listed' number'
      rw [value] at certified
      by_cases same : e'.view = v
      · rw [same] at certified
        exact unique d' certified
      · exact ih e'.view earlier (by omega) (lawful.accepted _ _ _ certified)

end History

end CrossView
