import Mathlib.Logic.Basic

/-! Finite labelled runs of a step relation, and the two rules every later result
about runs goes through: an invariant is proved once per step, and a run whose
steps all meet a side condition is a run of the restricted relation. -/
namespace LabelledPath

variable {S L : Type*}

inductive Path (step : S → L → S → Prop) : S → List L → S → Prop where
  | nil : Path step s [] s
  | cons : step s l t → Path step t labels u → Path step s (l :: labels) u

variable {step step' : S → L → S → Prop}

theorem Path.single (first : step s l t) : Path step s [l] t := .cons first .nil

theorem Path.append (first : Path step s xs t) (second : Path step t ys u) :
    Path step s (xs ++ ys) u := by
  induction first with
  | nil => exact second
  | cons head _ ih => exact .cons head (ih second)

theorem Path.snoc (run : Path step s labels t) (last : step t l u) :
    Path step s (labels ++ [l]) u :=
  run.append (.single last)

/-- Induction on the last step, for properties that speak about the whole run. -/
theorem Path.snoc_induction {motive : List L → S → Prop} (run : Path step s labels t)
    (nil : motive [] s)
    (snoc : ∀ labels t l u, Path step s labels t → motive labels t → step t l u →
      motive (labels ++ [l]) u) : motive labels t := by
  have general : ∀ (before : List L) (m : S), Path step s before m → motive before m →
      ∀ {after : List L} {e : S}, Path step m after e → motive (before ++ after) e := by
    intro before m reached holds after e rest
    induction rest generalizing before with
    | nil => simpa using holds
    | cons head _ ih =>
      have next := ih (before ++ [_]) (reached.snoc head) (snoc _ _ _ _ reached holds head)
      simpa using next
  exact general [] s .nil nil run

theorem Path.split (run : Path step s (xs ++ ys) u) :
    ∃ t, Path step s xs t ∧ Path step t ys u := by
  induction xs generalizing s with
  | nil => exact ⟨s, .nil, run⟩
  | cons l xs ih =>
    cases run with
    | cons head rest =>
      obtain ⟨t, before, after⟩ := ih rest
      exact ⟨t, .cons head before, after⟩

/-- Where a label leads to one state only, so does a list of labels. -/
theorem Path.unique (functional : ∀ s l t u, step s l t → step s l u → t = u)
    (run : Path step s labels t) (other : Path step s labels u) : t = u := by
  induction run with
  | nil =>
    cases other
    rfl
  | cons head _ ih =>
    cases other with
    | cons head' rest =>
      cases functional _ _ _ _ head head'
      exact ih rest

theorem Path.mono (weaker : ∀ s l t, step s l t → step' s l t)
    (run : Path step s labels t) : Path step' s labels t := by
  induction run with
  | nil => exact .nil
  | cons head _ ih => exact .cons (weaker _ _ _ head) ih

/-- What one step preserves, a run preserves. -/
theorem Path.invariant {inv : S → Prop}
    (preserved : ∀ s l t, inv s → step s l t → inv t)
    (run : Path step s labels t) (start : inv s) : inv t := by
  induction run with
  | nil => exact start
  | cons head _ ih => exact ih (preserved _ _ _ start head)

theorem Path.related {rel : S → S → Prop} (refl : ∀ s, rel s s)
    (trans : ∀ s t u, rel s t → rel t u → rel s u)
    (respects : ∀ s l t, step s l t → rel s t)
    (run : Path step s labels t) : rel s t := by
  induction run with
  | nil => exact refl _
  | cons head _ ih => exact trans _ _ _ (respects _ _ _ head) ih

/-- A refinement mapping: each step looks like the abstract step that its label shows, or
like none at all. -/
theorem Path.refines {A M : Type*} {inv : S → Prop} {map : S → A} {abstract : A → M → A → Prop}
    {shows : L → Option M} (keeps : ∀ s l t, inv s → step s l t → inv t)
    (matched : ∀ s l t, inv s → step s l t →
      map t = map s ∨ ∃ m ∈ shows l, abstract (map s) m (map t))
    (run : Path step s labels t) (start : inv s) :
    ∃ shown, shown.Sublist (labels.filterMap shows) ∧ Path abstract (map s) shown (map t) := by
  induction run with
  | nil => exact ⟨[], List.Sublist.refl _, .nil⟩
  | cons head _ ih =>
    obtain ⟨shown, sublist, rest⟩ := ih (keeps _ _ _ start head)
    rcases matched _ _ _ start head with same | ⟨m, visible, moves⟩
    · refine ⟨shown, sublist.trans ?_, same ▸ rest⟩
      exact (List.sublist_cons_self _ _).filterMap shows
    · refine ⟨m :: shown, ?_, .cons moves rest⟩
      rw [List.filterMap_cons_some visible]
      exact sublist.cons_cons m

/-- A simulation: each step is matched by a run of the other relation from every related state. -/
theorem Path.simulates {A M : Type*} {rel : S → A → Prop} {abstract : A → M → A → Prop}
    (matched : ∀ s l t a, rel s a → step s l t → ∃ shown b, Path abstract a shown b ∧ rel t b)
    (run : Path step s labels t) {a : A} (related : rel s a) :
    ∃ shown b, Path abstract a shown b ∧ rel t b := by
  induction run generalizing a with
  | nil => exact ⟨[], a, .nil, related⟩
  | cons head _ ih =>
    obtain ⟨first, b, moves, related'⟩ := matched _ _ _ a related head
    obtain ⟨rest, b', moves', related''⟩ := ih related'
    exact ⟨first ++ rest, b', moves.append moves', related''⟩

def follow (next : S → L → Option S) : List L → S → Option S
  | [], s => some s
  | l :: labels, s => (next s l).bind (follow next labels)

theorem follow_path {next : S → L → Option S} (sound : ∀ s l t, next s l = some t → step s l t)
    {labels : List L} (ran : follow next labels s = some t) : Path step s labels t := by
  induction labels generalizing s with
  | nil =>
    cases ran
    exact .nil
  | cons l labels ih =>
    obtain ⟨u, first, rest⟩ := Option.bind_eq_some_iff.mp ran
    exact .cons (sound _ _ _ first) (ih rest)

def Guarded (step : S → L → S → Prop) (cond : S → L → Prop) (s : S) (l : L) (t : S) : Prop :=
  step s l t ∧ cond s l

theorem Path.unguard {cond : S → L → Prop} (run : Path (Guarded step cond) s labels t) :
    Path step s labels t :=
  run.mono fun _ _ _ h => h.1

theorem Path.labels_meet {p : L → Prop} (meets : ∀ s l t, step s l t → p l)
    (run : Path step s labels t) : ∀ l ∈ labels, p l := by
  induction run with
  | nil => simp
  | cons head _ ih =>
    intro l inside
    rcases List.mem_cons.mp inside with rfl | later
    · exact meets _ _ _ head
    · exact ih l later

/-- A run of the restricted relation is one whose steps all meet the condition. -/
theorem Path.guarded_iff {cond : S → L → Prop}
    (functional : ∀ s l t u, step s l t → step s l u → t = u) (run : Path step s labels t) :
    Path (Guarded step cond) s labels t ↔
      ∀ before l after m, labels = before ++ l :: after → Path step s before m → cond m l := by
  constructor
  · rintro guarded before l after m rfl reached
    obtain ⟨u, first, rest⟩ := guarded.split
    have same : m = u := reached.unique functional first.unguard
    subst same
    cases rest with
    | cons head _ => exact head.2
  · intro meets
    induction run with
    | nil => exact .nil
    | @cons s l m labels t head rest ih =>
      refine .cons ⟨head, meets [] l labels s rfl .nil⟩ (ih ?_)
      intro before l' after u same reached
      exact meets (l :: before) l' after u (by rw [same]; rfl) (.cons head reached)

/-- When a step keeps `inv` under `cond` and reaches a bad state without it, the states
of a run are all good exactly when its steps all meet `cond`. -/
theorem Path.forall_good_iff {inv good : S → Prop} {cond : S → L → Prop}
    (functional : ∀ s l t u, step s l t → step s l u → t = u)
    (good_of_inv : ∀ s, inv s → good s)
    (keeps : ∀ s l t, inv s → step s l t → cond s l → inv t)
    (breaks : ∀ s l t, inv s → step s l t → ¬ cond s l → ¬ good t)
    (run : Path step s labels t) (start : inv s) :
    (∀ before after m, labels = before ++ after → Path step s before m → good m) ↔
      Path (Guarded step cond) s labels t := by
  constructor
  · intro all
    induction run with
    | nil => exact .nil
    | @cons s l m labels t head rest ih =>
      have good : good m := all [l] labels m rfl (.single head)
      have meets : cond s l :=
        Classical.not_not.mp fun broken => breaks s l m start head broken good
      have next : inv m := keeps s l m start head meets
      refine .cons ⟨head, meets⟩ (ih next ?_)
      intro before after u same reached
      exact all (l :: before) after u (by rw [same]; rfl) (.cons head reached)
  · rintro guarded before after m rfl reached
    obtain ⟨u, first, -⟩ := guarded.split
    have same : m = u := reached.unique functional first.unguard
    subst same
    apply good_of_inv
    refine first.invariant ?_ start
    rintro s l t holds ⟨head, meets⟩
    exact keeps s l t holds head meets

/-- Where every step has less work left than the one before, the work bounds the length. -/
theorem Path.length_add_le {inv : S → Prop} {work : S → Nat}
    (keeps : ∀ s l t, inv s → step s l t → inv t)
    (decreases : ∀ s l t, inv s → step s l t → work t < work s)
    (run : Path step s labels t) (start : inv s) : labels.length + work t ≤ work s := by
  induction run with
  | nil => simp
  | cons head _ ih =>
    have less := decreases _ _ _ start head
    have rest := ih (keeps _ _ _ start head)
    rw [List.length_cons]
    omega

def Reachable (init : S → Prop) (step : S → L → S → Prop) (t : S) : Prop :=
  ∃ s labels, init s ∧ Path step s labels t

theorem Reachable.invariant {init : S → Prop} {inv : S → Prop}
    (start : ∀ s, init s → inv s)
    (preserved : ∀ s l t, inv s → step s l t → inv t)
    (reachable : Reachable init step t) : inv t := by
  obtain ⟨s, labels, initial, run⟩ := reachable
  exact run.invariant preserved (start s initial)

theorem Reachable.of_init {init : S → Prop} (initial : init s) : Reachable init step s :=
  ⟨s, [], initial, .nil⟩

theorem Reachable.unguard {init : S → Prop} {cond : S → L → Prop}
    (reachable : Reachable init (Guarded step cond) t) : Reachable init step t := by
  obtain ⟨s, labels, initial, run⟩ := reachable
  exact ⟨s, labels, initial, run.unguard⟩

theorem Reachable.extend {init : S → Prop} (reachable : Reachable init step s)
    (run : Path step s labels t) : Reachable init step t := by
  obtain ⟨start, before, initial, reached⟩ := reachable
  exact ⟨start, before ++ labels, initial, reached.append run⟩

end LabelledPath
