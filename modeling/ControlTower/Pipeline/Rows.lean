import ControlTower.Pipeline.State

/-! What committed rows do to the days.

`ObserveCommittedRows` is three loops. This file says what they amount to: the
frontier moves to the latest observed date, a day that was not there appears, a
changed day moves one revision on and loses what was computed for it, and every
day's collected mark is read off the frontier again. Nothing else of the state
moves. -/
namespace ControlTower.Pipeline
open Go List Finmap State

variable (s : State) (observed : List String)

variable (changed : AList fun _ : String => Bool)

/-- The state the loops leave. -/
def State.rowsObserved :
    State :=
  (changed.entries.foldl changeDate (observed.foldl observeDate s)).recollect

theorem observeCommittedRows_eq :
    s.observeCommittedRows observed changed =
      if s.acceptsRows observed changed then (s.rowsObserved observed changed, none)
      else (s, some .conflict) := by
  unfold observeCommittedRows rowsObserved
  cases s.acceptsRows observed changed <;> rfl

/-! ### The observed dates -/

/-- A day after the first loop. -/
def State.observedDay (date : String) : Option Day :=
  match s.days.lookup date with
  | some d => some d
  | none => if date ∈ observed then some {revision := 1} else none

theorem observeDate_lookup (x date : String) :
    (s.observeDate x).days.lookup date = s.observedDay [x] date := by
  unfold observeDate observedDay
  by_cases hx : x ∈ s.days
  · rw [if_pos hx]
    cases hd : s.days.lookup date with
    | some d => rfl
    | none =>
      have hne : date ≠ x := by
        rintro rfl
        exact lookup_eq_none.mp hd hx
      simp [hne]
  · rw [if_neg hx]
    by_cases hdx : date = x
    · subst hdx
      simp [lookup_eq_none.mpr hx]
    · rw [lookup_insert_of_ne _ hdx]
      cases s.days.lookup date <;> simp [hdx]

theorem foldl_observeDate_lookup (date : String) :
    (observed.foldl observeDate s).days.lookup date = s.observedDay observed date := by
  induction observed generalizing s with
  | nil =>
    rw [foldl_nil]
    unfold observedDay
    cases hd : s.days.lookup date <;> simp
  | cons x rest ih =>
    rw [foldl_cons, ih]
    unfold observedDay
    rw [observeDate_lookup]
    unfold observedDay
    cases s.days.lookup date with
    | some d => rfl
    | none =>
      by_cases hx : date = x
      · simp [hx]
      · simp [hx]

theorem foldl_observeDate_frame :
    ∃ f m, observed.foldl observeDate s = {s with frontier := f, days := m} := by
  induction observed generalizing s with
  | nil => exact ⟨s.frontier, s.days, rfl⟩
  | cons x rest ih =>
    obtain ⟨f, m, h⟩ := ih (s.observeDate x)
    exact ⟨f, m, h⟩

/-- The frontier is the old one or an observed date, and never moves back. -/
theorem foldl_observeDate_frontier :
    s.frontier ≤ (observed.foldl observeDate s).frontier ∧
      ((observed.foldl observeDate s).frontier = s.frontier ∨
        (observed.foldl observeDate s).frontier ∈ observed) := by
  induction observed generalizing s with
  | nil => exact ⟨le_rfl, .inl rfl⟩
  | cons x rest ih =>
    obtain ⟨hle, hor⟩ := ih (s.observeDate x)
    have hf : (s.observeDate x).frontier = if s.frontier < x then x else s.frontier := rfl
    rw [foldl_cons]
    rw [hf] at hle hor
    by_cases hx : s.frontier < x
    · rw [if_pos hx] at hle hor
      exact ⟨hx.le.trans hle, .inr (by rcases hor with h | h <;> simp [h])⟩
    · rw [if_neg hx] at hle hor
      exact ⟨hle, hor.imp id (mem_cons_of_mem x)⟩

/-! ### The changed dates -/

theorem changeDate_lookup (x date : String) (b : Bool) :
    (s.changeDate ⟨x, b⟩).days.lookup date =
      if b = true ∧ x = date then some ((s.days.lookup date).getD {}).change
      else s.days.lookup date := by
  unfold changeDate
  cases b with
  | false => simp
  | true =>
    by_cases hx : x = date
    · subst hx
      simp
    · simp [hx, lookup_insert_of_ne _ (Ne.symm hx)]

theorem foldl_changeDate_lookup (changes : List (Σ _ : String, Bool)) (hn : changes.NodupKeys)
    (s : State) (date : String) :
    (changes.foldl changeDate s).days.lookup date =
      if ⟨date, true⟩ ∈ changes then some ((s.days.lookup date).getD {}).change
      else s.days.lookup date := by
  induction changes generalizing s with
  | nil => simp
  | cons c rest ih =>
    obtain ⟨x, b⟩ := c
    obtain ⟨hx, hrest⟩ := nodupKeys_cons.mp hn
    rw [foldl_cons, ih hrest, changeDate_lookup]
    -- The keys are distinct, so a date changed here is not met again.
    by_cases hxd : x = date
    · subst hxd
      have hnot : (⟨x, true⟩ : Σ _ : String, Bool) ∉ rest := fun hm =>
        hx (mem_keys.mpr ⟨true, hm⟩)
      cases b <;> simp [hnot]
    · have hne : (⟨date, true⟩ : Σ _ : String, Bool) ≠ ⟨x, b⟩ := fun he =>
        hxd (congrArg Sigma.fst he).symm
      simp [hxd, hne]

theorem foldl_changeDate_frame (changes : List (Σ _ : String, Bool)) :
    ∃ m, changes.foldl changeDate s = {s with days := m} := by
  induction changes generalizing s with
  | nil => exact ⟨s.days, rfl⟩
  | cons c rest ih =>
    obtain ⟨m, h⟩ := ih (s.changeDate c)
    rw [foldl_cons, h]
    refine ⟨m, ?_⟩
    unfold changeDate
    split <;> rfl

/-! ### All three loops -/

/-- The call marks the date as changed. -/
def Marks (date : String) : Prop :=
  ⟨date, true⟩ ∈ changed.entries

instance (changed : AList fun _ : String => Bool) (date : String) : Decidable (Marks changed date) :=
  inferInstanceAs (Decidable (_ ∈ _))

theorem rowsObserved_frame :
    ∃ f m, s.rowsObserved observed changed = {s with frontier := f, days := m} ∧
      s.frontier ≤ f ∧ (f = s.frontier ∨ f ∈ observed) := by
  obtain ⟨f, m, h₁⟩ := foldl_observeDate_frame s observed
  obtain ⟨m', h₂⟩ := foldl_changeDate_frame (observed.foldl observeDate s) changed.entries
  have hf := foldl_observeDate_frontier s observed
  unfold rowsObserved recollect
  rw [h₂, h₁]
  rw [h₁] at hf
  exact ⟨f, _, rfl, hf⟩

theorem rowsObserved_lookup (date : String) :
    (s.rowsObserved observed changed).days.lookup date =
      (if Marks changed date then some ((s.observedDay observed date).getD {}).change
        else s.observedDay observed date).map
        fun d => {d with collected := date < (s.rowsObserved observed changed).frontier} := by
  have hfront : (s.rowsObserved observed changed).frontier =
      (changed.entries.foldl changeDate (observed.foldl observeDate s)).frontier := rfl
  rw [hfront]
  unfold rowsObserved recollect
  rw [lookup_mapVals, foldl_changeDate_lookup _ changed.nodupKeys, foldl_observeDate_lookup]
  rfl

end ControlTower.Pipeline
