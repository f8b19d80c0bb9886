import ControlTower.Pipeline.State

/-! What a checkpoint has to satisfy.

`State.validate` is the code's check, clause by clause. `Valid` names the same
clauses so that a proof can speak of one of them; `validate_iff` says the two
agree. The lemmas below read single days and reservations off the clauses and say
which of their changes keep them. -/
namespace ControlTower.Pipeline
open Go Contract Bool Finmap Finset

/-- A result or a last seal as the check wants it, for a day at `revision` in a
state at `round`. -/
def Result.validate (r : Result) (round revision : UInt64) : Bool :=
  r.diagnostic.all Diagnostic.validate && r.completedAt.all (!Time.isZero ·) &&
    r.revision != 0 && r.revision ≤ revision && r.round != 0 && r.round ≤ round &&
    r.code.utf8ByteSize ≤ 128 && r.sealVersion.utf8ByteSize ≤ 128 &&
    (r.code == "") != (r.sealVersion == "")

def Day.validate (d : Day) (date frontier : String) (round : UInt64) : Bool :=
  validDate date && d.revision != 0 && d.organizedRevision ≤ d.revision &&
    d.collected == decide (date < frontier) &&
    d.result.all (·.validate round d.revision) && d.lastSeal.all (·.validate round d.revision) &&
    d.result.all (·.revision == d.revision) && d.lastSeal.all (·.sealVersion != "")

/-- A reservation as the check wants it under its task. -/
def State.validWork (s : State) (task : Task) (w : Work) : Bool :=
  s.schemaReady && w.task == task && w.token != 0 && w.token ≤ s.nextToken &&
    match task with
    | .migration => !s.migrationDone && w.date == "" && w.revision == 0
    | .collection => w.date == "" && w.revision == 0
    | .organization | .verification =>
      s.migrationDone && s.round != 0 && !(s.cutoff < w.date) && w.revision != 0 &&
        (s.days.lookup w.date).any fun d => d.collected && w.revision ≤ d.revision
    | .other _ => false

/-- The clauses of `State.Validate`. -/
structure Valid (s : State) : Prop where
  settings : s.settings.validate = true
  version : s.version = 1
  active_le : s.active.keys.card ≤ 2
  migration : s.migrationDone = true → s.schemaReady = true
  cutoff_zero : s.round = 0 → s.cutoff = ""
  cutoff : s.round ≠ 0 → validDate s.cutoff = true
  frontier : s.frontier ≠ "" → validDate s.frontier = true
  day : ∀ date ∈ s.days.keys, ∀ d ∈ s.days.lookup date, d.validate date s.frontier s.round = true
  work : ∀ task ∈ s.active.keys, ∀ w ∈ s.active.lookup task, s.validWork task w = true
  tokens : ∀ t₁ ∈ s.active.keys, ∀ t₂ ∈ s.active.keys, ∀ w₁ ∈ s.active.lookup t₁,
    ∀ w₂ ∈ s.active.lookup t₂, w₁.token = w₂.token → t₁ = t₂
  verification_alone : Task.verification ∈ s.active → s.active.keys.card = 1
  migration_apart : Task.migration ∈ s.active → Task.organization ∉ s.active

/-- `State.Validate`. -/
def State.validate (s : State) : Option Err :=
  if s.settings.validate = true ∧ s.version = 1 ∧ s.active.keys.card ≤ 2 ∧
      (s.migrationDone = true → s.schemaReady = true) ∧
      (s.round = 0 → s.cutoff = "") ∧ (s.round ≠ 0 → validDate s.cutoff = true) ∧
      (s.frontier ≠ "" → validDate s.frontier = true) ∧
      (∀ date ∈ s.days.keys, ∀ d ∈ s.days.lookup date, d.validate date s.frontier s.round = true) ∧
      (∀ task ∈ s.active.keys, ∀ w ∈ s.active.lookup task, s.validWork task w = true) ∧
      (∀ t₁ ∈ s.active.keys, ∀ t₂ ∈ s.active.keys, ∀ w₁ ∈ s.active.lookup t₁,
        ∀ w₂ ∈ s.active.lookup t₂, w₁.token = w₂.token → t₁ = t₂) ∧
      (Task.verification ∈ s.active → s.active.keys.card = 1) ∧
      (Task.migration ∈ s.active → Task.organization ∉ s.active)
  then none else some .conflict

theorem validate_iff (s : State) : s.validate = none ↔ Valid s := by
  unfold State.validate
  constructor
  · intro h
    split at h
    · rename_i hc
      obtain ⟨h₁, h₂, h₃, h₄, h₅, h₆, h₇, h₈, h₉, h₁₀, h₁₁, h₁₂⟩ := hc
      exact ⟨h₁, h₂, h₃, h₄, h₅, h₆, h₇, h₈, h₉, h₁₀, h₁₁, h₁₂⟩
    · cases h
  · intro h
    exact if_pos ⟨h.settings, h.version, h.active_le, h.migration, h.cutoff_zero, h.cutoff,
      h.frontier, h.day, h.work, h.tokens, h.verification_alone, h.migration_apart⟩

def Result.marshals (r : Result) : Bool :=
  r.completedAt.all Time.marshals && r.diagnostic.all Diagnostic.marshals

def Day.marshals (d : Day) : Bool := d.result.all Result.marshals && d.lastSeal.all Result.marshals

/-- The state can be written as JSON: nothing but an instant can fail to be. -/
def State.Marshals (s : State) : Prop :=
  ∀ date ∈ s.days.keys, ∀ d ∈ s.days.lookup date, d.marshals = true

instance (s : State) : Decidable s.Marshals :=
  inferInstanceAs (Decidable (∀ date ∈ s.days.keys, ∀ d ∈ s.days.lookup date, d.marshals = true))

/-- Why a checkpoint was not written. -/
inductive EncodeErr where
  | refused (e : Err)
  | marshal
deriving DecidableEq

/-- `State.Encode`: the check, then the text `json.Marshal` writes. -/
def State.encode {α : Type} (text : State → α) (s : State) : Except EncodeErr α :=
  match s.validate with
  | some e => .error (.refused e)
  | none => if s.Marshals then .ok (text s) else .error .marshal

/-! ### What the clauses say of one day and one reservation -/

variable {s : State}

theorem Valid.dayOf (h : Valid s) {date : String} {d : Day}
    (hd : s.days.lookup date = some d) : d.validate date s.frontier s.round = true :=
  h.day date (mem_keys.mpr (mem_of_lookup_eq_some hd)) d hd

variable {task : Task}

theorem Valid.workOf (h : Valid s) {w : Work}
    (hw : s.active.lookup task = some w) : s.validWork task w = true :=
  h.work task (mem_keys.mpr (mem_of_lookup_eq_some hw)) w hw

theorem Valid.date (h : Valid s) {date : String} {d : Day}
    (hd : s.days.lookup date = some d) : validDate date = true := by
  have hv := h.dayOf hd
  simp only [Day.validate, and_eq_true] at hv
  exact hv.1.1.1.1.1.1.1

theorem validDate_ne_empty {date : String} (h : validDate date = true) : date ≠ "" := by
  rintro rfl
  exact absurd h (by decide)

/-- Which tasks can be active before and after the migration. -/
theorem Valid.active_cases (h : Valid s) (ht : task ∈ s.active) :
    (task = .migration ∧ s.migrationDone = false) ∨ task = .collection ∨
      ((task = .organization ∨ task = .verification) ∧ s.migrationDone = true) := by
  obtain ⟨w, hw⟩ := mem_iff.mp ht
  have hv := h.workOf hw
  cases task <;> simp_all [State.validWork]

theorem Valid.schema (h : Valid s) {w : Work}
    (hw : s.active.lookup task = some w) : s.schemaReady = true := by
  have hv := h.workOf hw
  simp only [State.validWork, and_eq_true] at hv
  exact hv.1.1.1.1

/-- A later round asks no more of a day. -/
theorem day_validate_round {d : Day} {date frontier : String} {r r' : UInt64}
    (h : d.validate date frontier r = true) (hr : r ≤ r') : d.validate date frontier r' = true := by
  have hres : ∀ x : Result, x.validate r d.revision = true → x.validate r' d.revision = true := by
    intro x hx
    simp only [Result.validate, and_eq_true, decide_eq_true_eq] at hx ⊢
    obtain ⟨⟨⟨⟨hx, hround⟩, h₁⟩, h₂⟩, h₃⟩ := hx
    exact ⟨⟨⟨⟨hx, UInt64.le_trans hround hr⟩, h₁⟩, h₂⟩, h₃⟩
  simp only [Day.validate, and_eq_true, Option.all_eq_true] at h ⊢
  obtain ⟨⟨⟨⟨hd, h₁⟩, h₂⟩, h₃⟩, h₄⟩ := h
  exact ⟨⟨⟨⟨hd, fun x hx => hres x (h₁ x hx)⟩, fun x hx => hres x (h₂ x hx)⟩, h₃⟩, h₄⟩

/-- A reservation stays sound while its day moves forward and tokens are issued. -/
theorem validWork_mono {s s' : State} {w : Work} (hs : s'.schemaReady = s.schemaReady)
    (hm : s'.migrationDone = s.migrationDone) (hr : s'.round = s.round) (hc : s'.cutoff = s.cutoff)
    (ht : s.nextToken ≤ s'.nextToken)
    (hdays : ∀ date d, s.days.lookup date = some d → d.collected = true →
      ∃ d', s'.days.lookup date = some d' ∧ d'.collected = true ∧ d.revision ≤ d'.revision)
    (h : s.validWork task w = true) : s'.validWork task w = true := by
  unfold State.validWork at h ⊢
  rw [hs, hm, hr, hc]
  simp only [and_eq_true, decide_eq_true_eq] at h ⊢
  obtain ⟨⟨⟨hb, htok⟩, hle⟩, hcase⟩ := h
  refine ⟨⟨⟨hb, htok⟩, UInt64.le_trans hle ht⟩, ?_⟩
  cases task with
  | migration => exact hcase
  | collection => exact hcase
  | other name => exact hcase
  | organization | verification =>
    simp only [and_eq_true, Option.any_eq_true, decide_eq_true_eq] at hcase ⊢
    obtain ⟨hcase, d, hd, hcol, hrev⟩ := hcase
    obtain ⟨d', hd', hcol', hrev'⟩ := hdays w.date d hd hcol
    exact ⟨hcase, d', hd', hcol', UInt64.le_trans hrev hrev'⟩

/-! ### Dropping a reservation and replacing a day -/

theorem Valid.drop (h : Valid s) (task : Task) : Valid (s.drop task) := by
  have hsub : (s.drop task).active.keys ⊆ s.active.keys := by
    simp only [State.drop, keys_erase]
    exact erase_subset _ _
  have hlook : ∀ t w, (s.drop task).active.lookup t = some w → s.active.lookup t = some w := by
    intro t w hw
    by_cases he : t = task
    · subst he
      simp [State.drop] at hw
    · simpa [State.drop, lookup_erase_ne he] using hw
  refine ⟨h.settings, h.version, (card_le_card hsub).trans h.active_le, h.migration,
    h.cutoff_zero, h.cutoff, h.frontier, h.day, ?_, ?_, ?_, ?_⟩
  · intro t ht w hw
    exact h.work t (hsub ht) w (hlook t w hw)
  · intro t₁ h₁ t₂ h₂ w₁ hw₁ w₂ hw₂ he
    exact h.tokens t₁ (hsub h₁) t₂ (hsub h₂) w₁ (hlook _ _ hw₁) w₂ (hlook _ _ hw₂) he
  · intro hv
    have hmem : Task.verification ∈ s.active := mem_keys.mp (hsub (mem_keys.mpr hv))
    have hle := card_le_card hsub
    have hpos := card_pos.mpr ⟨_, mem_keys.mpr hv⟩
    rw [h.verification_alone hmem] at hle
    omega
  · intro hm ho
    exact h.migration_apart (mem_keys.mp (hsub (mem_keys.mpr hm)))
      (mem_keys.mp (hsub (mem_keys.mpr ho)))

/-- A day may be replaced by a sound one at the same revision. -/
theorem Valid.setDay (h : Valid s) {date : String} {d d' : Day}
    (hd : s.days.lookup date = some d) (hr : d'.revision = d.revision)
    (hc : d'.collected = d.collected) (hv : d'.validate date s.frontier s.round = true) :
    Valid (s.setDay date d') := by
  refine ⟨h.settings, h.version, h.active_le, h.migration, h.cutoff_zero, h.cutoff, h.frontier,
    ?_, ?_, h.tokens, h.verification_alone, h.migration_apart⟩
  · intro date' _ e he
    by_cases hdate : date' = date
    · subst hdate
      simp only [State.setDay, lookup_insert, Option.mem_def, Option.some.injEq] at he
      subst he
      exact hv
    · simp only [State.setDay, lookup_insert_of_ne _ hdate] at he
      exact h.dayOf he
  · intro t ht w hw
    refine validWork_mono (s := s) rfl rfl rfl rfl (UInt64.le_refl _) ?_ (h.work t ht w hw)
    intro date' e he hcol
    by_cases hdate : date' = date
    · subst hdate
      rw [hd] at he
      obtain rfl := Option.some.inj he
      exact ⟨d', lookup_insert _, by rw [hc, hcol], by rw [hr]; exact UInt64.le_refl _⟩
    · exact ⟨e, by rw [State.setDay, lookup_insert_of_ne _ hdate, he], hcol, UInt64.le_refl _⟩

end ControlTower.Pipeline
