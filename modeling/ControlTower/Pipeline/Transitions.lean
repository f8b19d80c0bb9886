import ControlTower.Pipeline.Codec
import ControlTower.Pipeline.Rows

/-! No transition leaves the states that pass the check.

Each transition has one lemma (`beginRound_valid`, ..., `recoverAfterFence_valid`),
and `Call` puts them together: from a state that passes the check every call
leaves one that passes it, and a call that refuses leaves the state alone. What a
successful reservation found, and the ways a work can be finished, are stated
once (`reserve_spec`, `finish_spec`) for whoever needs more than validity. -/
namespace ControlTower.Pipeline
open Go Contract Finmap State

/-! ### Rounds -/

variable {s : State}

theorem beginRound_valid (h : Valid s) (now : Time) (location : Option Location) :
    Valid (s.beginRound now location).1 := by
  unfold beginRound
  split
  · exact h
  · rename_i location
    split
    · exact h
    · rename_i hguard
      simp only [Bool.or_eq_true, not_or, bne_iff_ne, ne_eq, Decidable.not_not, beq_iff_eq] at hguard
      obtain ⟨⟨_, hactive⟩, hround⟩ := hguard
      split
      · exact h
      · rename_i hdate
        simp only [Bool.not_eq_true', Bool.not_eq_false] at hdate
        have hne : s.round + 1 ≠ 0 := by grind [maxUint64]
        refine ⟨h.settings, h.version, h.active_le, h.migration, fun he => absurd he hne,
          fun _ => hdate, h.frontier, ?_, ?_, h.tokens, h.verification_alone, h.migration_apart⟩
        · intro date _ d hd
          exact day_validate_round (h.dayOf hd) (by grind [maxUint64])
        · intro t ht
          simp [hactive] at ht

/-! ### Committed rows -/

variable {d : Day} {round : UInt64}

/-- The collected mark is read off the frontier, wherever that now is. -/
theorem recollect_validate {date f f' : String} (h : d.validate date f round = true) :
    Day.validate {d with collected := date < f'} date f' round = true := by
  simp only [Day.validate, Bool.and_eq_true] at h ⊢
  obtain ⟨⟨⟨⟨⟨⟨⟨h₁, h₂⟩, h₃⟩, _⟩, h₄⟩, h₅⟩, h₆⟩, h₇⟩ := h
  exact ⟨⟨⟨⟨⟨⟨⟨h₁, h₂⟩, h₃⟩, beq_self_eq_true _⟩, h₄⟩, h₅⟩, h₆⟩, h₇⟩

/-- A change needs room for one more revision, and keeps only the last seal. -/
theorem change_validate {date f : String} (hdate : validDate date = true) (hrev : d.revision ≠ maxUint64)
    (hseal : ∀ r ∈ d.lastSeal, r.validate round d.revision = true ∧ r.sealVersion ≠ "") :
    Day.validate {d.change with collected := date < f} date f round = true := by
  have hne : d.revision + 1 ≠ 0 := by grind [maxUint64]
  have hle : d.revision ≤ d.revision + 1 := by grind [maxUint64]
  simp only [Day.validate, Day.change, Bool.and_eq_true, Option.all_none, Option.all_eq_true,
    bne_iff_ne, and_true]
  refine ⟨⟨⟨⟨⟨hdate, hne⟩, by grind⟩, beq_self_eq_true _⟩, fun r hr => ?_⟩,
    fun r hr => (hseal r hr).2⟩
  have hv := (hseal r hr).1
  simp only [Result.validate, Bool.and_eq_true, decide_eq_true_eq] at hv ⊢
  obtain ⟨⟨⟨⟨⟨⟨hv, hrle⟩, h₁⟩, h₂⟩, h₃⟩, h₄⟩, h₅⟩ := hv
  exact ⟨⟨⟨⟨⟨⟨hv, UInt64.le_trans hrle hle⟩, h₁⟩, h₂⟩, h₃⟩, h₄⟩, h₅⟩

theorem lastSeal_validate {date f : String} (h : d.validate date f round = true) :
    ∀ r ∈ d.lastSeal, r.validate round d.revision = true ∧ r.sealVersion ≠ "" := by
  simp only [Day.validate, Bool.and_eq_true, Option.all_eq_true, bne_iff_ne] at h
  obtain ⟨⟨⟨_, hseal⟩, _⟩, hver⟩ := h
  exact fun r hr => ⟨hseal r hr, hver r hr⟩

variable {observed : List String} {changed : AList fun _ : String => Bool}

/-- What an accepted call knows of its dates. -/
theorem acceptsRows_spec (h : s.acceptsRows observed changed = true) :
    (∀ date ∈ observed, validDate date = true) ∧
      ∀ date, Marks changed date → validDate date = true ∧
        ∀ d, s.days.lookup date = some d → d.revision ≠ maxUint64 := by
  simp only [acceptsRows, Bool.and_eq_true, List.all_eq_true, Bool.not_eq_true',
    Bool.and_eq_false_iff] at h
  refine ⟨h.1, fun date hm => ⟨(h.2 _ hm).1, fun d hd => ?_⟩⟩
  have hroom := (h.2 _ hm).2
  simpa [hd] using hroom

variable {date : String}

theorem rowsObserved_day (h : Valid s) (ha : s.acceptsRows observed changed = true)
    (hd : (s.rowsObserved observed changed).days.lookup date = some d) :
    d.validate date (s.rowsObserved observed changed).frontier s.round = true := by
  obtain ⟨hobs, hmark⟩ := acceptsRows_spec ha
  rw [rowsObserved_lookup] at hd
  generalize (s.rowsObserved observed changed).frontier = f at hd ⊢
  obtain ⟨e, he, rfl⟩ := Option.map_eq_some_iff.mp hd
  unfold observedDay at he
  by_cases hm : Marks changed date
  · obtain ⟨hdate, hroom⟩ := hmark date hm
    rw [if_pos hm] at he
    obtain rfl := Option.some.inj he
    -- The day was there, or was just observed, or appears with the change itself.
    cases hl : s.days.lookup date with
    | some d₀ => exact change_validate hdate (hroom d₀ hl) (lastSeal_validate (h.dayOf hl))
    | none =>
      by_cases ho : date ∈ observed
      · simp only [if_pos ho, Option.getD_some]
        exact change_validate hdate (by decide) (by simp)
      · simp only [if_neg ho, Option.getD_none]
        exact change_validate hdate (by decide) (by simp)
  · rw [if_neg hm] at he
    cases hl : s.days.lookup date with
    | some d₀ =>
      simp only [hl, Option.some.injEq] at he
      subst he
      exact recollect_validate (h.dayOf hl)
    | none =>
      simp only [hl, Option.ite_none_right_eq_some, Option.some.injEq] at he
      obtain ⟨ho, rfl⟩ := he
      simp [Day.validate, hobs date ho]

/-- A day that was there is still there, at its revision or the next one. -/
theorem rowsObserved_kept (ha : s.acceptsRows observed changed = true) (hd : s.days.lookup date = some d) :
    ∃ d', (s.rowsObserved observed changed).days.lookup date = some d' ∧
      d'.collected = decide (date < (s.rowsObserved observed changed).frontier) ∧
      d.revision ≤ d'.revision := by
  rw [rowsObserved_lookup]
  have hday : s.observedDay observed date = some d := by simp [observedDay, hd]
  rw [hday]
  by_cases hm : Marks changed date
  · have hroom := ((acceptsRows_spec ha).2 date hm).2 d hd
    rw [if_pos hm]
    exact ⟨_, rfl, rfl, show d.revision ≤ d.revision + 1 by grind [maxUint64]⟩
  · rw [if_neg hm]
    exact ⟨_, rfl, rfl, UInt64.le_refl _⟩

theorem observeCommittedRows_valid (h : Valid s) (observed : List String)
    (changed : AList fun _ : String => Bool) :
    Valid (s.observeCommittedRows observed changed).1 := by
  rw [observeCommittedRows_eq]
  split
  · rename_i ha
    have hday : ∀ date d, (s.rowsObserved observed changed).days.lookup date = some d →
        d.validate date (s.rowsObserved observed changed).frontier s.round = true :=
      fun _ _ hd => rowsObserved_day h ha hd
    have hkept : ∀ date d, s.days.lookup date = some d →
        ∃ d', (s.rowsObserved observed changed).days.lookup date = some d' ∧
          d'.collected = decide (date < (s.rowsObserved observed changed).frontier) ∧
          d.revision ≤ d'.revision := fun _ _ hd => rowsObserved_kept ha hd
    obtain ⟨f, m, he, hle, hor⟩ := rowsObserved_frame s observed changed
    rw [he] at hday hkept ⊢
    refine ⟨h.settings, h.version, h.active_le, h.migration, h.cutoff_zero, h.cutoff, ?_, ?_, ?_,
      h.tokens, h.verification_alone, h.migration_apart⟩
    · intro hne
      rcases hor with rfl | hmem
      · exact h.frontier hne
      · exact (acceptsRows_spec ha).1 f hmem
    · exact fun date _ d hd => hday date d hd
    · intro t ht w hw
      refine validWork_mono (s := s) rfl rfl rfl rfl (UInt64.le_refl _) ?_ (h.work t ht w hw)
      intro date d hd hcol
      obtain ⟨d', hd', hcol', hrev⟩ := hkept date d hd
      have hlt : date < s.frontier := by
        have hv := h.dayOf hd
        simp only [Day.validate, Bool.and_eq_true, beq_iff_eq] at hv
        have hmark := hv.1.1.1.1.2
        rw [hcol] at hmark
        exact of_decide_eq_true hmark.symm
      exact ⟨d', hd', by rw [hcol']; exact decide_eq_true (lt_of_lt_of_le hlt hle), hrev⟩
  · exact h

/-! ### Reservations -/

/-- What the chosen date of a date task is. -/
theorem offers_spec (h : s.offers date = true) :
    ∃ d, s.days.lookup date = some d ∧ ¬ s.cutoff < date ∧ d.collected = true := by
  unfold offers at h
  cases hd : s.days.lookup date with
  | none => simp [hd] at h
  | some d =>
    simp only [hd, Bool.and_eq_true, Bool.not_eq_true', decide_eq_false_iff_not] at h
    exact ⟨d, rfl, h.1.1, h.1.2⟩

theorem nextDate_offers (h : s.nextDate ≠ "") : s.offers s.nextDate = true := by
  unfold nextDate at h ⊢
  cases hm : (s.days.keys.filter fun date => s.offers date).min with
  | top => exact absurd (by rw [hm]; rfl) h
  | coe date =>
    rw [WithTop.untopD_coe]
    exact (Finset.mem_filter.mp (Finset.mem_of_min hm)).2

variable {task : Task}

theorem reserveDate_spec {revision : UInt64} (h : s.reserveDate task = .ok (date, revision)) :
    s.migrationDone = true ∧ s.round ≠ 0 ∧ Task.organization ∉ s.active ∧
      Task.verification ∉ s.active ∧ date = s.nextDate ∧ s.nextDate ≠ "" ∧
      (task = .verification → Task.collection ∉ s.active) ∧
      ∃ d, s.days.lookup date = some d ∧ d.revision = revision ∧
        (task = .verification → d.organizedRevision = d.revision) := by
  unfold reserveDate at h
  split at h
  · cases h
  rename_i hready
  split at h
  · cases h
  rename_i horg
  split at h
  · cases h
  rename_i hver
  split at h
  · cases h
  rename_i hnext
  split at h
  · cases h
  rename_i d hd
  split at h
  · cases h
  split at h
  · cases h
  rename_i hdone
  split at h
  · cases h
  rename_i hcol
  cases h
  simp only [Bool.or_eq_true, Bool.not_eq_true', beq_iff_eq, not_or, Bool.not_eq_false] at hready
  simp only [Bool.and_eq_true, beq_iff_eq, bne_iff_ne, not_and, decide_eq_true_eq,
    Decidable.not_not] at hdone hcol
  exact ⟨hready.1, hready.2, horg, hver, rfl, by simpa using hnext, hcol, d, hd, rfl, hdone⟩

variable {w : Work} {s s' : State}

/-- What a reservation that succeeds found and what it leaves. -/
theorem reserve_spec (h : s.reserve task = (s', .ok w)) :
    s.settings.enabled task = true ∧ s.schemaReady = true ∧ task ∉ s.active ∧
      s.nextToken ≠ maxUint64 ∧ s.reserveTask task = .ok (w.date, w.revision) ∧
      w.task = task ∧ w.token = s.nextToken + 1 ∧
      s' = {s with nextToken := s.nextToken + 1, active := s.active.insert task w} := by
  unfold reserve at h
  split at h
  · cases h
  rename_i hon
  split at h
  · cases h
  rename_i hfree
  split at h
  · cases h
  rename_i htok
  split at h
  · cases h
  · rename_i date revision hr
    cases h
    simp only [Bool.or_eq_true, Bool.not_eq_true', not_or, Bool.not_eq_false] at hon
    exact ⟨hon.1, hon.2, hfree, by simpa using htok, hr, rfl, rfl, rfl⟩

theorem reserve_error {e : Err} (h : s.reserve task = (s', .error e)) : s' = s := by
  unfold reserve at h
  split at h
  · cases h; rfl
  split at h
  · cases h; rfl
  split at h
  · cases h; rfl
  split at h
  · cases h; rfl
  · cases h

/-- The tasks that may already be active when another one is reserved. -/
theorem reserveTask_exclusion (h : Valid s)
    {revision : UInt64} (hr : s.reserveTask task = .ok (date, revision)) (hnew : task ∉ s.active) :
    (s.active.keys ⊆ {Task.collection}) ∨ (task = .collection ∧ Task.verification ∉ s.active ∧
      (s.active.keys ⊆ {Task.migration} ∨ s.active.keys ⊆ {Task.organization})) := by
  cases task with
  | migration =>
    simp only [reserveTask] at hr
    split at hr
    · cases hr
    rename_i hdone
    left
    intro t ht
    rcases h.active_cases (mem_keys.mp ht) with ⟨rfl, _⟩ | rfl | ⟨_, hd⟩
    · exact absurd (mem_keys.mp ht) hnew
    · exact Finset.mem_singleton_self _
    · exact absurd hd hdone
  | collection =>
    simp only [reserveTask] at hr
    split at hr
    · cases hr
    rename_i hver
    refine .inr ⟨rfl, hver, ?_⟩
    -- A migration is active only before it is done, an organization only after.
    cases hdone : s.migrationDone with
    | false =>
      left
      intro t ht
      rcases h.active_cases (mem_keys.mp ht) with ⟨rfl, _⟩ | rfl | ⟨_, hd⟩
      · exact Finset.mem_singleton_self _
      · exact absurd (mem_keys.mp ht) hnew
      · rw [hdone] at hd; cases hd
    | true =>
      right
      intro t ht
      rcases h.active_cases (mem_keys.mp ht) with ⟨_, hd⟩ | rfl | ⟨rfl | rfl, _⟩
      · rw [hdone] at hd; cases hd
      · exact absurd (mem_keys.mp ht) hnew
      · exact Finset.mem_singleton_self _
      · exact absurd (mem_keys.mp ht) hver
  | organization | verification =>
    obtain ⟨hdone, -, horg, hver, -⟩ := reserveDate_spec hr
    left
    intro t ht
    rcases h.active_cases (mem_keys.mp ht) with ⟨_, hd⟩ | rfl | ⟨rfl | rfl, _⟩
    · rw [hdone] at hd; cases hd
    · exact Finset.mem_singleton_self _
    · exact absurd (mem_keys.mp ht) horg
    · exact absurd (mem_keys.mp ht) hver
  | other name => cases hr

/-- The new reservation passes the check in the state it was made in. -/
theorem reserve_validWork (h : Valid s)
    (hr : s.reserve task = (s', .ok w)) : s'.validWork task w = true := by
  obtain ⟨-, hschema, -, htok, hrt, hwt, hwk, rfl⟩ := reserve_spec hr
  have hne : s.nextToken + 1 ≠ 0 := by grind [maxUint64]
  simp only [validWork, hschema, hwt, hwk, beq_self_eq_true, Bool.and_eq_true, bne_iff_ne,
    decide_eq_true_eq, true_and]
  refine ⟨⟨hne, UInt64.le_refl _⟩, ?_⟩
  cases task with
  | migration =>
    simp only [reserveTask] at hrt
    split at hrt
    · cases hrt
    · rename_i hdone
      injection hrt with hrt
      simp [Prod.ext_iff] at hrt
      simp [hdone, ← hrt.1, ← hrt.2]
  | collection =>
    simp only [reserveTask] at hrt
    split at hrt
    · cases hrt
    split at hrt
    · cases hrt
    · injection hrt with hrt
      simp [Prod.ext_iff] at hrt
      simp [← hrt.1, ← hrt.2]
  | organization | verification =>
    obtain ⟨hdone, hround, -, -, hdate, hnext, -, d, hd, hrev, -⟩ := reserveDate_spec hrt
    obtain ⟨e, he, hcut, hcol⟩ := offers_spec (nextDate_offers hnext)
    rw [← hdate] at he hcut
    rw [hd] at he
    obtain rfl := Option.some.inj he
    have hv := h.dayOf hd
    simp only [Day.validate, Bool.and_eq_true, bne_iff_ne] at hv
    have hpos : w.revision ≠ 0 := hrev ▸ hv.1.1.1.1.1.1.2
    simp only [hdone, Bool.and_eq_true, bne_iff_ne, Bool.not_eq_true', decide_eq_false_iff_not,
      Option.any_eq_true, decide_eq_true_eq, true_and]
    exact ⟨⟨⟨hround, hcut⟩, hpos⟩, d, hd, hcol, by rw [hrev]; exact UInt64.le_refl _⟩
  | other name => cases hrt

theorem reserve_valid (h : Valid s) (task : Task) : Valid (s.reserve task).1 := by
  cases hr : s.reserve task with
  | mk s' r =>
    cases r with
    | error e => rw [reserve_error hr]; exact h
    | ok w =>
      show Valid s'
      have hnewWork := reserve_validWork h hr
      obtain ⟨-, hschema, hnew, htok, hrt, hwt, hwk, hs'⟩ := reserve_spec hr
      have hexcl := reserveTask_exclusion h hrt hnew
      have hlt : s.nextToken < s.nextToken + 1 := by grind [maxUint64]
      have hkeys : s'.active.keys = insert task s.active.keys := by
        rw [hs', keys_insert]
      have hcard : s'.active.keys.card = s.active.keys.card + 1 := by
        rw [hkeys, Finset.card_insert_of_notMem (fun hk => hnew (mem_keys.mp hk))]
      have hone : s.active.keys.card ≤ 1 := by
        rcases hexcl with hc | ⟨-, -, hc | hc⟩ <;> simpa using Finset.card_le_card hc
      -- A reservation that was there kept a token below the new one.
      have hold : ∀ t e, s.active.lookup t = some e → e.token ≤ s.nextToken := by
        intro t e he
        have hv := h.workOf he
        simp only [validWork, Bool.and_eq_true, decide_eq_true_eq] at hv
        exact hv.1.2
      have hlook : ∀ t e, s'.active.lookup t = some e →
          (t = task ∧ e = w) ∨ (t ≠ task ∧ s.active.lookup t = some e) := by
        intro t e he
        rw [hs'] at he
        by_cases hteq : t = task
        · subst hteq
          rw [lookup_insert] at he
          exact .inl ⟨rfl, (Option.some.inj he).symm⟩
        · rw [lookup_insert_of_ne _ hteq] at he
          exact .inr ⟨hteq, he⟩
      have hmem : ∀ t, t ∈ s'.active → t = task ∨ t ∈ s.active := by
        intro t ht
        have := mem_keys.mpr ht
        rw [hkeys, Finset.mem_insert] at this
        exact this.imp id mem_keys.mp
      refine ⟨by rw [hs']; exact h.settings, by rw [hs']; exact h.version, by omega,
        by rw [hs']; exact h.migration, by rw [hs']; exact h.cutoff_zero, by rw [hs']; exact h.cutoff,
        by rw [hs']; exact h.frontier, by rw [hs']; exact h.day, ?_, ?_, ?_, ?_⟩
      · intro t _ e he
        rcases hlook t e he with ⟨rfl, rfl⟩ | ⟨_, he⟩
        · exact hnewWork
        · refine validWork_mono (s := s) (by rw [hs']) (by rw [hs']) (by rw [hs']) (by rw [hs']) ?_ ?_
            (h.workOf he)
          · rw [hs']; exact UInt64.le_of_lt hlt
          · intro date d hd hc
            exact ⟨d, by rw [hs']; exact hd, hc, UInt64.le_refl _⟩
      · intro t₁ _ t₂ _ w₁ hw₁ w₂ hw₂ heq
        rcases hlook t₁ w₁ hw₁ with ⟨rfl, rfl⟩ | ⟨_, ho₁⟩ <;>
          rcases hlook t₂ w₂ hw₂ with ⟨rfl, rfl⟩ | ⟨_, ho₂⟩
        · rfl
        · have := hold t₂ w₂ ho₂
          grind
        · have := hold t₁ w₁ ho₁
          grind
        · exact h.tokens t₁ (mem_keys.mpr (mem_of_lookup_eq_some ho₁)) t₂
            (mem_keys.mpr (mem_of_lookup_eq_some ho₂)) w₁ ho₁ w₂ ho₂ heq
      · intro hv
        have hempty : s.active.keys = ∅ := by
          rcases hmem _ hv with hvt | hv
          · -- The verification is the new one: the source slot is free.
            subst hvt
            obtain ⟨-, -, -, -, -, -, hcol, -⟩ := reserveDate_spec hrt
            rcases hexcl with hc | ⟨hc, -⟩
            · refine Finset.eq_empty_of_forall_notMem fun t ht => ?_
              have := Finset.mem_singleton.mp (hc ht)
              subst this
              exact hcol rfl (mem_keys.mp ht)
            · cases hc
          · rcases hexcl with hc | ⟨-, hno, -⟩
            · have := Finset.mem_singleton.mp (hc (mem_keys.mpr hv))
              cases this
            · exact absurd hv hno
        rw [hcard, hempty, Finset.card_empty]
      · intro hm ho
        rcases hexcl with hc | ⟨rfl, -, hc⟩
        · -- Nothing but a collection was there, so both cannot be new.
          have hnotOld : ∀ t, t ≠ .collection → t ∉ s.active := fun t hne ht =>
            hne (Finset.mem_singleton.mp (hc (mem_keys.mpr ht)))
          have h₁ := (hmem _ hm).resolve_right (hnotOld _ (by decide))
          have h₂ := (hmem _ ho).resolve_right (hnotOld _ (by decide))
          rw [← h₁] at h₂
          cases h₂
        · have h₁ := (hmem _ hm).resolve_left (by decide)
          have h₂ := (hmem _ ho).resolve_left (by decide)
          exact h.migration_apart h₁ h₂

/-! ### Finishing, releasing and recovering -/

/-- The four ways a work can be finished. -/
inductive Finished (s : State) (w : Work) (code sealVersion : String) (now : Now) : State → Prop where
  | failed (d : Day) (hd : s.days.lookup w.date = some d) (hr : d.revision = w.revision)
      (hdate : w.date ≠ "") (hcode : code ≠ "") (hlen : code.utf8ByteSize ≤ 128)
      (hseal : sealVersion = "") :
      Finished s w code sealVersion now ((s.setDay w.date {d with
        result := some ⟨some now.instant, none, s.round, d.revision, code, ""⟩}).drop w.task)
  | organized (d : Day) (hd : s.days.lookup w.date = some d) (hr : d.revision = w.revision)
      (hdate : w.date ≠ "") (hcode : code = "") (htask : w.task = .organization)
      (hseal : sealVersion = "") :
      Finished s w code sealVersion now
        ((s.setDay w.date {d with organizedRevision := d.revision}).drop w.task)
  | sealed (d : Day) (hd : s.days.lookup w.date = some d) (hr : d.revision = w.revision)
      (hdate : w.date ≠ "") (hcode : code = "") (htask : w.task = .verification)
      (hseal : sealVersion ≠ "") (hlen : sealVersion.utf8ByteSize ≤ 128) :
      Finished s w code sealVersion now ((s.setDay w.date {d with
        result := some ⟨some now.instant, none, s.round, d.revision, "", sealVersion⟩
        lastSeal := some ⟨some now.instant, none, s.round, d.revision, "", sealVersion⟩}).drop w.task)
  | migrated (hdate : w.date = "") (hcode : code = "") (htask : w.task = .migration)
      (hseal : sealVersion = "") :
      Finished s w code sealVersion now (({s with migrationDone := true} : State).drop w.task)
  | undated (hdate : w.date = "") (hcode : code = "") (htask : w.task ≠ .migration)
      (hseal : w.task ≠ .verification → sealVersion = "") :
      Finished s w code sealVersion now (s.drop w.task)

theorem finish_spec {code sealVersion : String} {now : Now}
    (h : s.finish w code sealVersion now = (s', none)) :
    s.owns w = true ∧ Finished s w code sealVersion now s' := by
  unfold finish at h
  split at h
  · cases h
  rename_i hguard
  simp only [Bool.or_eq_true, Bool.not_eq_true', decide_eq_true_eq, Bool.and_eq_true, bne_iff_ne,
    not_or, Bool.not_eq_false, Nat.not_lt, not_and, Decidable.not_not] at hguard
  obtain ⟨⟨⟨howns, hcodeLen⟩, hsealLen⟩, hboth⟩ := hguard
  refine ⟨howns, ?_⟩
  split at h
  · cases h
  rename_i hver
  simp only [Bool.and_eq_true, bne_iff_ne, not_and, Decidable.not_not] at hver
  split at h
  · rename_i hdate
    have hdate' : w.date ≠ "" := by simpa using hdate
    split at h
    · cases h
    rename_i d hd
    split at h
    · cases h
    rename_i hrev
    have hrev' : d.revision = w.revision := by simpa using hrev
    split at h
    · rename_i hcode
      have hcode' : code ≠ "" := by simpa using hcode
      cases h
      exact .failed d hd hrev' hdate' hcode' hcodeLen (hboth hcode')
    rename_i hcode
    have hcode' : code = "" := by simpa using hcode
    split at h
    · rename_i htask
      have htask' : w.task = .organization := by simpa using htask
      cases h
      exact .organized d hd hrev' hdate' hcode' htask' (hver (by rw [htask']; decide))
    split at h
    · cases h
    rename_i hseal
    have hseal' : sealVersion ≠ "" := by simpa using hseal
    cases h
    refine .sealed d hd hrev' hdate' hcode' ?_ hseal' hsealLen
    by_contra hne
    exact hseal' (hver hne)
  · rename_i hdate
    have hdate' : w.date = "" := by simpa using hdate
    split at h
    · cases h
    rename_i hcode
    have hcode' : code = "" := by simpa using hcode
    split at h
    · rename_i htask
      have htask' : w.task = .migration := by simpa using htask
      cases h
      exact .migrated hdate' hcode' htask' (hver (by rw [htask']; decide))
    · rename_i htask
      cases h
      exact .undated hdate' hcode' (by simpa using htask) hver

theorem finish_error {code sealVersion : String} {now : Now} {e : Err}
    (h : s.finish w code sealVersion now = (s', some e)) : s' = s := by
  unfold finish at h
  grind

theorem owns_lookup (h : s.owns w = true) : s.active.lookup w.task = some w ∧ w.token ≠ 0 := by
  simpa [owns] using h

/-- A dated work belongs to organization or verification, in a round. -/
theorem Valid.dated (h : Valid s) (hw : s.active.lookup w.task = some w) (hdate : w.date ≠ "") :
    (w.task = .organization ∨ w.task = .verification) ∧ s.round ≠ 0 := by
  have hv := h.workOf hw
  unfold validWork at hv
  cases ht : w.task <;> simp_all

/-- A result of the current round and revision passes the check. -/
theorem fresh_validate (now : Now) (code sealVersion : String) {round revision : UInt64}
    (hround : round ≠ 0) (hrev : revision ≠ 0) (hcode : code.utf8ByteSize ≤ 128)
    (hseal : sealVersion.utf8ByteSize ≤ 128) (hone : (code = "") ≠ (sealVersion = "")) :
    Result.validate ⟨some now.instant, none, round, revision, code, sealVersion⟩ round revision =
      true := by
  have hbeq : ((code == "") != (sealVersion == "")) = true := by
    rw [bne_iff_ne]
    intro he
    exact hone (propext (by rw [← beq_iff_eq, he, beq_iff_eq]))
  simp [Result.validate, now.nonzero, hround, hrev, hcode, hseal, hbeq]

/-- Once the migration's own reservation is gone, only a collection can be left. -/
theorem migrated_valid (h : Valid s)
    (hw : s.active.lookup .migration = some w) (htask : w.task = .migration) :
    Valid (({s with migrationDone := true} : State).drop w.task) := by
  have hschema := h.schema hw
  have hd := h.drop .migration
  rw [htask]
  refine ⟨hd.settings, hd.version, hd.active_le, fun _ => hschema, hd.cutoff_zero, hd.cutoff,
    hd.frontier, hd.day, ?_, hd.tokens, hd.verification_alone, hd.migration_apart⟩
  intro t ht e he
  have hmem : t ∈ s.active ∧ t ≠ .migration := by
    have := mem_keys.mp ht
    simp only [drop, mem_erase] at this
    exact ⟨this.2, this.1⟩
  have hv := hd.work t ht e he
  have hnot : s.migrationDone = false := by
    have hm := h.workOf hw
    simp only [validWork, Bool.and_eq_true, Bool.not_eq_true'] at hm
    exact hm.2.1.1
  rcases h.active_cases hmem.1 with ⟨rfl, _⟩ | rfl | ⟨_, hdone⟩
  · exact absurd rfl hmem.2
  · exact hv
  · rw [hnot] at hdone
    cases hdone

theorem finish_valid (h : Valid s) (w : Work) (code sealVersion : String) (now : Now) :
    Valid (s.finish w code sealVersion now).1 := by
  cases hf : s.finish w code sealVersion now with
  | mk s' e =>
    cases e with
    | some e => rw [finish_error hf]; exact h
    | none =>
      obtain ⟨howns, hfin⟩ := finish_spec hf
      obtain ⟨hw, -⟩ := owns_lookup howns
      show Valid s'
      cases hfin with
      | failed d hd hr hdate hcode hlen hseal =>
        obtain ⟨-, hround⟩ := h.dated hw hdate
        have hv := h.dayOf hd
        simp only [Day.validate, Bool.and_eq_true, bne_iff_ne] at hv
        obtain ⟨⟨⟨⟨⟨⟨⟨h₁, h₂⟩, h₃⟩, h₄⟩, _⟩, h₅⟩, _⟩, h₆⟩ := hv
        refine Valid.drop (h.setDay hd ?_ ?_ ?_) _
        · rfl
        · rfl
        have hres := fresh_validate now code "" hround h₂ hlen (by decide) (by simp [hcode])
        simp only [Day.validate, Bool.and_eq_true, bne_iff_ne, Option.all_some, beq_self_eq_true]
        exact ⟨⟨⟨⟨⟨⟨⟨h₁, h₂⟩, h₃⟩, h₄⟩, hres⟩, h₅⟩, trivial⟩, h₆⟩
      | organized d hd hr hdate hcode htask hseal =>
        have hv := h.dayOf hd
        simp only [Day.validate, Bool.and_eq_true] at hv
        obtain ⟨⟨⟨⟨⟨⟨⟨h₁, h₂⟩, _⟩, h₄⟩, h₅⟩, h₆⟩, h₇⟩, h₈⟩ := hv
        refine Valid.drop (h.setDay hd ?_ ?_ ?_) _
        · rfl
        · rfl
        simp only [Day.validate, Bool.and_eq_true]
        exact ⟨⟨⟨⟨⟨⟨⟨h₁, h₂⟩, decide_eq_true (UInt64.le_refl _)⟩, h₄⟩, h₅⟩, h₆⟩, h₇⟩, h₈⟩
      | sealed d hd hr hdate hcode htask hseal hlen =>
        obtain ⟨-, hround⟩ := h.dated hw hdate
        have hv := h.dayOf hd
        simp only [Day.validate, Bool.and_eq_true, bne_iff_ne] at hv
        obtain ⟨⟨⟨⟨⟨⟨⟨h₁, h₂⟩, h₃⟩, h₄⟩, _⟩, _⟩, _⟩, _⟩ := hv
        refine Valid.drop (h.setDay hd ?_ ?_ ?_) _
        · rfl
        · rfl
        have hres := fresh_validate now "" sealVersion hround h₂ (by decide) hlen (by simp [hseal])
        simp only [Day.validate, Bool.and_eq_true, bne_iff_ne, Option.all_some, beq_self_eq_true]
        exact ⟨⟨⟨⟨⟨⟨⟨h₁, h₂⟩, h₃⟩, h₄⟩, hres⟩, hres⟩, trivial⟩, hseal⟩
      | migrated hdate hcode htask hseal => exact migrated_valid h (htask ▸ hw) htask
      | undated hdate hcode htask hseal => exact h.drop _

theorem release_valid (h : Valid s) (w : Work) : Valid (s.release w).1 := by
  unfold release
  split
  · exact h
  · exact h.drop _

theorem recoverAfterFence_valid (h : Valid s) : Valid s.recoverAfterFence := by
  have hnone : ∀ t : Task, t ∉ (∅ : Finmap fun _ : Task => Work) := fun _ => notMem_empty
  refine ⟨h.settings, h.version, by simp [recoverAfterFence], h.migration, h.cutoff_zero,
    h.cutoff, h.frontier, h.day, ?_, ?_, fun hv => absurd hv (hnone _), fun hm => absurd hm (hnone _)⟩
  · exact fun t ht => absurd (mem_keys.mp ht) (hnone t)
  · exact fun t ht => absurd (mem_keys.mp ht) (hnone t)

/-! ### Every call -/

/-- A call of one of the six operations, with its arguments and what it reads of
the clock. -/
inductive Call where
  | beginRound (now : Time) (location : Option Location)
  | observeCommittedRows (observed : List String) (changed : AList fun _ : String => Bool)
  | reserve (task : Task)
  | finish (work : Work) (code sealVersion : String) (now : Now)
  | release (work : Work)
  | recoverAfterFence

/-- The state a call leaves and the error it returns. -/
def Call.apply (s : State) : Call → State × Option Err
  | .beginRound now location => s.beginRound now location
  | .observeCommittedRows observed changed => s.observeCommittedRows observed changed
  | .reserve task => ((s.reserve task).1, match (s.reserve task).2 with
    | .ok _ => none
    | .error e => some e)
  | .finish work code sealVersion now => s.finish work code sealVersion now
  | .release work => s.release work
  | .recoverAfterFence => (s.recoverAfterFence, none)

theorem call_valid (h : Valid s) (c : Call) : Valid (c.apply s).1 := by
  cases c with
  | beginRound now location => exact beginRound_valid h now location
  | observeCommittedRows observed changed => exact observeCommittedRows_valid h observed changed
  | reserve task => exact reserve_valid h task
  | finish work code sealVersion now => exact finish_valid h work code sealVersion now
  | release work => exact release_valid h work
  | recoverAfterFence => exact recoverAfterFence_valid h

/-- A call that refuses changes nothing. -/
theorem call_refused (s : State) (c : Call) (h : (c.apply s).2 ≠ none) : (c.apply s).1 = s := by
  cases c with
  | beginRound now location =>
    simp only [Call.apply, beginRound] at h ⊢
    grind
  | observeCommittedRows observed changed =>
    simp only [Call.apply, observeCommittedRows_eq] at h ⊢
    split at h
    · exact absurd rfl h
    · rename_i ha
      rw [if_neg ha]
  | reserve task =>
    cases hr : s.reserve task with
    | mk s' r =>
      simp only [Call.apply, hr] at h ⊢
      cases r with
      | ok w => exact absurd rfl h
      | error e => exact reserve_error hr
  | finish work code sealVersion now =>
    cases hf : s.finish work code sealVersion now with
    | mk s' e =>
      simp only [Call.apply, hf] at h ⊢
      obtain ⟨e, rfl⟩ := Option.ne_none_iff_exists'.mp h
      exact finish_error hf
  | release work =>
    simp only [Call.apply, release] at h ⊢
    grind
  | recoverAfterFence => exact absurd rfl h

/-! ### Writing the checkpoint -/

theorem State.Marshals.dayOf (h : s.Marshals) (hd : s.days.lookup date = some d) : d.marshals = true :=
  h date (mem_keys.mpr (mem_of_lookup_eq_some hd)) d hd

theorem State.Marshals.setDay (h : s.Marshals) (hd : d.marshals = true) : (s.setDay date d).Marshals := by
  intro date' _ e he
  by_cases hdate : date' = date
  · subst hdate
    simp only [setDay, lookup_insert, Option.mem_def, Option.some.injEq] at he
    rw [← he]
    exact hd
  · simp only [State.setDay, lookup_insert_of_ne _ hdate] at he
    exact h.dayOf he

theorem rowsObserved_marshals (h : s.Marshals) (observed : List String)
    (changed : AList fun _ : String => Bool) : (s.rowsObserved observed changed).Marshals := by
  have hobs : ∀ date d, s.observedDay observed date = some d → d.marshals = true := by
    intro date d hd
    unfold observedDay at hd
    cases hl : s.days.lookup date with
    | some d₀ =>
      simp only [hl, Option.some.injEq] at hd
      exact hd ▸ h.dayOf hl
    | none =>
      simp only [hl, Option.ite_none_right_eq_some, Option.some.injEq] at hd
      rw [← hd.2]
      rfl
  intro date _ d hd
  rw [Option.mem_def, rowsObserved_lookup] at hd
  obtain ⟨e, he, rfl⟩ := Option.map_eq_some_iff.mp hd
  show e.marshals = true
  by_cases hm : Marks changed date
  · rw [if_pos hm] at he
    obtain rfl := Option.some.inj he
    -- A change drops the result and keeps the last seal of the day it found.
    cases ho : s.observedDay observed date with
    | none => rfl
    | some d₀ =>
      have hv := hobs date d₀ ho
      simp only [Day.marshals, Bool.and_eq_true] at hv
      simpa [Day.marshals, Day.change] using hv.2
  · rw [if_neg hm] at he
    exact hobs date e he

theorem call_marshals (h : s.Marshals) (c : Call) : (c.apply s).1.Marshals := by
  by_cases he : (c.apply s).2 = none
  swap
  · rw [call_refused s c he]
    exact h
  cases c with
  | beginRound now location =>
    simp only [Call.apply, beginRound] at he ⊢
    split
    · exact h
    · split
      · exact h
      · split <;> exact h
  | observeCommittedRows observed changed =>
    simp only [Call.apply, observeCommittedRows_eq]
    split
    · exact rowsObserved_marshals h observed changed
    · exact h
  | reserve task =>
    simp only [Call.apply]
    cases hr : s.reserve task with
    | mk s' r =>
      cases r with
      | error e => rw [reserve_error hr]; exact h
      | ok w =>
        obtain ⟨-, -, -, -, -, -, -, rfl⟩ := reserve_spec hr
        exact h
  | finish work code sealVersion now =>
    cases hf : s.finish work code sealVersion now with
    | mk s' e =>
      simp only [Call.apply, hf] at he ⊢
      subst he
      have hday : ∀ d, s.days.lookup work.date = some d → d.lastSeal.all Result.marshals = true ∧
          d.result.all Result.marshals = true := by
        intro d hd
        have hv := h.dayOf hd
        simp only [Day.marshals, Bool.and_eq_true] at hv
        exact ⟨hv.2, hv.1⟩
      cases (finish_spec hf).2 with
      | failed d hd _ _ _ _ _ =>
        exact h.setDay (by simp [Day.marshals, Result.marshals, now.marshals, (hday d hd).1])
      | organized d hd _ _ _ _ _ =>
        exact h.setDay (by simp [Day.marshals, (hday d hd).1, (hday d hd).2])
      | sealed d hd _ _ _ _ _ _ =>
        exact h.setDay (by simp [Day.marshals, Result.marshals, now.marshals])
      | migrated _ _ _ _ => exact h
      | undated _ _ _ _ => exact h
  | release work =>
    simp only [Call.apply, release]
    split <;> exact h
  | recoverAfterFence => exact h

/-- The state after a list of calls, refused ones included. -/
def State.runCalls (s : State) : List Call → State
  | [] => s
  | c :: rest => (c.apply s).1.runCalls rest

theorem runCalls_valid (h : Valid s) (calls : List Call) : Valid (s.runCalls calls) := by
  induction calls generalizing s with
  | nil => exact h
  | cons c rest ih => exact ih (call_valid h c)

theorem runCalls_marshals (h : s.Marshals) (calls : List Call) : (s.runCalls calls).Marshals := by
  induction calls generalizing s with
  | nil => exact h
  | cons c rest ih => exact ih (call_marshals h c)

theorem encode_ok_iff {α : Type} (text : State → α) (s : State) :
    (∃ raw, s.encode text = .ok raw) ↔ s.validate = none ∧ s.Marshals := by
  unfold encode
  cases s.validate with
  | some e => simp
  | none => by_cases hm : s.Marshals <;> simp [hm]

theorem new_valid {settings : Settings} (h : settings.validate = true) : Valid (new settings) := by
  have hday : ∀ date : String, date ∉ (new settings).days := fun _ => notMem_empty
  have hwork : ∀ t : Task, t ∉ (new settings).active := fun _ => notMem_empty
  refine ⟨h, rfl, Nat.zero_le 2, fun hm => Bool.noConfusion hm, fun _ => rfl, fun hr => absurd rfl hr,
    fun hf => absurd rfl hf, ?_, ?_, ?_, fun hv => absurd hv (hwork _), fun hm => absurd hm (hwork _)⟩
  · exact fun date hd => absurd (mem_keys.mp hd) (hday date)
  · exact fun t ht => absurd (mem_keys.mp ht) (hwork t)
  · exact fun t ht => absurd (mem_keys.mp ht) (hwork t)

theorem new_encodes {α : Type} (text : State → α) {settings : Settings}
    (h : settings.validate = true) : ∃ raw, (new settings).encode text = .ok raw := by
  refine (encode_ok_iff text _).mpr ⟨(validate_iff _).mpr (new_valid h), fun date hd => ?_⟩
  exact absurd (mem_keys.mp hd) notMem_empty

/-- **The check is an invariant of the six operations.** From a state that passes
it every call leaves one that passes it, a call that refuses leaves the state as
it was, and a state that can be written can be written after any calls. -/
theorem validate_inductive (s : State) (h : s.validate = none) :
    (∀ c : Call, (c.apply s).1.validate = none ∧ ((c.apply s).2 ≠ none → (c.apply s).1 = s)) ∧
      ∀ {α : Type} (text : State → α), (∃ raw, s.encode text = .ok raw) →
        ∀ calls, ∃ raw, (s.runCalls calls).encode text = .ok raw := by
  have hv := (validate_iff s).mp h
  refine ⟨fun c => ⟨(validate_iff _).mpr (call_valid hv c), call_refused s c⟩, ?_⟩
  intro α text hs calls
  obtain ⟨-, hm⟩ := (encode_ok_iff text s).mp hs
  exact (encode_ok_iff text _).mpr ⟨(validate_iff _).mpr (runCalls_valid hv calls),
    runCalls_marshals hm calls⟩

/-- One date is sealed, the next is being organized, the last is not complete. -/
def midRound : State :=
  let sealed : Result := ⟨some 1767312000000000000, none, 1, 1, "", "v1"⟩
  let days : Finmap fun _ : String => Day := singleton "2026-01-01" ⟨1, true, 1, sealed, sealed⟩
  { new { organization := true, verification := true } with
    schemaReady := true, migrationDone := true, round := 2, nextToken := 4
    cutoff := "2026-01-02", frontier := "2026-01-03"
    days := (days.insert "2026-01-02" ⟨2, true, 0, none, sealed⟩).insert "2026-01-03" {revision := 1}
    active := singleton .organization ⟨4, .organization, "2026-01-02", 2⟩ }

/-- The initial state is one to start from, and so is one in the middle of a round: a work
of an older revision is refused there, the current one ends. -/
theorem validate_inductive_midRound :
    let now : Now := ⟨1767398400000000000, rfl, rfl⟩
    (midRound.finish ⟨4, .organization, "2026-01-02", 1⟩ "" "" now).1 = midRound ∧
      (midRound.finish ⟨4, .organization, "2026-01-02", 2⟩ "" "" now).1.validate = none ∧
      (∀ calls, ∃ raw, (midRound.runCalls calls).encode (fun s => s.round) = .ok raw) ∧
      ∀ calls, ∃ raw, ((new {}).runCalls calls).encode (fun s => s.round) = .ok raw := by
  intro now
  have hvalid : midRound.validate = none := by decide +kernel
  have hraw : ∃ raw, midRound.encode (fun s => s.round) = .ok raw :=
    (encode_ok_iff _ _).mpr ⟨hvalid, by decide +kernel⟩
  have hnew := new_encodes (fun s => s.round) (show Settings.validate {} = true by decide)
  obtain ⟨hcall, hruns⟩ := validate_inductive midRound hvalid
  exact ⟨(hcall (.finish _ _ _ now)).2 (by decide +kernel), (hcall (.finish _ _ _ now)).1, hruns _ hraw,
    (validate_inductive (new {}) ((encode_ok_iff _ _).mp hnew).1).2 _ hnew⟩

end ControlTower.Pipeline
