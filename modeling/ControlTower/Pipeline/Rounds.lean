import ControlTower.Pipeline.Transitions

/-! A round of the archive, run to its end.

While a date remains, one of organization and verification is granted and the other
is refused, for the earliest date that remains. Finishing the work either organizes
the date, so that its verification is next, or gives it a result, so that the round
is done with it. What is left of the round is measured in turns, two for a date and
one for the next date once it is organized. -/
namespace ControlTower.Pipeline
open Go Option Finmap Finset State

variable (s : State)

/-- The dates that the round still offers. -/
def State.remaining : Finset String := s.days.keys.filter fun date => s.offers date

theorem mem_remaining {s : State} {date : String} : date ∈ s.remaining ↔ s.offers date = true := by
  rw [remaining, mem_filter, and_iff_right_iff_imp]
  intro h
  obtain ⟨d, hd, -⟩ := offers_spec h
  exact mem_keys.mpr (mem_of_lookup_eq_some hd)

theorem nextDate_isLeast {s : State} (h : s.nextDate ≠ "") :
    IsLeast (s.remaining : Set String) s.nextDate := by
  refine ⟨mem_coe.mpr (mem_remaining.mpr (nextDate_offers h)), fun date hdate => ?_⟩
  unfold nextDate
  obtain ⟨first, hfirst⟩ := min_of_mem (mem_coe.mp hdate)
  have hle := min_le (mem_coe.mp hdate)
  rw [remaining] at hfirst hle
  rw [hfirst] at hle ⊢
  exact WithTop.coe_le_coe.mp hle

/-- Where no date is the empty text, there is a next date while a date remains. -/
theorem nextDate_eq_empty {s : State} (hdates : ∀ date ∈ s.days.keys, date ≠ "") :
    s.nextDate = "" ↔ s.remaining = ∅ := by
  constructor
  · intro h
    refine eq_empty_of_forall_notMem fun date hdate => ?_
    obtain ⟨first, hfirst⟩ := min_of_mem hdate
    have hmem := (mem_filter.mp (mem_of_min hfirst)).1
    rw [nextDate, ← remaining, hfirst] at h
    exact hdates first hmem h
  · intro h
    rw [nextDate, ← remaining, h]
    rfl

/-! ### Turns -/

/-- A failure code or the version of a seal, as `Finish` takes it. -/
abbrev Label := {text : String // text ≠ "" ∧ text.utf8ByteSize ≤ 128}

/-- How the works of a turn end: an organization with or without a failure code, a
verification with a failure code or with the version of a seal. -/
structure Outcome where
  organization : Option Label
  verification : Label ⊕ Label
  now : Now

def Outcome.code (o : Outcome) : Task → String
  | .organization => o.organization.elim "" Subtype.val
  | _ => o.verification.elim Subtype.val fun _ => ""

def Outcome.sealVersion (o : Outcome) : Task → String
  | .organization => ""
  | _ => o.verification.elim (fun _ => "") Subtype.val

/-- A task is reserved and finished. -/
def State.work (task : Task) (o : Outcome) : Option State :=
  match s.reserve task with
  | (_, .error _) => none
  | (reserved, .ok w) =>
    match reserved.finish w (o.code task) (o.sealVersion task) o.now with
    | (_, some _) => none
    | (finished, none) => some finished

/-- Organization or verification, whichever is granted. -/
def State.turn (o : Outcome) : Option State :=
  (s.work .organization o).or (s.work .verification o)

/-- Exactly one of the two is granted, and for the earliest date that remains. -/
def State.Granted : Prop :=
  ∃ w, IsLeast (s.remaining : Set String) w.date ∧
    (((s.reserve .organization).2 = .ok w ∧ ∃ e, (s.reserve .verification).2 = .error e) ∨
      ((s.reserve .verification).2 = .ok w ∧ ∃ e, (s.reserve .organization).2 = .error e))

/-- Turns are taken while there is a next date: `k` of them, with outcomes in this order. -/
inductive Drains : State → (Nat → Outcome) → Nat → State → Prop where
  | done (s : State) (outcomes : Nat → Outcome) (hnext : s.nextDate = "") : Drains s outcomes 0 s
  | turn {s s' last : State} {outcomes : Nat → Outcome} {k : Nat} (hnext : s.nextDate ≠ "")
      (hgranted : s.Granted)
      (hturn : s.turn (outcomes 0) = some s')
        (hrest : Drains s' (fun i => outcomes (i + 1)) k last) :
      Drains s outcomes (k + 1) last

/-! ### What one turn does -/

/-- Nothing stands in the way of a turn. -/
structure Open (s : State) : Prop where
  schema : s.schemaReady = true
  migrated : s.migrationDone = true
  round : s.round ≠ 0
  idle : s.active = ∅
  verification : s.settings.verification = true

/-- The state once a work of this date is over. -/
def State.advance (date : String) (d : Day) : State :=
  {s with nextToken := s.nextToken + 1, days := s.days.insert date d}

section Turn
variable {s : State} {d : Day}

theorem reserve_granted (h : Open s) (task : Task) (henabled : s.settings.enabled task = true)
    (htoken : s.nextToken ≠ maxUint64)
    (hnext : s.nextDate ≠ "") (hd : s.days.lookup s.nextDate = some d)
    (htask : (task = .organization ∧ d.organizedRevision ≠ d.revision) ∨
      (task = .verification ∧ d.organizedRevision = d.revision)) :
    s.reserve task = ({s with
      nextToken := s.nextToken + 1
      active := s.active.insert task ⟨s.nextToken + 1, task, s.nextDate, d.revision⟩},
      .ok ⟨s.nextToken + 1, task, s.nextDate, d.revision⟩) := by
  have hnone : ∀ t : Task, t ∉ s.active := fun t => by
    rw [h.idle]
    exact notMem_empty
  have hdate : s.reserveTask task = .ok (s.nextDate, d.revision) := by
    rcases htask with ⟨rfl, horg⟩ | ⟨rfl, horg⟩
    · simp [reserveTask, reserveDate, h.migrated, h.round, hnone, hnext, hd, horg]
    · simp [reserveTask, reserveDate, h.migrated, h.round, hnone, hnext, hd, horg]
  simp [reserve, henabled, h.schema, hnone, htoken, hdate]

variable {task : Task}

theorem reserve_refused (hd : s.days.lookup s.nextDate = some d)
    (htask : (task = .organization ∧ d.organizedRevision = d.revision) ∨
      (task = .verification ∧ d.organizedRevision ≠ d.revision)) :
    ∃ e, s.reserve task = (s, .error e) := by
  cases hr : s.reserve task with
  | mk s' r =>
    cases r with
    | error e => exact ⟨e, by rw [reserve_error hr]⟩
    | ok w =>
      obtain ⟨-, -, -, -, hdate, -⟩ := reserve_spec hr
      rcases htask with ⟨rfl, horg⟩ | ⟨rfl, horg⟩
      · simp only [reserveTask, reserveDate, hd, horg] at hdate
        grind
      · obtain ⟨-, -, -, -, hsame, -, -, e, he, -, horg'⟩ := reserveDate_spec hdate
        rw [hsame, hd] at he
        cases he
        exact absurd (horg' rfl) horg

/-- The reservation that was just made, finished. -/
theorem finish_reserved (hidle : s.active = ∅) (htoken : s.nextToken ≠ maxUint64)
    {date code sealVersion : String}
    (now : Now) (hdate : date ≠ "") (hd : s.days.lookup date = some d)
    (hcode : code.utf8ByteSize ≤ 128)
    (hseal : sealVersion.utf8ByteSize ≤ 128) (hone : code = "" ∨ sealVersion = "")
    (hver : task ≠ .verification → sealVersion = "") :
    ({s with
      nextToken := s.nextToken + 1
      active := s.active.insert task ⟨s.nextToken + 1, task, date, d.revision⟩} : State).finish
        ⟨s.nextToken + 1, task, date, d.revision⟩ code sealVersion now =
      if code ≠ "" then
        (s.advance date {d with
          result := some ⟨some now.instant, none, s.round, d.revision, code, ""⟩}, none)
      else if task = .organization then
        (s.advance date {d with organizedRevision := d.revision}, none)
      else if sealVersion = "" then
        ({s with
          nextToken := s.nextToken + 1
          active := s.active.insert task ⟨s.nextToken + 1, task, date, d.revision⟩}, some .conflict)
      else (s.advance date {d with
        result := some ⟨some now.instant, none, s.round, d.revision, "", sealVersion⟩
        lastSeal := some ⟨some now.instant, none, s.round, d.revision, "", sealVersion⟩},
          none) := by
  have hne : s.nextToken + 1 ≠ 0 := by grind [maxUint64]
  have herase : ∀ w, (s.active.insert task w).erase task = s.active := by
    intro w
    rw [hidle]
    apply ext_lookup
    intro t
    by_cases ht : t = task
    · subst ht
      simp
    · rw [lookup_erase_ne ht, lookup_insert_of_ne _ ht]
  have hlong : ¬ 128 < code.utf8ByteSize ∧ ¬ 128 < sealVersion.utf8ByteSize := ⟨by omega, by omega⟩
  have hboth : (code != "" && sealVersion != "") = false := by
    rcases hone with h | h <;> simp [h]
  have hsealed : (task != .verification && sealVersion != "") = false := by
    by_cases ht : task = .verification
    · simp [ht]
    · simp [hver ht]
  unfold finish
  simp only [owns, lookup_insert, hlong, hboth, hsealed, hd, setDay, drop, herase]
  simp [hne, hdate, advance]

/-- The day has a result of this round, for the rows it has. -/
def Settles (round : UInt64) (d d' : Day) : Prop :=
  d'.revision = d.revision ∧ d'.collected = d.collected ∧ ∃ r, d'.result = some r ∧
    r.revision = d.revision ∧ r.round = round

theorem work_granted (h : Open s) (task : Task) (henabled : s.settings.enabled task = true)
    (htoken : s.nextToken ≠ maxUint64)
    (hnext : s.nextDate ≠ "") (hd : s.days.lookup s.nextDate = some d)
    (htask : (task = .organization ∧ d.organizedRevision ≠ d.revision) ∨
      (task = .verification ∧ d.organizedRevision = d.revision))
    (o : Outcome) :
    ∃ d', s.work task o = some (s.advance s.nextDate d') ∧
      (Settles s.round d d' ∨
        (task = .organization ∧ d' = {d with organizedRevision := d.revision})) := by
  have hreserve := reserve_granted h task henabled htoken hnext hd htask
  have hshort : ("" : String).utf8ByteSize ≤ 128 := by decide
  rcases htask with ⟨rfl, -⟩ | ⟨rfl, -⟩
  · simp only [work, hreserve, Outcome.code, Outcome.sealVersion]
    cases hcode : o.organization with
    | none =>
      simp only [elim_none]
      rw [finish_reserved h.idle htoken o.now hnext hd hshort hshort (.inl rfl) (fun _ => rfl)]
      exact ⟨_, rfl, .inr ⟨trivial, rfl⟩⟩
    | some code =>
      simp only [elim_some]
      rw [finish_reserved h.idle htoken o.now hnext hd code.2.2 hshort (.inr rfl) (fun _ => rfl),
        if_pos code.2.1]
      exact ⟨_, rfl, .inl ⟨rfl, rfl, _, rfl, rfl, rfl⟩⟩
  · simp only [work, hreserve, Outcome.code, Outcome.sealVersion]
    cases hver : o.verification with
    | inl code =>
      simp only [Sum.elim_inl]
      rw [finish_reserved h.idle htoken o.now hnext hd code.2.2 hshort (.inr rfl) (fun _ => rfl),
        if_pos code.2.1]
      exact ⟨_, rfl, .inl ⟨rfl, rfl, _, rfl, rfl, rfl⟩⟩
    | inr version =>
      simp only [Sum.elim_inr]
      rw [finish_reserved h.idle htoken o.now hnext hd hshort version.2.2 (.inl rfl)
        (fun hne => absurd rfl hne),
        if_neg (not_not_intro rfl), if_neg (by decide), if_neg version.2.1]
      exact ⟨_, rfl, .inl ⟨rfl, rfl, _, rfl, rfl, rfl⟩⟩

theorem work_refused {e : Err} (h : s.reserve task = (s, .error e)) (o : Outcome) :
    s.work task o = none := by
  rw [work, h]

/-- **A turn.** One task is granted; its date is settled, or organized where it was not. -/
theorem turn_granted (h : Open s) (horganization : s.settings.organization = true)
    (htoken : s.nextToken ≠ maxUint64)
    (hnext : s.nextDate ≠ "") (hd : s.days.lookup s.nextDate = some d) (o : Outcome) :
    s.Granted ∧ ∃ d', s.turn o = some (s.advance s.nextDate d') ∧
      (Settles s.round d d' ∨
        (d.organizedRevision ≠ d.revision ∧ d' = {d with organizedRevision := d.revision})) := by
  by_cases horg : d.organizedRevision = d.revision
  · obtain ⟨e, he⟩ := reserve_refused hd (.inl ⟨rfl, horg⟩)
    have hok := reserve_granted h .verification h.verification htoken hnext hd (.inr ⟨rfl, horg⟩)
    obtain ⟨d', hwork, hd'⟩ := work_granted h .verification h.verification htoken hnext hd
      (.inr ⟨rfl, horg⟩) o
    refine ⟨⟨_, nextDate_isLeast hnext, .inr ⟨by rw [hok], e, by rw [he]⟩⟩, d', ?_, .inl ?_⟩
    · rw [turn, work_refused he, hwork]
      rfl
    · rcases hd' with hd' | ⟨htask, -⟩
      · exact hd'
      · cases htask
  · obtain ⟨e, he⟩ := reserve_refused hd (.inr ⟨rfl, horg⟩)
    have hok := reserve_granted h .organization horganization htoken hnext hd (.inl ⟨rfl, horg⟩)
    obtain ⟨d', hwork, hd'⟩ := work_granted h .organization horganization htoken hnext hd
      (.inl ⟨rfl, horg⟩) o
    refine ⟨⟨_, nextDate_isLeast hnext, .inl ⟨by rw [hok], e, by rw [he]⟩⟩, d', ?_, ?_⟩
    · rw [turn, hwork]
      rfl
    · exact hd'.imp_right fun hd' => ⟨horg, hd'.2⟩

/-! ### What remains -/

theorem advance_lookup (s : State) (date date' : String) (d : Day) :
    (s.advance date d).days.lookup date' = if date' = date then some d
      else s.days.lookup date' := by
  show (s.days.insert date d).lookup date' = _
  split
  next h => rw [h, lookup_insert]
  next h => rw [lookup_insert_of_ne _ h]

theorem offers_advance_of_ne {date date' : String} (h : date' ≠ date) :
    (s.advance date d).offers date' = s.offers date' := by
  unfold offers
  rw [advance_lookup, if_neg h]
  rfl

variable {date : String}

theorem remaining_settled {d' : Day} (h : Settles s.round d d') :
    (s.advance date d').remaining = s.remaining.erase date := by
  obtain ⟨hrev, -, r, hr, hrevision, hround⟩ := h
  ext date'
  rw [mem_remaining, Finset.mem_erase, mem_remaining]
  by_cases hdate : date' = date
  · have hoff : (s.advance date d').offers date' = false := by
      unfold offers
      rw [advance_lookup, if_pos hdate]
      simp [hr, hrev, hrevision, advance, hround]
    rw [hoff]
    simp [hdate]
  · rw [offers_advance_of_ne hdate]
    simp [hdate]

theorem offers_organized (hd : s.days.lookup date = some d) (date' : String) :
    (s.advance date {d with organizedRevision := d.revision}).offers date' = s.offers date' := by
  by_cases hdate : date' = date
  · unfold offers
    rw [advance_lookup, if_pos hdate, hdate, hd]
    rfl
  · exact offers_advance_of_ne hdate

theorem remaining_organized (hd : s.days.lookup date = some d) :
    (s.advance date {d with organizedRevision := d.revision}).remaining = s.remaining := by
  ext date'
  rw [mem_remaining, mem_remaining, offers_organized hd]

/-- The turns that are left: two for a date, one for the next date if it is organized. -/
def State.turnsLeft (s : State) : Nat :=
  2 * s.remaining.card - if (s.days.lookup s.nextDate).any fun d =>
    d.organizedRevision == d.revision then 1 else 0

theorem turnsLeft_settled (hmem : s.nextDate ∈ s.remaining) {d' : Day} (h : Settles s.round d d') :
    (s.advance s.nextDate d').turnsLeft < s.turnsLeft := by
  have hcard := card_erase_of_mem hmem
  have hpos := card_pos.mpr ⟨_, hmem⟩
  unfold turnsLeft
  rw [remaining_settled h, hcard]
  split
  · split <;> omega
  · split <;> omega

theorem turnsLeft_organized (hmem : s.nextDate ∈ s.remaining)
    (hd : s.days.lookup s.nextDate = some d)
    (horg : d.organizedRevision ≠ d.revision) :
    (s.advance s.nextDate {d with organizedRevision := d.revision}).turnsLeft < s.turnsLeft := by
  have hpos := card_pos.mpr ⟨_, hmem⟩
  have hrem := remaining_organized hd
  have hnext : (s.advance s.nextDate {d with organizedRevision := d.revision}).nextDate =
    s.nextDate := by
    rw [nextDate, ← remaining, hrem]
    rfl
  unfold turnsLeft
  rw [hrem, hnext, advance_lookup, if_pos rfl, hd]
  simp only [any_some, beq_self_eq_true, if_true, beq_iff_eq, horg, if_false]
  omega

end Turn

/-! ### The whole round -/

/-- The round is done with the date: it has a result for the rows it has. -/
def State.Done (date : String) : Prop :=
  ∃ d, s.days.lookup date = some d ∧ d.collected = true ∧ ∃ r, d.result = some r ∧
    r.revision = d.revision

theorem State.Done.advance {s : State} {date date' : String} {d : Day} (h : s.Done date)
    (hne : date ≠ date') :
    (s.advance date' d).Done date := by
  obtain ⟨e, he, hrest⟩ := h
  exact ⟨e, by rw [advance_lookup, if_neg hne, he], hrest⟩

theorem State.Done.settled {s : State} {date : String} (h : s.Done date)
    (hmigrated : s.migrationDone = true) (hidle : s.active = ∅) :
    s.dayState date = .sealed ∨ s.dayState date = .blocked := by
  obtain ⟨d, hd, hcollected, r, hr, hrev⟩ := h
  have hworking : ∀ task, s.working task date d = false := by
    intro task
    rw [working, hidle]
    rfl
  have hfilter : d.result.filter (·.revision == d.revision) = some r := by simp [hr, hrev]
  simp only [dayState, hd, hcollected, hmigrated, hworking, hfilter]
  by_cases hseal : r.sealVersion = ""
  · simp [hseal]
  · simp [hseal]

theorem Open.advance {s : State} (h : Open s) (date : String) (d : Day) : Open (s.advance date d) :=
  ⟨h.schema, h.migrated, h.round, h.idle, h.verification⟩

/-- The run lemma, by induction on a bound of the turns that are left. -/
theorem drains (bound : Nat) {s : State} (h : Open s)
    (horganization : s.settings.organization = true)
    (hdates : ∀ date ∈ s.days.keys, date ≠ "") (hleft : s.turnsLeft ≤ bound)
    (htokens : s.nextToken.toNat + bound ≤ maxUint64.toNat)
    (outcomes : Nat → Outcome) :
    ∃ k ≤ bound, ∃ last, Drains s outcomes k last ∧ Open last ∧
      ∀ date, date ∈ s.remaining ∨ s.Done date → last.Done date := by
  induction bound generalizing s outcomes with
  | zero =>
    have hempty : s.remaining = ∅ := by
      rw [← card_eq_zero]
      unfold turnsLeft at hleft
      split at hleft <;> omega
    refine ⟨0, le_rfl, s, .done s outcomes ((nextDate_eq_empty hdates).mpr hempty), h,
      fun date hdate => ?_⟩
    rw [hempty] at hdate
    exact hdate.resolve_left (notMem_empty _)
  | succ bound ih =>
    by_cases hnext : s.nextDate = ""
    · refine ⟨0, Nat.zero_le _, s, .done s outcomes hnext, h, fun date hdate => ?_⟩
      rw [(nextDate_eq_empty hdates).mp hnext] at hdate
      exact hdate.resolve_left (notMem_empty _)
    · have hmem := (nextDate_isLeast hnext).1
      obtain ⟨d, hd, -, hcollected⟩ := offers_spec (nextDate_offers hnext)
      have htoken : s.nextToken ≠ maxUint64 := by
        rintro heq
        rw [heq] at htokens
        omega
      obtain ⟨hgranted, d', hturn, hd'⟩ := turn_granted h horganization htoken hnext hd (outcomes 0)
      have hless : (s.advance s.nextDate d').turnsLeft < s.turnsLeft := by
        rcases hd' with hd' | ⟨horg, rfl⟩
        · exact turnsLeft_settled hmem hd'
        · exact turnsLeft_organized hmem hd horg
      have hkeys : ∀ date ∈ (s.advance s.nextDate d').days.keys, date ≠ "" := by
        intro date hdate
        rw [advance, Finmap.keys_insert, Finset.mem_insert] at hdate
        rcases hdate with rfl | hdate
        · exact hnext
        · exact hdates date hdate
      have hnextToken : (s.advance s.nextDate d').nextToken.toNat + bound ≤ maxUint64.toNat := by
        show (s.nextToken + 1).toNat + bound ≤ _
        have hle := Nat.mod_le (s.nextToken.toNat + 1) (2 ^ 64)
        rw [UInt64.toNat_add]
        have hone : (1 : UInt64).toNat = 1 := rfl
        rw [hone]
        omega
      obtain ⟨k, hk, last, hdrains, hopen, hdone⟩ :=
        ih (h.advance _ _) horganization hkeys (by omega) hnextToken fun i => outcomes (i + 1)
      refine ⟨k + 1, by omega, last, .turn hnext hgranted hturn hdrains, hopen, fun date hdate =>
        hdone date ?_⟩
      by_cases hsame : date = s.nextDate
      · subst hsame
        rcases hd' with hd' | ⟨-, rfl⟩
        · obtain ⟨hrev, hcol, r, hr, hrevision, -⟩ := hd'
          exact .inr ⟨d', by rw [advance_lookup, if_pos rfl], hcol.trans hcollected, r, hr,
            hrevision.trans hrev.symm⟩
        · exact .inl (by rw [remaining_organized hd]; exact hmem)
      · rcases hdate with hdate | hdate
        · exact .inl
            (mem_remaining.mpr (by rw [offers_advance_of_ne hsame]; exact mem_remaining.mp hdate))
        · exact .inr (hdate.advance hsame)

/-! ### Collection and verification -/

/-- What the operations, new settings and the preparation of the schema make of `New`. -/
inductive Reached : State → Prop where
  | new (settings : Settings) : Reached (new settings)
  | call {s : State} (h : Reached s) (c : Call) : Reached (c.apply s).1
  | configure {s : State} (h : Reached s)
      (settings : Settings) : Reached {s with settings := settings}
  | schema {s : State} (h : Reached s) : Reached {s with schemaReady := true}

/-- A call leaves the round and its cutoff, unless it begins a round. -/
theorem call_round (c : Call) :
    ((c.apply s).1.round = s.round ∧ (c.apply s).1.cutoff = s.cutoff) ∨
      (c.apply s).1.round ≠ 0 := by
  cases c with
  | beginRound now location =>
    simp only [Call.apply, beginRound]
    split
    · exact .inl ⟨rfl, rfl⟩
    split
    · exact .inl ⟨rfl, rfl⟩
    rename_i hbegin
    split
    · exact .inl ⟨rfl, rfl⟩
    · right
      simp only [Bool.or_eq_true, beq_iff_eq, not_or] at hbegin
      have hmax := hbegin.2
      show s.round + 1 ≠ 0
      grind [maxUint64]
  | observeCommittedRows observed changed =>
    left
    simp only [Call.apply, observeCommittedRows_eq]
    split
    · have hframe := rowsObserved_frame s observed changed
      grind
    · exact ⟨rfl, rfl⟩
  | reserve task =>
    left
    cases hr : s.reserve task with
    | mk s' r =>
      simp only [Call.apply, hr]
      cases r with
      | error e => exact ⟨by rw [reserve_error hr], by rw [reserve_error hr]⟩
      | ok w =>
        obtain ⟨-, -, -, -, -, -, -, rfl⟩ := reserve_spec hr
        exact ⟨rfl, rfl⟩
  | finish work code sealVersion now =>
    left
    cases hf : s.finish work code sealVersion now with
    | mk s' e =>
      simp only [Call.apply, hf]
      cases e with
      | some e => exact ⟨by rw [finish_error hf], by rw [finish_error hf]⟩
      | none =>
        obtain ⟨-, hfin⟩ := finish_spec hf
        cases hfin with
        | failed | organized | sealed | migrated | undated => exact ⟨rfl, rfl⟩
  | release work =>
    left
    simp only [Call.apply, release]
    split
    · exact ⟨rfl, rfl⟩
    · exact ⟨rfl, rfl⟩
  | recoverAfterFence => exact .inl ⟨rfl, rfl⟩

theorem Reached.cutoff {s : State} (h : Reached s) : s.round = 0 → s.cutoff = "" := by
  induction h with
  | new settings => exact fun _ => rfl
  | call h c ih =>
    intro hround
    rcases call_round _ c with ⟨hr, hc⟩ | hne
    · exact hc.trans (ih (hr ▸ hround))
    · exact absurd hround hne
  | configure h settings ih => exact ih
  | schema h ih => exact ih

theorem empty_lt {text : String} (h : text ≠ "") : "" < text := by
  rw [String.lt_iff_toList_lt]
  cases hl : text.toList with
  | nil => exact absurd (String.toList_eq_nil_iff.mp hl) h
  | cons c rest => exact List.nil_lt_cons c rest

/-- A collection that is refused waits for a verification that is granted. -/
theorem collection_refused {s : State} (hcutoff : s.round = 0 → s.cutoff = "")
    (hschema : s.schemaReady = true) (hidle : s.active = ∅)
    (hcollection : s.settings.collection = true) (htoken : s.nextToken ≠ maxUint64) {e : Err}
    (hrefused : (s.reserve .collection).2 = .error e) :
    Open s ∧ s.nextDate ≠ "" ∧ ∃ d, s.days.lookup s.nextDate = some d ∧
      d.organizedRevision = d.revision := by
  have hnone : ∀ t : Task, t ∉ s.active := fun t => by
    rw [hidle]
    exact notMem_empty
  have hwaits : (s.nextDate != "" && s.migrationDone && s.settings.verification &&
      (s.days.lookup s.nextDate).any (fun d => d.organizedRevision == d.revision)) = true := by
    by_contra hfree
    rw [Bool.not_eq_true] at hfree
    rw [reserve] at hrefused
    simp [Settings.enabled, hcollection, hschema, hnone, htoken, reserveTask, hfree] at hrefused
  simp only [Bool.and_eq_true, bne_iff_ne, any_eq_true, beq_iff_eq] at hwaits
  obtain ⟨⟨⟨hnext, hmigrated⟩, hverification⟩, d, hd, horg⟩ := hwaits
  refine ⟨⟨hschema, hmigrated, ?_, hidle, hverification⟩, hnext, d, hd, horg⟩
  -- No date is at or before an empty cutoff.
  intro hround
  obtain ⟨e, he, hcut, -⟩ := offers_spec (nextDate_offers hnext)
  rw [hcutoff hround] at hcut
  exact hcut (empty_lt hnext)

theorem Drains.nextDate {s last : State} {outcomes : Nat → Outcome} {k : Nat}
    (h : Drains s outcomes k last) : last.nextDate = "" := by
  induction h with
  | done s outcomes hnext => exact hnext
  | turn _ _ _ _ ih => exact ih

/-- **A round drains.** With two tokens for every date that remains, and whatever comes
of the works, the turns end: while there is a next date exactly one of organization and
verification is granted, for the earliest date, and after at most two turns a date each
of them is sealed or blocked. Between works, a collection is refused only for a
verification that is granted, and that takes its date off the round. -/
theorem round_drains :
    (∀ s : State, s.validate = none → s.schemaReady = true → s.migrationDone = true → s.round ≠ 0 →
      s.active = ∅ →
      s.settings.organization = true → s.settings.verification = true →
      s.nextToken.toNat + 2 * s.remaining.card ≤ maxUint64.toNat → ∀ outcomes : Nat → Outcome,
        ∃ k ≤ 2 * s.remaining.card, ∃ last, Drains s outcomes k last ∧ last.nextDate = "" ∧
          ∀ date ∈ s.remaining, last.dayState date = .sealed ∨ last.dayState date = .blocked) ∧
    ∀ s : State, Reached s → s.schemaReady = true → s.active = ∅ → s.settings.collection = true →
      s.nextToken ≠ maxUint64 →
      ∀ e, (s.reserve .collection).2 = .error e →
        s.nextDate ≠ "" ∧ (∃ w, (s.reserve .verification).2 = .ok w ∧ w.date = s.nextDate) ∧
          ∀ o, ∃ s', s.work .verification o = some s' ∧
            s'.remaining = s.remaining.erase s.nextDate := by
  constructor
  · intro s hvalid hschema hmigrated hround hidle horganization hverification htokens outcomes
    have hv := (validate_iff s).mp hvalid
    have hdates : ∀ date ∈ s.days.keys, date ≠ "" := by
      intro date hdate
      obtain ⟨d, hd⟩ := mem_iff.mp (mem_keys.mp hdate)
      exact validDate_ne_empty (hv.date hd)
    have hleft : s.turnsLeft ≤ 2 * s.remaining.card := Nat.sub_le _ _
    obtain ⟨k, hk, last, hdrains, hopen, hdone⟩ :=
      drains _ ⟨hschema, hmigrated, hround, hidle,
        hverification⟩ horganization hdates hleft htokens outcomes
    refine ⟨k, hk, last, hdrains, hdrains.nextDate, fun date hdate => ?_⟩
    exact (hdone date (.inl hdate)).settled hopen.migrated hopen.idle
  · intro s hreached hschema hidle hcollection htoken e hrefused
    obtain ⟨hopen, hnext, d, hd, horg⟩ :=
      collection_refused hreached.cutoff hschema hidle hcollection htoken hrefused
    refine ⟨hnext,
      ⟨_, by rw [reserve_granted hopen .verification hopen.verification htoken hnext hd
        (.inr ⟨rfl, horg⟩)], rfl⟩, fun o => ?_⟩
    obtain ⟨d', hwork, hd'⟩ := work_granted hopen .verification hopen.verification htoken hnext hd
      (.inr ⟨rfl, horg⟩) o
    refine ⟨_, hwork, ?_⟩
    rcases hd' with hd' | ⟨htask, -⟩
    · exact remaining_settled hd'
    · cases htask

theorem Reached.runCalls {s : State} (h : Reached s) (calls : List Call) :
    Reached (s.runCalls calls) := by
  induction calls generalizing s with
  | nil => exact h
  | cons c rest ih => exact ih (.call h c)

/-- Three days are collected, the round reaches the first two, and the first is organized. -/
def waitingRound : State :=
  ({new {migration := true, organization := true, verification := true, collection := true} with
    schemaReady := true} : State).runCalls
    [.observeCommittedRows ["2024-01-01", "2024-01-02", "2024-01-03"] ∅,
      .beginRound 1 (some ⟨fun _ => "2024-01-05"⟩),
      .reserve .migration, .finish ⟨1, .migration, "", 0⟩ "" "" ⟨1, Eq.refl false, Eq.refl true⟩,
      .reserve .organization,
      .finish ⟨2, .organization, "2024-01-01", 1⟩ "" "" ⟨1, Eq.refl false, Eq.refl true⟩]

theorem round_drains_two :
    (∃ k ≤ 4, ∃ last, Drains waitingRound (fun _ => ⟨none, .inr ⟨"v1", by decide⟩, ⟨1, rfl, rfl⟩⟩)
      k last ∧
      ∀ date ∈ ["2024-01-01", "2024-01-02"], last.dayState date = .sealed ∨
        last.dayState date = .blocked) ∧
    (waitingRound.reserve .collection).2 = .error .notReady ∧
    ∃ w, (waitingRound.reserve .verification).2 = .ok w ∧ w.date = waitingRound.nextDate := by
  have hremaining : waitingRound.remaining = {"2024-01-01", "2024-01-02"} := by decide
  obtain ⟨k, hk, last, hdrains, -, hdates⟩ := round_drains.1 waitingRound (by decide) (by decide)
    (by decide) (by decide) (by decide)
    (by decide) (by decide) (by rw [hremaining]; decide) fun _ => ⟨none, .inr ⟨"v1", by decide⟩,
      ⟨1, rfl, rfl⟩⟩
  rw [hremaining] at hk hdates
  have hrefused : (waitingRound.reserve .collection).2 = .error .notReady := by decide
  have hreached : Reached waitingRound := (Reached.schema (.new _)).runCalls _
  refine ⟨⟨k, hk, last, hdrains, fun date hdate => hdates date (by simpa using hdate)⟩,
    hrefused, ?_⟩
  exact (round_drains.2 waitingRound hreached (by decide) (by decide) (by decide)
    (by decide) _ hrefused).2.1

end ControlTower.Pipeline
