import ControlTower.Schedule.Week
import Mathlib.Data.List.Induction
import Mathlib.Order.Bounds.Defs

/-! The plan as a function of time.

The windows of a plan, repeated every week, say for every instant whether the channel
is on. `position` is right about that function at every instant: about its value, about
the next instant at which it changes and about the last one. The last one is lost only
where it lies before the zero time, which stands for none. -/
namespace ControlTower.Schedule
open Go List

/-- A Monday, 00:00 in Beijing. -/
def origin : Time := -(3 * dayLength) - beijing

/-- The Beijing minute of an instant, counted from that Monday. -/
def minuteAt (t : Time) : Int := (t - origin) / minuteLength

/-- The plan asks for the channel at an instant. -/
def Config.On (c : Config) (t : Time) : Prop := c.OnMinute (minuteAt t)

/-- The status is not what it was a nanosecond before. -/
def Config.Changes (c : Config) (t : Time) : Prop := ¬ (c.On t ↔ c.On (t - 1))

variable {c : Config}

/-! ### Instants and minutes -/

theorem onMinute_emod (minute : Int) : c.OnMinute (minute % weekMinutes) ↔ c.OnMinute minute := by
  simp only [Config.OnMinute, weekMinutes]
  refine exists_congr fun day => and_congr_right fun _ => exists_congr fun w => and_congr_right fun _ => ?_
  constructor
  · rintro ⟨week, hweek⟩
    exact ⟨week + minute / 10080, by omega⟩
  · rintro ⟨week, hweek⟩
    exact ⟨week - minute / 10080, by omega⟩

theorem Config.Normal.on_iff (h : c.Normal) (minute : Int) : c.OnMinute minute ↔ Covered c.weekIntervals (minute % weekMinutes) := by
  rw [← onMinute_emod]
  exact ((h.weekIntervals).2 _ ⟨Int.emod_nonneg _ (by decide), Int.emod_lt_of_pos _ (by decide)⟩).symm

/-- The instant at a minute of the week, in a week counted from the origin. -/
def instantAt (week minute : Int) : Time := origin + (minute + week * weekMinutes) * minuteLength

theorem minuteAt_instantAt (week minute : Int) : minuteAt (instantAt week minute) = minute + week * weekMinutes := by
  simp only [minuteAt, instantAt, origin, minuteLength, dayLength, beijing, weekMinutes]
  omega

theorem minuteAt_instantAt_pred (week minute : Int) : minuteAt (instantAt week minute - 1) = minute - 1 + week * weekMinutes := by
  simp only [minuteAt, instantAt, origin, minuteLength, dayLength, beijing, weekMinutes]
  omega

theorem instantAt_minuteAt {t : Time} (h : minuteAt t ≠ minuteAt (t - 1)) :
    t = instantAt (minuteAt t / weekMinutes) (minuteAt t % weekMinutes) := by
  have hweek : minuteAt t % weekMinutes + minuteAt t / weekMinutes * weekMinutes = minuteAt t := by
    simp only [weekMinutes]
    omega
  rw [instantAt, hweek]
  simp only [Time, minuteAt, origin, minuteLength, dayLength, beijing] at *
  omega

/-- The status from an instant of the week on. -/
theorem Config.Normal.on_instantAt (h : c.Normal) {minute : Int} (hminute : 0 ≤ minute ∧ minute < weekMinutes) (week : Int) :
    c.On (instantAt week minute) ↔ Covered c.weekIntervals minute := by
  rw [Config.On, minuteAt_instantAt, h.on_iff, Int.add_mul_emod_self_right, Int.emod_eq_of_lt hminute.1 hminute.2]

/-- **The status changes at the boundaries of every week, and nowhere else.** -/
theorem Config.Normal.changes_iff (h : c.Normal) {t : Time} :
    c.Changes t ↔ ∃ b ∈ boundaries c.weekIntervals, ∃ week, t = instantAt week b.1 := by
  have hedge : ∀ week minute, 0 ≤ minute ∧ minute < weekMinutes →
      (c.Changes (instantAt week minute) ↔ ¬ (Covered c.weekIntervals minute ↔ Covered c.weekIntervals ((minute - 1) % weekMinutes))) := by
    intro week minute hminute
    rw [Config.Changes, h.on_instantAt hminute, Config.On, minuteAt_instantAt_pred, h.on_iff, Int.add_mul_emod_self_right]
  constructor
  · intro hchanges
    have hminute : minuteAt t ≠ minuteAt (t - 1) := by
      intro hsame
      rw [Config.Changes, Config.On, Config.On, hsame] at hchanges
      exact hchanges Iff.rfl
    have hrange : 0 ≤ minuteAt t % weekMinutes ∧ minuteAt t % weekMinutes < weekMinutes :=
      ⟨Int.emod_nonneg _ (by decide), Int.emod_lt_of_pos _ (by decide)⟩
    have hinstant := instantAt_minuteAt hminute
    rw [hinstant, hedge _ _ hrange] at hchanges
    by_cases hon : Covered c.weekIntervals (minuteAt t % weekMinutes)
    · refine ⟨(minuteAt t % weekMinutes, 1), h.weekIntervals.1.mem_boundaries.mpr ⟨hrange, .inl ⟨rfl, hon, ?_⟩⟩, _, hinstant⟩
      exact fun hbefore => hchanges (iff_of_true hon hbefore)
    · refine ⟨(minuteAt t % weekMinutes, 2), h.weekIntervals.1.mem_boundaries.mpr ⟨hrange, .inr ⟨rfl, hon, ?_⟩⟩, _, hinstant⟩
      exact not_not.mp fun hbefore => hchanges (iff_of_false hon hbefore)
  · rintro ⟨⟨minute, status⟩, hb, week, rfl⟩
    obtain ⟨hminute, hstatus⟩ := h.weekIntervals.1.mem_boundaries.mp hb
    rw [hedge week minute hminute]
    rcases hstatus with ⟨-, hon, hbefore⟩ | ⟨-, hon, hbefore⟩
    · exact fun hiff => hbefore (hiff.mp hon)
    · exact fun hiff => hon (hiff.mpr hbefore)

/-! ### The last boundary and the next -/

/-- What the loop over the boundaries has found among the instants so far. -/
structure Passed (now : Time) (instants : List (Time × Int)) (p : Position) : Prop where
  zero_le : Time.zero ≤ p.boundary
  last_le : ∀ x ∈ instants, x.1 ≤ now → x.1 ≤ p.boundary
  boundary : p.boundary = Time.zero ∨ ∃ x ∈ instants, x.1 ≤ now ∧ p.boundary = x.1
  next_le : Time.zero ≤ now → ∀ x ∈ instants, now < x.1 → p.nextAt ≠ Time.zero ∧ p.nextAt ≤ x.1
  next : p.nextAt = Time.zero ∨ ∃ x ∈ instants, now < x.1 ∧ p.nextAt = x.1 ∧ p.nextStatus = x.2

theorem pass_eq (now : Time) (p : Position) (x : Time × Int) :
    p.pass now x = ⟨p.allowed, if x.1 ≤ now ∧ p.boundary < x.1 then x.1 else p.boundary,
      if now < x.1 ∧ (p.nextAt = Time.zero ∨ x.1 < p.nextAt) then x.1 else p.nextAt,
      if now < x.1 ∧ (p.nextAt = Time.zero ∨ x.1 < p.nextAt) then x.2 else p.nextStatus⟩ := by
  simp only [Position.pass, Time.isZero, not_lt, beq_iff_eq]
  split <;> split <;> rfl

variable {now : Time}

theorem Passed.pass {instants : List (Time × Int)} {p : Position} (h : Passed now instants p) (x : Time × Int) :
    Passed now (instants ++ [x]) (p.pass now x) := by
  obtain ⟨hzero, hlast, hboundary, hnextle, hnext⟩ := h
  rw [pass_eq]
  constructor
  · simp only
    split
    · next hlater => exact hzero.trans hlater.2.le
    · exact hzero
  · intro y hy hnow
    simp only
    rcases mem_append.mp hy with hy | hy
    · have := hlast y hy hnow
      split
      · next hlater => exact this.trans hlater.2.le
      · exact this
    · rw [mem_singleton.mp hy] at hnow ⊢
      split
      · exact le_rfl
      · next hearlier => exact not_lt.mp fun hlt => hearlier ⟨hnow, hlt⟩
  · simp only
    split
    · next hlater => exact .inr ⟨x, by simp, hlater.1, rfl⟩
    · refine hboundary.imp_right ?_
      rintro ⟨y, hy, hmem⟩
      exact ⟨y, mem_append_left _ hy, hmem⟩
  · intro hnonneg y hy hnow
    simp only
    split
    · next hsooner =>
      refine ⟨ne_of_gt (lt_of_le_of_lt hnonneg hsooner.1), ?_⟩
      rcases mem_append.mp hy with hy | hy
      · obtain ⟨hne, hle⟩ := hnextle hnonneg y hy hnow
        exact (hsooner.2.resolve_left hne).le.trans hle
      · rw [mem_singleton.mp hy]
    · next hlater =>
      rcases mem_append.mp hy with hy | hy
      · exact hnextle hnonneg y hy hnow
      · rw [mem_singleton.mp hy] at hnow ⊢
        rw [not_and, not_or] at hlater
        exact ⟨(hlater hnow).1, not_lt.mp (hlater hnow).2⟩
  · simp only
    split
    · next hsooner => exact .inr ⟨x, by simp, hsooner.1, rfl, rfl⟩
    · refine hnext.imp_right ?_
      rintro ⟨y, hy, hmem⟩
      exact ⟨y, mem_append_left _ hy, hmem⟩

theorem passed_foldl (now : Time) (allowed : Bool) (instants : List (Time × Int)) :
    Passed now instants (instants.foldl (Position.pass now) ⟨allowed, Time.zero, Time.zero, 0⟩) := by
  induction instants using List.reverseRecOn with
  | nil => exact ⟨le_rfl, by simp, .inl rfl, by simp, .inl rfl⟩
  | append_singleton instants x ih =>
    rw [foldl_append]
    exact ih.pass x

theorem foldl_pass_allowed (now : Time) (p : Position) (instants : List (Time × Int)) :
    (instants.foldl (Position.pass now) p).allowed = p.allowed := by
  induction instants generalizing p with
  | nil => rfl
  | cons x rest ih =>
    rw [foldl_cons, ih, pass_eq]

/-! ### The position -/

/-- The instants that the loop passes: those of the last, this and the next week. -/
def instants (c : Config) (now : Time) : List (Time × Int) :=
  (boundaries c.weekIntervals).flatMap fun b => [-1, 0, 1].map fun offset => (weekStart now + (b.1 + offset * weekMinutes) * minuteLength, b.2)

theorem position_eq (c : Config) (now : Time) :
    c.position now = (instants c now).foldl (Position.pass now)
      ⟨c.weekIntervals.any fun v => decide (v.start ≤ (now - weekStart now) / minuteLength ∧ (now - weekStart now) / minuteLength < v.stop),
        Time.zero, Time.zero, 0⟩ := rfl

theorem weekStart_eq (now : Time) : weekStart now = instantAt (minuteAt now / weekMinutes) 0 := by
  simp only [Time, weekStart, instantAt, minuteAt, origin, minuteLength, dayLength, beijing, weekMinutes]
  omega

theorem instant_eq (now : Time) (minute offset : Int) :
    weekStart now + (minute + offset * weekMinutes) * minuteLength = instantAt (minuteAt now / weekMinutes + offset) minute := by
  rw [weekStart_eq]
  generalize minuteAt now / weekMinutes = week
  simp only [Time, instantAt, minuteLength, weekMinutes]
  omega

variable {x : Time × Int}

theorem mem_instants :
    x ∈ instants c now ↔ ∃ b ∈ boundaries c.weekIntervals, ∃ offset ∈ ([-1, 0, 1] : List Int),
      (instantAt (minuteAt now / weekMinutes + offset) b.1, b.2) = x := by
  simp only [instants, mem_flatMap, mem_map, instant_eq]

theorem Config.Normal.changes_of_mem (h : c.Normal) (hx : x ∈ instants c now) : c.Changes x.1 := by
  obtain ⟨b, hb, offset, -, rfl⟩ := mem_instants.mp hx
  exact h.changes_iff.mpr ⟨b, hb, _, rfl⟩

theorem Config.Normal.status_of_mem (h : c.Normal) (hx : x ∈ instants c now) :
    x.2 = 1 ∧ c.On x.1 ∨ x.2 = 2 ∧ ¬ c.On x.1 := by
  obtain ⟨⟨minute, status⟩, hb, offset, -, rfl⟩ := mem_instants.mp hx
  obtain ⟨hminute, hstatus⟩ := h.weekIntervals.1.mem_boundaries.mp hb
  simp only [h.on_instantAt hminute]
  exact hstatus.imp (fun hon => ⟨hon.1, hon.2.1⟩) fun hoff => ⟨hoff.1, hoff.2.1⟩

theorem instantAt_succ (week minute : Int) : instantAt (week + 1) minute = instantAt week minute + 7 * dayLength := by
  simp only [Time, instantAt, minuteLength, weekMinutes, dayLength]
  omega

theorem instantAt_le_instantAt {week week' minute : Int} : instantAt week minute ≤ instantAt week' minute ↔ week ≤ week' := by
  simp only [Time, instantAt, minuteLength, weekMinutes]
  omega

/-- The loop sees, for every minute of the week, the last time it came and the next. -/
theorem exists_offset (now : Time) {minute : Int} (hminute : 0 ≤ minute ∧ minute < weekMinutes) :
    ∃ offset ∈ ([-1, 0] : List Int), instantAt (minuteAt now / weekMinutes + offset) minute ≤ now ∧
      now < instantAt (minuteAt now / weekMinutes + offset + 1) minute := by
  have hweek : instantAt (minuteAt now / weekMinutes) 0 ≤ now ∧ now < instantAt (minuteAt now / weekMinutes) 0 + 7 * dayLength := by
    simp only [Time, instantAt, minuteAt, origin, minuteLength, dayLength, beijing, weekMinutes]
    omega
  generalize minuteAt now / weekMinutes = week at hweek ⊢
  by_cases hpassed : instantAt week minute ≤ now
  · refine ⟨0, by simp, by rwa [Int.add_zero], ?_⟩
    simp only [Time, instantAt, minuteLength, weekMinutes, dayLength] at *
    omega
  · refine ⟨-1, by simp, ?_⟩
    simp only [Time, instantAt, minuteLength, weekMinutes, dayLength] at *
    omega

/-- Of the changes up to now, one that the loop sees is the latest. -/
theorem Config.Normal.exists_last (h : c.Normal) {now t : Time} (ht : c.Changes t) (hle : t ≤ now) :
    ∃ x ∈ instants c now, x.1 ≤ now ∧ t ≤ x.1 := by
  obtain ⟨b, hb, week, rfl⟩ := h.changes_iff.mp ht
  obtain ⟨offset, hoffset, hlast, hnext⟩ := exists_offset now (h.weekIntervals.1.mem_boundaries.mp hb).1
  refine ⟨_, mem_instants.mpr ⟨b, hb, offset, mem_append_left [1] hoffset, rfl⟩, hlast, ?_⟩
  rw [instantAt_le_instantAt]
  by_contra hlater
  exact absurd (hnext.trans_le (instantAt_le_instantAt.mpr (by omega : _ ≤ week))) (not_lt.mpr hle)

/-- Of the changes after now, one that the loop sees is the first. -/
theorem Config.Normal.exists_next (h : c.Normal) {now t : Time} (ht : c.Changes t) (hlt : now < t) :
    ∃ x ∈ instants c now, now < x.1 ∧ x.1 ≤ t := by
  obtain ⟨b, hb, week, rfl⟩ := h.changes_iff.mp ht
  obtain ⟨offset, hoffset, hlast, hnext⟩ := exists_offset now (h.weekIntervals.1.mem_boundaries.mp hb).1
  have hseen : offset + 1 ∈ ([-1, 0, 1] : List Int) := by
    simp only [mem_cons, not_mem_nil, or_false] at hoffset ⊢
    omega
  rw [Int.add_assoc] at hnext
  refine ⟨_, mem_instants.mpr ⟨b, hb, offset + 1, hseen, rfl⟩, hnext, ?_⟩
  rw [instantAt_le_instantAt]
  by_contra hearlier
  exact absurd (hlt.trans_le (instantAt_le_instantAt.mpr (by omega : week ≤ _))) (not_lt.mpr hlast)

/-- A plan that changes at all changes every week. -/
theorem Config.Normal.changes_weekly (h : c.Normal) {t : Time} (ht : c.Changes t) (now : Time) :
    ∃ t', now < t' + 7 * dayLength ∧ t' ≤ now ∧ c.Changes t' := by
  obtain ⟨b, hb, week, rfl⟩ := h.changes_iff.mp ht
  obtain ⟨offset, -, hlast, hnext⟩ := exists_offset now (h.weekIntervals.1.mem_boundaries.mp hb).1
  rw [instantAt_succ] at hnext
  exact ⟨_, hnext, hlast, h.changes_iff.mpr ⟨b, hb, _, rfl⟩⟩

theorem exists_changes (h : ¬ ∀ t t', c.On t ↔ c.On t') : ∃ t, c.Changes t := by
  by_contra hnone
  apply h
  have hstep : ∀ t : Int, c.On t ↔ c.On (t - 1) := fun t => not_not.mp fun hchange => hnone ⟨t, hchange⟩
  have hzero : ∀ t : Int, c.On t ↔ c.On (0 : Int) := by
    intro t
    induction t using Int.induction_on with
    | zero => exact Iff.rfl
    | succ n ih => rw [hstep, Int.add_sub_cancel, ih]
    | pred n ih => rw [← hstep, ih]
  exact fun t t' => (hzero t).trans (hzero t').symm

theorem Config.Normal.allowed_iff (h : c.Normal) (now : Time) : (c.position now).allowed = true ↔ c.On now := by
  have hminute : (now - weekStart now) / minuteLength = minuteAt now % weekMinutes := by
    rw [weekStart_eq]
    simp only [Time, instantAt, minuteAt, origin, minuteLength, dayLength, beijing, weekMinutes]
    omega
  rw [position_eq, foldl_pass_allowed, hminute, Config.On, h.on_iff]
  simp only [any_eq_true, decide_eq_true_eq]
  rfl

/-- The next change and the last one are right. -/
structure Config.Exact (c : Config) (now : Time) (p : Position) : Prop where
  next : IsLeast {t | now < t ∧ c.Changes t} p.nextAt
  status : p.nextStatus = 1 ∧ c.On p.nextAt ∨ p.nextStatus = 2 ∧ ¬ c.On p.nextAt
  last : IsGreatest {t | t ≤ now ∧ c.Changes t} p.boundary

theorem Config.Normal.exact_iff (h : c.Normal) (now : Time) :
    c.Exact now (c.position now) ↔ ∃ t, Time.zero ≤ t ∧ t ≤ now ∧ c.Changes t := by
  have hpassed := passed_foldl now (c.weekIntervals.any fun v =>
    decide (v.start ≤ (now - weekStart now) / minuteLength ∧ (now - weekStart now) / minuteLength < v.stop)) (instants c now)
  rw [← position_eq] at hpassed
  constructor
  · intro hexact
    exact ⟨_, hpassed.zero_le, hexact.last.1⟩
  · rintro ⟨t, hzero, hle, ht⟩
    obtain ⟨last, hlast, hlastnow, hlastle⟩ := h.exists_last ht hle
    obtain ⟨t', hnext, ht'⟩ : ∃ t', now < t' ∧ c.Changes t' := by
      obtain ⟨t', hweek, hle', ht'⟩ := h.changes_weekly ht (now + 7 * dayLength)
      exact ⟨t', Int.lt_of_add_lt_add_right hweek, ht'⟩
    obtain ⟨next, hnextmem, hnextnow, -⟩ := h.exists_next ht' hnext
    have hnonneg : Time.zero ≤ now := hzero.trans hle
    -- the loop has found a next instant, since it has passed one
    obtain ⟨x, hx, hxnow, hxat, hxstatus⟩ := hpassed.next.resolve_left (hpassed.next_le hnonneg next hnextmem hnextnow).1
    have hboundary : (c.position now).boundary ≤ now ∧ c.Changes (c.position now).boundary := by
      rcases hpassed.boundary with hnone | ⟨y, hy, hynow, hyat⟩
      · have hsame : t = Time.zero := le_antisymm (hnone ▸ hlastle.trans (hpassed.last_le last hlast hlastnow)) hzero
        rw [hnone, ← hsame]
        exact ⟨hle, ht⟩
      · rw [hyat]
        exact ⟨hynow, h.changes_of_mem hy⟩
    refine ⟨⟨⟨hxat ▸ hxnow, hxat ▸ h.changes_of_mem hx⟩, ?_⟩, ?_, ⟨hboundary, ?_⟩⟩
    · rintro u ⟨hu, hchanges⟩
      obtain ⟨y, hy, hynow, hyle⟩ := h.exists_next hchanges hu
      exact (hpassed.next_le hnonneg y hy hynow).2.trans hyle
    · rw [hxat, hxstatus]
      exact h.status_of_mem hx
    · rintro u ⟨hu, hchanges⟩
      obtain ⟨y, hy, hynow, hyle⟩ := h.exists_last hchanges hu
      exact hyle.trans (hpassed.last_le y hy hynow)

/-- The position is right about a normalised plan: whether it asks for the channel, when
it last changed and when it changes next, at every instant a week or more after the zero
time, and before that exactly where the last change is not before the zero time. What
the preview shows are the same times, in windows that do not touch on the circle of the
week. -/
theorem position_exact {given c : Config} (hnormal : given.normalize = .ok c) (now : Time) :
    ((c.position now).allowed = true ↔ c.On now) ∧
    ((∀ t t', c.On t ↔ c.On t') → (c.position now).nextAt = Time.zero ∧ (c.position now).boundary = Time.zero) ∧
    ((¬ ∀ t t', c.On t ↔ c.On t') → Time.zero + 7 * dayLength ≤ now → c.Exact now (c.position now)) ∧
    (c.Exact now (c.position now) ↔ ∃ t, Time.zero ≤ t ∧ t ≤ now ∧ c.Changes t) ∧
    (c.preview now).windows.Pairwise Interval.Apart ∧
    ∀ minute, (∃ v ∈ (c.preview now).windows, v.CoversWeekly minute) ↔ c.OnMinute minute := by
  have h := Config.normal_of_normalize hnormal
  refine ⟨h.allowed_iff now, fun hconstant => ?_, fun hchanges hnow => ?_, h.exact_iff now, h.weekIntervals.1.joinWeekEnd_apart, fun minute => ?_⟩
  · have hnone : instants c now = [] := by
      refine eq_nil_iff_forall_not_mem.mpr fun x hx => ?_
      exact h.changes_of_mem hx (hconstant _ _)
    rw [position_eq, hnone]
    exact ⟨rfl, rfl⟩
  · obtain ⟨t, ht⟩ := exists_changes hchanges
    obtain ⟨t', hweek, hle, ht'⟩ := h.changes_weekly ht now
    exact (h.exact_iff now).mpr ⟨t', (Int.lt_of_add_lt_add_right (hnow.trans_lt hweek)).le, hle, ht'⟩
  · rw [h.on_iff]
    exact h.weekIntervals.1.joinWeekEnd_covers

/-- Mondays from nine to ten. -/
private def mondays : Config := ⟨true, [1], [⟨"09:00", "10:00"⟩], 0, false, none⟩

private theorem mondays_boundaries : boundaries mondays.weekIntervals = [(540, 1), (600, 2)] := by decide +kernel

private theorem mondays_normal : mondays.normalize = .ok mondays := by decide +kernel

/-- Fridays and Sundays at noon and over midnight, on Sundays past the end of the week. -/
private def nights : Config := ⟨true, [5, 7], [⟨"12:00", "13:00"⟩, ⟨"22:00", "02:00"⟩], 0, false, none⟩

private theorem nights_boundaries : boundaries nights.weekIntervals =
    [(120, 2), (6480, 1), (6540, 2), (7080, 1), (7320, 2), (9360, 1), (9420, 2), (9960, 1)] := by
  decide +kernel

private theorem nights_normal : nights.normalize = .ok nights := by decide +kernel

/-- At one on a Monday the channel is on since Sunday, and until two. -/
theorem position_exact_nights :
    let p := nights.position (instantAt 2827 60)
    p.allowed = true ∧ p.boundary = instantAt 2826 9960 ∧ p.nextAt = instantAt 2827 120 ∧
      nights.Exact (instantAt 2827 60) p ∧
      (nights.preview (instantAt 2827 60)).windows = [⟨6480, 6540⟩, ⟨7080, 7320⟩, ⟨9360, 9420⟩, ⟨9960, 10200⟩] := by
  have hexact := position_exact nights_normal (instantAt 2827 60)
  have hchanges : nights.Changes (instantAt 2826 9960) :=
    (Config.normal_of_normalize nights_normal).changes_iff.mpr
      ⟨(9960, 1), by rw [nights_boundaries]; decide, 2826, rfl⟩
  exact ⟨by decide +kernel, by decide +kernel, by decide +kernel,
    hexact.2.2.2.1.mpr ⟨instantAt 2826 9960, by decide +kernel, by decide +kernel, hchanges⟩, by decide +kernel⟩

/-- The zero time was a Monday, 08:00 in Beijing. The plan had last changed a week before,
at ten, but there its boundary is the zero time, at which nothing changed. -/
theorem boundary_lost_at_zero :
    mondays.normalize = .ok mondays ∧ mondays.Changes (instantAt (-102738) 600) ∧ instantAt (-102738) 600 < Time.zero ∧
      (mondays.position Time.zero).boundary = Time.zero ∧ ¬ mondays.Changes Time.zero := by
  have h := Config.normal_of_normalize mondays_normal
  refine ⟨mondays_normal, h.changes_iff.mpr ⟨(600, 2), by rw [mondays_boundaries]; decide, _, rfl⟩, by decide +kernel, by decide +kernel, ?_⟩
  intro hchanges
  obtain ⟨b, hb, week, hweek⟩ := h.changes_iff.mp hchanges
  rw [mondays_boundaries, mem_pair] at hb
  simp only [Time, Time.zero, instantAt, origin, minuteLength, dayLength, beijing, weekMinutes] at hweek
  rcases hb with rfl | rfl <;> simp only at hweek <;> omega

end ControlTower.Schedule
