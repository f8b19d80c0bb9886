import ControlTower.Schedule.Plan
import Mathlib.Data.List.Pairwise

/-! The merged intervals of a week.

However the windows of a plan overlap, touch or run past midnight and the end of the
week, what is merged of them is a list of intervals with a gap after each. The edges of
such a list are exactly the minutes at which its union begins or ends, once the week is
closed to a circle: the list may begin with the week and end with it, and then neither
is an edge. -/
namespace ControlTower.Schedule
open List

def Interval.Covers (v : Interval) (minute : Int) : Prop := v.start ≤ minute ∧ minute < v.stop

def Interval.InWeek (v : Interval) : Prop := 0 ≤ v.start ∧ v.start < v.stop ∧ v.stop ≤ weekMinutes

def Covered (l : List Interval) (minute : Int) : Prop := ∃ v ∈ l, v.Covers minute

/-- Intervals of the week, one after the other, with a gap after each. -/
structure Separated (l : List Interval) : Prop where
  inWeek : ∀ v ∈ l, v.InWeek
  apart : l.Pairwise fun a b => a.stop < b.start

/-! ### Merging -/

theorem separated_nil : Separated [] := ⟨by simp, List.Pairwise.nil⟩

variable {minute : Int}

theorem covered_append {l l' : List Interval} : Covered (l ++ l') minute ↔ Covered l minute ∨ Covered l' minute := by
  simp only [Covered, mem_append, or_and_right, exists_or]

variable {v : Interval}

theorem covered_singleton : Covered [v] minute ↔ v.Covers minute := by
  simp [Covered]

theorem Separated.concat {l : List Interval} :
    Separated (l ++ [v]) ↔ Separated l ∧ v.InWeek ∧ ∀ a ∈ l, a.stop < v.start := by
  constructor
  · rintro ⟨hweek, hapart⟩
    rw [pairwise_append] at hapart
    exact ⟨⟨fun a ha => hweek a (mem_append_left _ ha), hapart.1⟩, hweek v (by simp), fun a ha => hapart.2.2 a ha v (by simp)⟩
  · rintro ⟨⟨hweek, hapart⟩, hv, hgap⟩
    refine ⟨fun a ha => ?_, pairwise_append.mpr ⟨hapart, pairwise_singleton _ _, fun a ha b hb => ?_⟩⟩
    · rcases mem_append.mp ha with ha | ha
      · exact hweek a ha
      · exact mem_singleton.mp ha ▸ hv
    · exact mem_singleton.mp hb ▸ hgap a ha

/-- One more interval, which begins no earlier than those that are merged. -/
theorem Separated.merge {l : List Interval} (h : Separated l) (hv : v.InWeek) (hstart : ∀ a ∈ l, a.start ≤ v.start) :
    Separated (merge l v) ∧ (∀ a ∈ merge l v, a.start ≤ v.start) ∧ ∀ minute, Covered (merge l v) minute ↔ Covered l minute ∨ v.Covers minute := by
  rcases eq_nil_or_concat' l with rfl | ⟨l, last, rfl⟩
  · refine ⟨(Separated.concat (l := [])).mpr ⟨separated_nil, hv, by simp⟩, by simp [Schedule.merge], fun minute => ?_⟩
    simp [Schedule.merge, Covered]
  · obtain ⟨hl, hlast, hgap⟩ := Separated.concat.mp h
    have hlaststart := hstart last (by simp)
    simp only [Schedule.merge, List.getLast?_concat, dropLast_concat]
    split
    · next hafter =>
      refine ⟨Separated.concat.mpr ⟨h, hv, fun a ha => ?_⟩, fun a ha => ?_, fun minute => ?_⟩
      · rcases mem_append.mp ha with ha | ha
        · have := hgap a ha
          omega
        · exact mem_singleton.mp ha ▸ hafter
      · rcases mem_append.mp ha with ha | ha
        · exact hstart a ha
        · exact (mem_singleton.mp ha ▸ le_rfl)
      · rw [covered_append, covered_singleton]
    · split
      · next hlonger =>
        refine ⟨Separated.concat.mpr ⟨hl, ⟨hlast.1, by simp only; omega, hv.2.2⟩, hgap⟩, fun a ha => ?_, fun minute => ?_⟩
        · rcases mem_append.mp ha with ha | ha
          · exact hstart a (mem_append_left _ ha)
          · exact (mem_singleton.mp ha ▸ hlaststart)
        · rw [covered_append, covered_append, covered_singleton, covered_singleton, or_assoc]
          refine or_congr_right ?_
          simp only [Interval.Covers]
          omega
      · next hshorter =>
        refine ⟨h, hstart, fun minute => ?_⟩
        rw [covered_append, covered_singleton, or_assoc]
        refine or_congr_right ?_
        simp only [Interval.Covers]
        omega

theorem Separated.foldl_merge {l segments : List Interval} (h : Separated l) (hsegments : ∀ v ∈ segments, v.InWeek)
    (hsorted : segments.Pairwise fun a b => a.start ≤ b.start) (hstart : ∀ a ∈ l, ∀ v ∈ segments, a.start ≤ v.start) :
    Separated (segments.foldl Schedule.merge l) ∧
      ∀ minute, Covered (segments.foldl Schedule.merge l) minute ↔ Covered l minute ∨ Covered segments minute := by
  induction segments generalizing l with
  | nil => exact ⟨h, fun minute => by simp [Covered]⟩
  | cons v rest ih =>
    obtain ⟨hv, hrest⟩ := forall_mem_cons.mp hsegments
    obtain ⟨hfirst, hsorted⟩ := pairwise_cons.mp hsorted
    obtain ⟨hmerged, hmergedstart, hmergedcovered⟩ := h.merge hv fun a ha => hstart a ha v mem_cons_self
    obtain ⟨hseparated, hcovered⟩ := ih hmerged hrest hsorted fun a ha u hu => (hmergedstart a ha).trans (hfirst u hu)
    refine ⟨hseparated, fun minute => ?_⟩
    rw [foldl_cons, hcovered, hmergedcovered, or_assoc, ← singleton_append, covered_append (l := [v]), covered_singleton]

/-! ### The windows of a plan -/

def Window.startMinute (w : Window) : Int := (minuteOf w.start).toOption.getD 0

/-- A window that would end before it starts ends on the next day. -/
def Window.stopMinute (w : Window) : Int :=
  let stop := (minuteOf w.stop).toOption.getD 0
  if stop < w.startMinute then stop + 1440 else stop

/-- The plan asks for the channel at a minute, counted from a Monday: in some week, one of
its windows on one of its days. -/
def Config.OnMinute (c : Config) (minute : Int) : Prop :=
  ∃ day ∈ c.days, ∃ w ∈ c.windows, ∃ week : Int,
    w.startMinute + (day - 1) * 1440 + week * weekMinutes ≤ minute ∧ minute < w.stopMinute + (day - 1) * 1440 + week * weekMinutes

theorem minuteOf_range {value : String} (h : minuteOf value = .ok minute) : 0 ≤ minute ∧ minute < 1440 := by
  unfold minuteOf at h
  split at h
  · cases h
  · split at h
    · split at h
      · split at h
        · cases h
          omega
        · cases h
      · cases h
    · cases h

/-- What is left of a window after `Normalize`. -/
structure Window.Normal (w : Window) : Prop where
  start_nonneg : 0 ≤ w.startMinute
  start_lt : w.startMinute < 1440
  lt_stop : w.startMinute < w.stopMinute
  stop_lt : w.stopMinute < w.startMinute + 1440

theorem Window.normal_of_normalize {w w' : Window} (h : w'.normalize = .ok w) : w.Normal := by
  simp only [Window.normalize, bind, Except.bind] at h
  split at h
  · cases h
  · next start hstart =>
    split at h
    · cases h
    · next stop hstop =>
      split at h
      · cases h
      · next hne =>
        cases h
        have h₁ := minuteOf_range hstart
        have h₂ := minuteOf_range hstop
        constructor <;> simp only [Window.startMinute, Window.stopMinute, hstart, hstop, Except.toOption, Option.getD_some]
        · exact h₁.1
        · exact h₁.2
        all_goals split <;> omega

structure Config.Normal (c : Config) : Prop where
  days : ∀ day ∈ c.days, 1 ≤ day ∧ day ≤ 7
  windows : ∀ w ∈ c.windows, w.Normal

theorem normal_of_mapM {windows normalized : List Window} (h : windows.mapM Window.normalize = .ok normalized) :
    ∀ w ∈ normalized, w.Normal := by
  induction windows generalizing normalized with
  | nil =>
    cases h
    simp
  | cons w rest ih =>
    rw [mapM_cons] at h
    simp only [bind, Except.bind, pure, Except.pure] at h
    split at h
    · cases h
    · next w' hw =>
      split at h
      · cases h
      · next rest' hrest =>
        cases h
        exact forall_mem_cons.mpr ⟨Window.normal_of_normalize hw, ih hrest⟩

theorem Config.normal_of_normalize {c c' : Config} (h : c'.normalize = .ok c) : c.Normal := by
  unfold Config.normalize at h
  split at h
  · cases h
  · split at h
    · cases h
    · next hdays =>
      simp only [bind, Except.bind, pure, Except.pure] at h
      split at h
      · cases h
      · next windows hwindows =>
        cases h
        rw [not_or, not_not] at hdays
        exact ⟨fun day hday => hdays.1 day ((mem_insertionSort _).mp hday), normal_of_mapM hwindows⟩

theorem segments_eq (day : Int) (w : Window) :
    segments day w = if w.stopMinute + (day - 1) * 1440 > weekMinutes then
      [⟨0, w.stopMinute + (day - 1) * 1440 - weekMinutes⟩, ⟨w.startMinute + (day - 1) * 1440, weekMinutes⟩]
      else [⟨w.startMinute + (day - 1) * 1440, w.stopMinute + (day - 1) * 1440⟩] := rfl

theorem segments_inWeek {day : Int} (hday : 1 ≤ day ∧ day ≤ 7) {w : Window} (hw : w.Normal) : ∀ v ∈ segments day w, v.InWeek := by
  obtain ⟨h₁, h₂, h₃, h₄⟩ := hw
  intro v hv
  by_cases hpast : w.stopMinute + (day - 1) * 1440 > weekMinutes
  · rw [segments_eq, if_pos hpast, mem_pair] at hv
    simp only [weekMinutes] at hpast
    rcases hv with rfl | rfl <;> simp only [Interval.InWeek, weekMinutes] <;> omega
  · rw [segments_eq, if_neg hpast, mem_singleton] at hv
    simp only [weekMinutes] at hpast
    subst hv
    simp only [Interval.InWeek, weekMinutes]
    omega

/-- The segments of a window cover what it covers in some week. -/
theorem covered_segments {day : Int} (hday : 1 ≤ day ∧ day ≤ 7) {w : Window} (hw : w.Normal)
    (hminute : 0 ≤ minute ∧ minute < weekMinutes) :
    Covered (segments day w) minute ↔ ∃ week : Int,
      w.startMinute + (day - 1) * 1440 + week * weekMinutes ≤ minute ∧ minute < w.stopMinute + (day - 1) * 1440 + week * weekMinutes := by
  obtain ⟨h₁, h₂, h₃, h₄⟩ := hw
  have hweeks : (∃ week : Int, w.startMinute + (day - 1) * 1440 + week * weekMinutes ≤ minute ∧
      minute < w.stopMinute + (day - 1) * 1440 + week * weekMinutes) ↔
      (w.startMinute + (day - 1) * 1440 ≤ minute ∧ minute < w.stopMinute + (day - 1) * 1440) ∨
        minute < w.stopMinute + (day - 1) * 1440 - weekMinutes := by
    simp only [weekMinutes] at hminute ⊢
    constructor
    · rintro ⟨week, hweek⟩
      omega
    · rintro (h | h)
      · exact ⟨0, by omega⟩
      -- the part at the beginning of the week is of the week before
      · exact ⟨-1, by omega⟩
  rw [hweeks, segments_eq]
  by_cases hpast : w.stopMinute + (day - 1) * 1440 > weekMinutes
  · rw [if_pos hpast, ← singleton_append, covered_append, covered_singleton, covered_singleton]
    simp only [Interval.Covers, weekMinutes] at hpast hminute ⊢
    omega
  · rw [if_neg hpast, covered_singleton]
    simp only [Interval.Covers, weekMinutes] at hpast hminute ⊢
    omega

theorem Config.Normal.weekIntervals {c : Config} (h : c.Normal) :
    Separated c.weekIntervals ∧ ∀ minute, 0 ≤ minute ∧ minute < weekMinutes → (Covered c.weekIntervals minute ↔ c.OnMinute minute) := by
  have hperm := perm_insertionSort (fun a b : Interval => a.start ≤ b.start) (c.days.flatMap fun day => c.windows.flatMap (segments day))
  have hweek : ∀ v ∈ (c.days.flatMap fun day => c.windows.flatMap (segments day)).insertionSort fun a b => a.start ≤ b.start, v.InWeek := by
    intro v hv
    obtain ⟨day, hday, hv⟩ := mem_flatMap.mp (hperm.mem_iff.mp hv)
    obtain ⟨w, hw, hv⟩ := mem_flatMap.mp hv
    exact segments_inWeek (h.days day hday) (h.windows w hw) v hv
  obtain ⟨hseparated, hcovered⟩ := separated_nil.foldl_merge hweek (pairwise_insertionSort _ _) (by simp)
  refine ⟨hseparated, fun minute hminute => ?_⟩
  rw [Config.weekIntervals, hcovered]
  simp only [Covered, hperm.mem_iff, not_mem_nil, false_and, exists_false, false_or, mem_flatMap, Config.OnMinute]
  constructor
  · rintro ⟨v, ⟨day, hday, w, hw, hv⟩, hcovers⟩
    exact ⟨day, hday, w, hw, (covered_segments (h.days day hday) (h.windows w hw) hminute).mp ⟨v, hv, hcovers⟩⟩
  · rintro ⟨day, hday, w, hw, hweek⟩
    obtain ⟨v, hv, hcovers⟩ := (covered_segments (h.days day hday) (h.windows w hw) hminute).mpr hweek
    exact ⟨v, ⟨day, hday, w, hw, hv⟩, hcovers⟩

/-! ### Edges -/

variable {l : List Interval}

theorem Separated.apart_of_ne (h : Separated l) {a b : Interval} (ha : a ∈ l) (hb : b ∈ l) (hne : a ≠ b) :
    a.stop < b.start ∨ b.stop < a.start := by
  have hsymm : l.Pairwise fun a b => a.stop < b.start ∨ b.stop < a.start := h.apart.imp .inl
  have : Std.Symm fun a b : Interval => a.stop < b.start ∨ b.stop < a.start := ⟨fun _ _ => Or.symm⟩
  exact hsymm.forall ha hb hne

theorem Separated.not_covered_before (h : Separated l) (hv : v ∈ l) : ¬ Covered l (v.start - 1) := by
  rintro ⟨u, hu, hcovers⟩
  obtain ⟨h₁, h₂, -⟩ := h.inWeek v hv
  unfold Interval.Covers at hcovers
  by_cases huv : u = v
  · subst huv
    omega
  · have := h.apart_of_ne hu hv huv
    omega

theorem Separated.not_covered_stop (h : Separated l) (hv : v ∈ l) : ¬ Covered l v.stop := by
  rintro ⟨u, hu, hcovers⟩
  obtain ⟨h₁, h₂, -⟩ := h.inWeek v hv
  unfold Interval.Covers at hcovers
  by_cases huv : u = v
  · subst huv
    omega
  · have := h.apart_of_ne hu hv huv
    omega

theorem Separated.covered_start (h : Separated l) (hv : v ∈ l) : Covered l v.start :=
  ⟨v, hv, le_rfl, (h.inWeek v hv).2.1⟩

theorem Separated.covered_last (h : Separated l) (hv : v ∈ l) : Covered l (v.stop - 1) := by
  have := (h.inWeek v hv).2.1
  exact ⟨v, hv, by unfold Interval.Covers; omega⟩

/-- The first minute of the week is covered by an interval that begins with it. -/
theorem Separated.covered_zero (h : Separated l) : Covered l 0 ↔ ∃ v ∈ l, v.start = 0 := by
  constructor
  · rintro ⟨v, hv, hcovers⟩
    exact ⟨v, hv, le_antisymm hcovers.1 (h.inWeek v hv).1⟩
  · rintro ⟨v, hv, hstart⟩
    exact hstart ▸ h.covered_start hv

theorem Separated.covered_end (h : Separated l) : Covered l (weekMinutes - 1) ↔ ∃ v ∈ l, v.stop = weekMinutes := by
  constructor
  · rintro ⟨v, hv, hcovers⟩
    have := (h.inWeek v hv).2.2
    exact ⟨v, hv, by unfold Interval.Covers at hcovers; omega⟩
  · rintro ⟨v, hv, hstop⟩
    exact hstop ▸ h.covered_last hv

theorem Separated.head_start (h : Separated l) : l.head?.any (fun v => v.start = 0) = true ↔ ∃ v ∈ l, v.start = 0 := by
  cases l with
  | nil => simp
  | cons first rest =>
    simp only [List.head?_cons, Option.any_some, decide_eq_true_eq, exists_mem_cons_iff]
    refine ⟨.inl, fun hstart => hstart.resolve_right ?_⟩
    rintro ⟨v, hv, hzero⟩
    have hgap := (pairwise_cons.mp h.apart).1 v hv
    have := h.inWeek first mem_cons_self
    unfold Interval.InWeek at this
    omega

theorem Separated.last_stop (h : Separated l) : l.getLast?.any (fun v => v.stop = weekMinutes) = true ↔ ∃ v ∈ l, v.stop = weekMinutes := by
  rcases eq_nil_or_concat' l with rfl | ⟨l, last, rfl⟩
  · simp
  · obtain ⟨-, hlast, hgap⟩ := Separated.concat.mp h
    simp only [List.getLast?_concat, Option.any_some, decide_eq_true_eq]
    constructor
    · exact fun hstop => ⟨last, by simp, hstop⟩
    · rintro ⟨v, hv, hstop⟩
      rcases mem_append.mp hv with hv | hv
      · have := hgap v hv
        unfold Interval.InWeek at hlast
        omega
      · exact mem_singleton.mp hv ▸ hstop

/-- The status at a minute of the week differs from that of the minute before, on the
circle of the week; 1 is on, 2 is off. -/
def Edge (l : List Interval) (minute status : Int) : Prop :=
  (0 ≤ minute ∧ minute < weekMinutes) ∧
    (status = 1 ∧ Covered l minute ∧ ¬ Covered l ((minute - 1) % weekMinutes) ∨
      status = 2 ∧ ¬ Covered l minute ∧ Covered l ((minute - 1) % weekMinutes))

variable {minute status : Int}

/-- Within the week the edges are where intervals start and stop. -/
theorem Separated.edge_iff (h : Separated l) (hminute : 0 < minute) :
    Edge l minute status ↔ ∃ v ∈ l, v.start = minute ∧ status = 1 ∨ v.stop = minute ∧ minute < weekMinutes ∧ status = 2 := by
  constructor
  · rintro ⟨hweek, hedge⟩
    rw [Int.emod_eq_of_lt (by omega) (by omega)] at hedge
    rcases hedge with ⟨hstatus, ⟨v, hv, hcovers⟩, hbefore⟩ | ⟨hstatus, hoff, v, hv, hcovers⟩
    · refine ⟨v, hv, .inl ⟨?_, hstatus⟩⟩
      by_contra hne
      exact hbefore ⟨v, hv, by unfold Interval.Covers at *; omega⟩
    · refine ⟨v, hv, .inr ⟨?_, hweek.2, hstatus⟩⟩
      by_contra hne
      exact hoff ⟨v, hv, by unfold Interval.Covers at *; omega⟩
  · rintro ⟨v, hv, ⟨rfl, hstatus⟩ | ⟨rfl, hweek, hstatus⟩⟩
    · have hin := h.inWeek v hv
      unfold Interval.InWeek at hin
      refine ⟨by omega, .inl ⟨hstatus, h.covered_start hv, ?_⟩⟩
      rw [Int.emod_eq_of_lt (by omega) (by omega)]
      exact h.not_covered_before hv
    · refine ⟨by omega, .inr ⟨hstatus, h.not_covered_stop hv, ?_⟩⟩
      rw [Int.emod_eq_of_lt (by omega) (by omega)]
      exact h.covered_last hv

variable {status : Int}

/-- At the beginning of the week, one that starts with it or one that ends with it, not both. -/
theorem Separated.edge_zero_iff (h : Separated l) :
    Edge l 0 status ↔ status = 1 ∧ (∃ v ∈ l, v.start = 0) ∧ ¬ (∃ v ∈ l, v.stop = weekMinutes) ∨
      status = 2 ∧ ¬ (∃ v ∈ l, v.start = 0) ∧ ∃ v ∈ l, v.stop = weekMinutes := by
  have hbefore : (0 - 1) % weekMinutes = weekMinutes - 1 := by decide
  rw [Edge, hbefore, h.covered_zero, h.covered_end]
  exact and_iff_right ⟨le_rfl, by decide⟩

/-- An assignment keeps what has another minute, or the same status. -/
theorem mem_foldl_assign {pairs acc : List (Int × Int)}
    (hunique : ∀ status', (minute, status') ∈ pairs → status' = status) :
    (minute, status) ∈ pairs.foldl assign acc ↔ (minute, status) ∈ pairs ∨ (minute, status) ∈ acc := by
  induction pairs generalizing acc with
  | nil => simp
  | cons b rest ih =>
    rw [foldl_cons, ih fun status' hs => hunique status' (mem_cons_of_mem _ hs), mem_cons, or_assoc, or_left_comm]
    refine or_congr_right ?_
    simp only [assign, mem_append, mem_filter, mem_singleton, decide_not, Bool.not_eq_true', decide_eq_false_iff_not]
    constructor
    · rintro (h | h)
      · exact .inr h.1
      · exact .inl h
    · rintro (h | h)
      · exact .inr h
      · by_cases hb : minute = b.1
        · have hstatus := hunique b.2 (by rw [hb]; exact mem_cons_self)
          exact .inr (Prod.ext hb hstatus.symm)
        · exact .inl ⟨h, hb⟩

theorem foldl_assign_subset {pairs acc : List (Int × Int)} {b : Int × Int} (h : b ∈ pairs.foldl assign acc) : b ∈ pairs ∨ b ∈ acc := by
  induction pairs generalizing acc with
  | nil => exact .inr h
  | cons p rest ih =>
    rcases ih h with h | h
    · exact .inl (mem_cons_of_mem _ h)
    · rcases mem_append.mp h with h | h
      · exact .inr (mem_filter.mp h).1
      · exact .inl (mem_singleton.mp h ▸ mem_cons_self)

/-- What is assigned to the map of boundaries. -/
def edgePairs (l : List Interval) : List (Int × Int) := l.flatMap fun v => [(v.start, 1), (v.stop % weekMinutes, 2)]

theorem mem_edgePairs :
    (minute, status) ∈ edgePairs l ↔ ∃ v ∈ l, v.start = minute ∧ status = 1 ∨ v.stop % weekMinutes = minute ∧ status = 2 := by
  simp only [edgePairs, mem_flatMap, mem_pair, Prod.mk.injEq]
  exact exists_congr fun v => and_congr_right fun _ => by grind

/-- The pairs of a minute that has one status are what the map holds for it. -/
theorem mem_assigned {pairs : List (Int × Int)}
    (hunique : ∀ s s', (minute, s) ∈ pairs → (minute, s') ∈ pairs → s = s') :
    (minute, status) ∈ pairs.foldl assign [] ↔ (minute, status) ∈ pairs := by
  constructor
  · intro h
    simpa using foldl_assign_subset h
  · intro h
    exact (mem_foldl_assign fun s hs => hunique s status hs h).mpr (.inl h)

theorem Separated.stop_emod (h : Separated l) (hv : v ∈ l) :
    v.stop % weekMinutes = minute ↔ v.stop = minute ∧ minute < weekMinutes ∨ v.stop = weekMinutes ∧ minute = 0 := by
  have := h.inWeek v hv
  simp only [Interval.InWeek, weekMinutes] at this ⊢
  omega

theorem Separated.mem_edgePairs_zero (h : Separated l) :
    (0, status) ∈ edgePairs l ↔ (∃ v ∈ l, v.start = 0) ∧ status = 1 ∨ (∃ v ∈ l, v.stop = weekMinutes) ∧ status = 2 := by
  rw [mem_edgePairs, ← exists_and_right, ← exists_and_right, ← exists_or]
  refine exists_congr fun v => ?_
  by_cases hv : v ∈ l
  · have := h.inWeek v hv
    unfold Interval.InWeek at this
    rw [h.stop_emod hv]
    grind
  · simp [hv]

theorem Separated.mem_edgePairs_ne (h : Separated l) (hne : minute ≠ 0) :
    (minute, status) ∈ edgePairs l ↔ Edge l minute status := by
  rcases lt_or_gt_of_ne hne with hneg | hpos
  · rw [mem_edgePairs]
    constructor
    · rintro ⟨v, hv, hmem⟩
      have := h.inWeek v hv
      rw [h.stop_emod hv] at hmem
      unfold Interval.InWeek at this
      omega
    · intro hedge
      have := hedge.1.1
      omega
  · rw [mem_edgePairs, h.edge_iff hpos]
    refine exists_congr fun v => and_congr_right fun hv => ?_
    rw [h.stop_emod hv]
    grind

theorem Edge.status_eq {minute status status' : Int} (h : Edge l minute status) (h' : Edge l minute status') : status = status' := by
  obtain ⟨-, h⟩ := h
  obtain ⟨-, h'⟩ := h'
  grind

theorem boundaries_eq (l : List Interval) :
    boundaries l = if (l.head?.any (fun v => v.start = 0) && l.getLast?.any (fun v => v.stop = weekMinutes)) = true then
      ((edgePairs l).foldl assign []).filter fun e => e.1 ≠ 0 else (edgePairs l).foldl assign [] := rfl

/-- **The map of boundaries holds exactly the edges.** -/
theorem Separated.mem_boundaries (h : Separated l) : (minute, status) ∈ boundaries l ↔ Edge l minute status := by
  rw [boundaries_eq]
  simp only [Bool.and_eq_true, h.head_start, h.last_stop]
  rcases eq_or_ne minute 0 with rfl | hne
  · rw [h.edge_zero_iff]
    split
    · next hwraps =>
      -- the status goes on from the end of the week to its beginning
      simp [hwraps.1, hwraps.2]
    · next hwraps =>
      have hunique : ∀ s s', (0, s) ∈ edgePairs l → (0, s') ∈ edgePairs l → s = s' := by
        intro s s' hs hs'
        rw [h.mem_edgePairs_zero] at hs hs'
        grind
      rw [mem_assigned hunique, h.mem_edgePairs_zero]
      grind
  · have hunique : ∀ s s', (minute, s) ∈ edgePairs l → (minute, s') ∈ edgePairs l → s = s' := by
      intro s s' hs hs'
      exact ((h.mem_edgePairs_ne hne).mp hs).status_eq ((h.mem_edgePairs_ne hne).mp hs')
    rw [← h.mem_edgePairs_ne hne, ← mem_assigned hunique]
    split
    · simp [hne]
    · exact Iff.rfl

/-! ### The end of the week -/

/-- The minute lies in the interval, or at its end, in some week. -/
def Interval.Touches (v : Interval) (minute : Int) : Prop := ∃ week : Int, v.start ≤ minute - week * weekMinutes ∧ minute - week * weekMinutes ≤ v.stop

/-- The minute lies in the interval in some week. -/
def Interval.CoversWeekly (v : Interval) (minute : Int) : Prop := ∃ week : Int, v.Covers (minute - week * weekMinutes)

/-- No minute lies in both, or at the end of one of them. -/
def Interval.Apart (a b : Interval) : Prop := ∀ minute, ¬ (a.Touches minute ∧ b.Touches minute)

theorem Interval.apart_of_gaps {a b : Interval} (hgap : a.stop < b.start) (hround : b.stop < a.start + weekMinutes) : a.Apart b := by
  rintro minute ⟨⟨week, hweek⟩, week', hweek'⟩
  simp only [weekMinutes] at *
  omega

/-- Either the list begins and ends with the week, and the ends are joined, or it is shown
as it is. -/
theorem Separated.joinWeekEnd_cases (h : Separated l) :
    (∃ first middle last, l = first :: (middle ++ [last]) ∧ first.start = 0 ∧ last.stop = weekMinutes ∧
      joinWeekEnd l = middle ++ [⟨last.start, weekMinutes + first.stop⟩]) ∨
    (joinWeekEnd l = l ∧ l.Pairwise fun a b => ¬ (a.start = 0 ∧ b.stop = weekMinutes)) := by
  match l, h with
  | [], _ => exact .inr ⟨rfl, List.Pairwise.nil⟩
  | [v], _ => exact .inr ⟨by simp [joinWeekEnd], pairwise_singleton _ _⟩
  | first :: second :: rest, h =>
    obtain ⟨middle, last, hrest⟩ := (eq_nil_or_concat' (second :: rest)).resolve_left (cons_ne_nil _ _)
    rw [hrest] at h ⊢
    have hlast : (first :: (middle ++ [last])).getLast? = some last := by rw [← cons_append, List.getLast?_concat]
    have hstart := h.head_start
    have hstop := h.last_stop
    simp only [List.head?_cons, hlast, Option.any_some, decide_eq_true_eq] at hstart hstop
    by_cases hjoin : first.start = 0 ∧ last.stop = weekMinutes
    · refine .inl ⟨first, middle, last, rfl, hjoin.1, hjoin.2, ?_⟩
      simp [joinWeekEnd, hlast, hjoin.1, hjoin.2]
    · refine .inr ⟨?_, pairwise_iff_forall_sublist.mpr fun {a b} hab hround => ?_⟩
      · simp only [joinWeekEnd, List.head?_cons, hlast, hjoin, and_false, if_false]
      · have hmem := hab.subset
        exact hjoin ⟨hstart.mpr ⟨a, hmem (by simp), hround.1⟩, hstop.mpr ⟨b, hmem (by simp), hround.2⟩⟩

theorem Separated.joinWeekEnd_apart (h : Separated l) : (joinWeekEnd l).Pairwise Interval.Apart := by
  rcases h.joinWeekEnd_cases with ⟨first, middle, last, rfl, hstart, hstop, hjoined⟩ | ⟨hsame, hround⟩
  · rw [hjoined]
    obtain ⟨hfirst, happart⟩ := pairwise_cons.mp h.apart
    obtain ⟨hmiddle, -, hlast⟩ := pairwise_append.mp happart
    have hweek : ∀ v ∈ middle, v.InWeek := fun v hv => h.inWeek v (by simp [hv])
    have hfirstweek := h.inWeek first mem_cons_self
    unfold Interval.InWeek at hweek hfirstweek
    refine pairwise_append.mpr ⟨hmiddle.imp_of_mem fun {a b} ha hb hgap => ?_, pairwise_singleton _ _, fun a ha b hb => ?_⟩
    · have := hfirst a (by simp [ha])
      have := hweek b hb
      exact Interval.apart_of_gaps hgap (by omega)
    · rw [mem_singleton.mp hb]
      have := hfirst a (by simp [ha])
      exact Interval.apart_of_gaps (hlast a ha last (by simp)) (by simp only; omega)
  · rw [hsame]
    refine (h.apart.and hround).imp_of_mem fun {a b} ha hb hgap => ?_
    have ha := h.inWeek a ha
    have hb := h.inWeek b hb
    unfold Interval.InWeek at ha hb
    exact Interval.apart_of_gaps hgap.1 (by omega)

theorem Interval.coversWeekly_iff (hv : v.InWeek) : v.CoversWeekly minute ↔ v.Covers (minute % weekMinutes) := by
  simp only [Interval.InWeek, weekMinutes] at hv
  simp only [Interval.CoversWeekly, Interval.Covers, weekMinutes]
  constructor
  · rintro ⟨week, hweek⟩
    omega
  · intro h
    exact ⟨minute / 10080, by omega⟩

/-- The joined window covers what its two parts cover. -/
theorem Interval.coversWeekly_join {first last : Interval} (hstart : first.start = 0) (hstop : last.stop = weekMinutes)
    (hfirst : first.InWeek) (hlast : last.InWeek) (minute : Int) :
    (⟨last.start, weekMinutes + first.stop⟩ : Interval).CoversWeekly minute ↔ first.CoversWeekly minute ∨ last.CoversWeekly minute := by
  simp only [Interval.InWeek, weekMinutes] at hstop hfirst hlast
  simp only [Interval.CoversWeekly, Interval.Covers, weekMinutes]
  constructor
  · rintro ⟨week, hweek⟩
    by_cases hnext : minute - week * 10080 < 10080
    · exact .inr ⟨week, by omega⟩
    · exact .inl ⟨week + 1, by omega⟩
  · rintro (⟨week, hweek⟩ | ⟨week, hweek⟩)
    · exact ⟨week - 1, by omega⟩
    · exact ⟨week, by omega⟩

theorem Separated.joinWeekEnd_covers (h : Separated l) :
    (∃ v ∈ joinWeekEnd l, v.CoversWeekly minute) ↔ Covered l (minute % weekMinutes) := by
  have hall : Covered l (minute % weekMinutes) ↔ ∃ v ∈ l, v.CoversWeekly minute :=
    exists_congr fun v => and_congr_right fun hv => (Interval.coversWeekly_iff (h.inWeek v hv)).symm
  rw [hall]
  rcases h.joinWeekEnd_cases with ⟨first, middle, last, rfl, hstart, hstop, hjoined⟩ | ⟨hsame, -⟩
  · have hjoin := Interval.coversWeekly_join hstart hstop (h.inWeek first (by simp)) (h.inWeek last (by simp)) minute
    rw [hjoined]
    simp only [mem_append, mem_cons, not_mem_nil, or_false, or_and_right, exists_or, exists_eq_left, hjoin]
    exact or_left_comm
  · rw [hsame]

end ControlTower.Schedule
