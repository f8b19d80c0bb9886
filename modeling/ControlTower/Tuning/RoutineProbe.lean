import ControlTower.Data.Reorder
import ControlTower.Go.Time
import Mathlib.Data.List.Induction

/-! Routine probes of one channel: numbered by start, settled in any order.

`nextSequence` numbers the starts; `folded` is how far the results have been added
to the streak in that order, and `pending` holds those that settled ahead of it. A
start that finds no slot settles at once as unknown. Every event but the heartbeat
looks for a fault before it folds. `settled` and `flight` are not in the source: all
results so far, and the requests whose result is still to come. -/
namespace ControlTower.Tuning.RoutineProbe
open Go Data List Function Reorder

inductive RoutineOutcome
  | unknown
  | healthy
  | error
  | slow
  deriving DecidableEq, Repr

structure RoutineStreak where
  slow : Nat
  errors : Nat
  healthy : Nat
  deriving DecidableEq, Repr

open RoutineStreak

structure RoutineResult where
  outcome : RoutineOutcome
  started : Time
  deriving DecidableEq, Repr

/-- The two limits of a policy that passed `validateContinuousRules`. -/
structure RoutineLimits where
  probeSlowLimit : Nat
  routineErrorLimit : Nat
  slow_pos : 1 ≤ probeSlowLimit
  error_pos : 1 ≤ routineErrorLimit

namespace RoutineStreak

def zero : RoutineStreak := ⟨0, 0, 0⟩

/-- An error does not prove that latency recovered: it leaves the slow results. -/
def add (s : RoutineStreak) (r : RoutineResult) : RoutineStreak :=
  match r.outcome with
  | .healthy => ⟨0, 0, s.healthy + 1⟩
  | .slow => ⟨s.slow + 1, s.errors, 0⟩
  | .error => ⟨s.slow, s.errors + 1, 0⟩
  | .unknown => zero

/-- What `add` returns. -/
def trips (limits : RoutineLimits) (s : RoutineStreak) : Bool :=
  decide (limits.probeSlowLimit ≤ s.slow) || decide (limits.routineErrorLimit ≤ s.errors)

end RoutineStreak

structure Runtime where
  nextSequence : Nat
  folded : Nat
  pending : Nat → Option RoutineResult
  streak : RoutineStreak
  lastPendingGap : Int
  settled : Nat → Option RoutineResult
  flight : Nat → Option Time

namespace Runtime

def start : Runtime where
  nextSequence := 0
  folded := 0
  pending _ := none
  streak := .zero
  lastPendingGap := -1
  settled _ := none
  flight _ := none

def buffer (s : Runtime) : Reorder.Buffer RoutineResult RoutineStreak := ⟨s.folded, s.pending, s.streak⟩

/-- `pending[sequence] = r`. -/
def settle (s : Runtime) (sequence : Nat) (r : RoutineResult) : Runtime :=
  { s with pending := Function.update s.pending sequence (some r)
           settled := Function.update s.settled sequence (some r) }

/-- `launch`. The slots decide whether a request is `acquired`. With too much evidence
unresolved one number stands for all starts that are missed. -/
def launch (maxPending : Nat) (s : Runtime) (started : Time) (acquired : Bool) : Runtime :=
  if maxPending ≤ s.nextSequence - s.folded then
    if s.lastPendingGap ≠ (s.nextSequence : Int) - 1 then
      { s.settle s.nextSequence ⟨.unknown, started⟩ with
        lastPendingGap := s.nextSequence, nextSequence := s.nextSequence + 1 }
    else s
  else if acquired then
    { s with flight := Function.update s.flight s.nextSequence (some started), nextSequence := s.nextSequence + 1 }
  else { s.settle s.nextSequence ⟨.unknown, started⟩ with nextSequence := s.nextSequence + 1 }

end Runtime

/-- A settled contiguous fault segment is sufficient evidence even while an earlier
request is pending. -/
def confirmedRoutineFault (limits : RoutineLimits) (pending : Nat → Option RoutineResult) (first till : Nat)
    (streak : RoutineStreak) : Option (RoutineStreak × Time) :=
  (Reorder.scan add (trips limits) .zero pending (till - first) first streak).map
    fun (fault, r) => (fault, r.started)

namespace Runtime

/-- The loop that folds. No result stands at `nextSequence`, so it ends there at the latest. -/
def fold (s : Runtime) : Runtime :=
  let b := Reorder.drain add (s.nextSequence - s.folded) s.buffer
  { s with folded := b.folded, pending := b.pending, streak := b.acc }

def fault (limits : RoutineLimits) (s : Runtime) : Option (RoutineStreak × Time) :=
  confirmedRoutineFault limits s.pending s.folded s.nextSequence s.streak

end Runtime

/-- What the loop selects. A settled error launches its replacement at the end of the
round, at `started` if a slot is free. -/
inductive Event
  | heartbeat
  | tick (started : Time) (acquired : Bool)
  | result (sequence : Nat) (outcome : RoutineOutcome) (started : Time) (acquired : Bool)

namespace Runtime

/-- A result comes once, from a request that was sent. -/
def Enabled (s : Runtime) : Event → Prop
  | .result sequence _ _ _ => (s.flight sequence).isSome
  | _ => True

/-- The state at the check. -/
def receive (maxPending : Nat) (s : Runtime) : Event → Runtime
  | .heartbeat => s
  | .tick started acquired => s.launch maxPending started acquired
  | .result sequence outcome _ _ =>
    { s.settle sequence ⟨outcome, (s.flight sequence).getD 0⟩ with
      flight := Function.update s.flight sequence none }

/-- What is passed to `consume`. -/
def consumed (limits : RoutineLimits) (maxPending : Nat) (s : Runtime) : Event → Option (RoutineStreak × Time)
  | .heartbeat => none
  | e => (s.receive maxPending e).fault limits

/-- One round of the loop that goes on. -/
def step (maxPending : Nat) (s : Runtime) : Event → Runtime
  | .heartbeat => s
  | .tick started acquired => (s.receive maxPending (.tick started acquired)).fold
  | .result sequence outcome started acquired =>
    let t := (s.receive maxPending (.result sequence outcome started acquired)).fold
    if outcome = .error then t.launch maxPending started acquired else t

end Runtime

/-- The states that the loop reaches without a call of `consume`. -/
inductive Unconsumed (limits : RoutineLimits) (maxPending : Nat) : Runtime → Prop
  | start : Unconsumed limits maxPending .start
  | step {s : Runtime} {e : Event} : Unconsumed limits maxPending s → s.Enabled e →
      s.consumed limits maxPending e = none → Unconsumed limits maxPending (s.step maxPending e)

/-! ### Streaks -/

namespace RoutineStreak
variable {limits : RoutineLimits}

def IsFault (r : RoutineResult) : Prop := r.outcome = .slow ∨ r.outcome = .error

theorem not_trips_of_zero {s : RoutineStreak} (hs : s.slow = 0) (he : s.errors = 0) : trips limits s = false := by
  have := limits.slow_pos
  have := limits.error_pos
  simp only [trips, hs, he, Bool.or_eq_false_iff, decide_eq_false_iff_not]
  omega

/-- Adding up results counts the faults at their end. -/
theorem fold_eq (rs : List RoutineResult) :
    ∃ before faults, rs = before ++ faults ∧ (∀ r ∈ faults, IsFault r) ∧
      (rs.foldl add zero).slow = (faults.foldl add zero).slow ∧
      (rs.foldl add zero).errors = (faults.foldl add zero).errors ∧
      (faults ≠ [] → rs.foldl add zero = faults.foldl add zero) := by
  induction rs using List.reverseRecOn with
  | nil => exact ⟨[], [], rfl, by simp, rfl, rfl, fun _ => rfl⟩
  | append_singleton rs r ih =>
    obtain ⟨before, faults, hrs, hfaults, hslow, herrors, -⟩ := ih
    have hfault : IsFault r → ∃ before faults, rs ++ [r] = before ++ faults ∧ (∀ r ∈ faults, IsFault r) ∧
        ((rs ++ [r]).foldl add zero).slow = (faults.foldl add zero).slow ∧
        ((rs ++ [r]).foldl add zero).errors = (faults.foldl add zero).errors ∧
        (faults ≠ [] → (rs ++ [r]).foldl add zero = faults.foldl add zero) := by
      intro hr
      have heq : (rs ++ [r]).foldl add zero = (faults ++ [r]).foldl add zero := by
        rw [foldl_append, foldl_append]
        rcases hr with hr | hr <;> simp [add, hr, hslow, herrors]
      refine ⟨before, faults ++ [r], by rw [hrs, append_assoc], ?_, by rw [heq], by rw [heq], fun _ => heq⟩
      intro q hq
      rcases mem_append.mp hq with hq | hq
      · exact hfaults q hq
      · rw [mem_singleton.mp hq]
        exact hr
    -- A healthy or unknown result leaves no fault to count.
    have hreset : r.outcome = .healthy ∨ r.outcome = .unknown → ∃ before faults, rs ++ [r] = before ++ faults ∧
        (∀ r ∈ faults, IsFault r) ∧ ((rs ++ [r]).foldl add zero).slow = (faults.foldl add zero).slow ∧
        ((rs ++ [r]).foldl add zero).errors = (faults.foldl add zero).errors ∧
        (faults ≠ [] → (rs ++ [r]).foldl add zero = faults.foldl add zero) := by
      intro hr
      refine ⟨rs ++ [r], [], by simp, by simp, ?_, ?_, fun h => absurd rfl h⟩ <;>
        rcases hr with hr | hr <;> simp [foldl_append, add, hr, zero]
    cases hr : r.outcome with
    | unknown => exact hreset (.inr hr)
    | healthy => exact hreset (.inl hr)
    | error => exact hfault (.inr hr)
    | slow => exact hfault (.inl hr)

/-- A streak that trips is the fold of the faults at the end. -/
theorem faults_of_trips {rs : List RoutineResult} (h : trips limits (rs.foldl add zero) = true) :
    ∃ before faults, rs = before ++ faults ∧ faults ≠ [] ∧ (∀ r ∈ faults, IsFault r) ∧
      rs.foldl add zero = faults.foldl add zero := by
  obtain ⟨before, faults, hrs, hfaults, hslow, herrors, heq⟩ := fold_eq rs
  have hne : faults ≠ [] := by
    rintro rfl
    rw [not_trips_of_zero hslow herrors] at h
    cases h
  exact ⟨before, faults, hrs, hne, hfaults, heq hne⟩

end RoutineStreak

/-! ### What every round keeps -/

/-- The buffer follows the results, and a request in flight has a number and no result. -/
structure Ordered (s : Runtime) : Prop where
  follows : Reorder.Follows add .zero s.buffer s.settled
  bound : ∀ i, s.nextSequence ≤ i → s.settled i = none
  flight : ∀ i, (s.flight i).isSome → i < s.nextSequence ∧ s.settled i = none

/-- No beginning of the results, in the order of the starts, trips up to number `n`. -/
abbrev QuietTo (limits : RoutineLimits) (s : Runtime) (n : Nat) : Prop :=
  Reorder.QuietTo add (trips limits) .zero s.settled n

namespace Ordered
variable {limits : RoutineLimits} {maxPending : Nat} {s : Runtime}

theorem start : Ordered .start where
  follows := ⟨⟨[], rfl, trivial, rfl⟩, fun _ _ => rfl⟩
  bound _ _ := rfl
  flight _ h := nomatch h

variable (h : Ordered s)
include h

/-- What has no result is not folded. -/
theorem folded_le {i : Nat} (hi : s.settled i = none) : s.folded ≤ i := by
  obtain ⟨read, hlen, hread, -⟩ := h.follows.read
  have hlen' : read.length = s.folded := hlen
  by_contra hlt
  have := hread.isSome (Nat.zero_le i) (by omega)
  rw [hi] at this
  cases this

theorem folded_le_next : s.folded ≤ s.nextSequence := h.folded_le (h.bound _ (Nat.le_refl _))

/-- A number without a result gets one. -/
theorem settle {i next : Nat} {r : RoutineResult} {flight : Nat → Option Time}
    (hi : s.settled i = none) (hnext : s.nextSequence ≤ next) (hin : i < next)
    (hflight : ∀ j, (flight j).isSome → j ≠ i ∧ (s.flight j).isSome) {gap : Int} :
    Ordered { s.settle i r with flight := flight, nextSequence := next, lastPendingGap := gap } where
  follows := h.follows.arrive (h.folded_le hi)
  bound j hj := by
    have hj' : next ≤ j := hj
    show Function.update s.settled i (some r) j = none
    rw [update_of_ne (by omega)]
    exact h.bound j (by omega)
  flight j hj := by
    obtain ⟨hne, hj'⟩ := hflight j hj
    obtain ⟨hlt, hnone⟩ := h.flight j hj'
    refine ⟨Nat.lt_of_lt_of_le hlt hnext, ?_⟩
    show Function.update s.settled i (some r) j = none
    rw [update_of_ne hne]
    exact hnone

omit h in
/-- A start settles its number at once as unknown, sends a request, or is not counted. -/
theorem launch_cases (maxPending : Nat) (s : Runtime) (started : Time) (acquired : Bool) :
    (∃ gap, s.launch maxPending started acquired =
      { s.settle s.nextSequence ⟨.unknown, started⟩ with
        flight := s.flight, nextSequence := s.nextSequence + 1, lastPendingGap := gap }) ∨
    s.launch maxPending started acquired =
      { s with flight := Function.update s.flight s.nextSequence (some started),
               nextSequence := s.nextSequence + 1 } ∨
    s.launch maxPending started acquired = s := by
  unfold Runtime.launch
  split
  · split
    · exact .inl ⟨s.nextSequence, rfl⟩
    · exact .inr (.inr rfl)
  · split
    · exact .inr (.inl rfl)
    · exact .inl ⟨s.lastPendingGap, rfl⟩

variable (maxPending) in
theorem launch (started : Time) (acquired : Bool) : Ordered (s.launch maxPending started acquired) := by
  have hfresh := h.bound s.nextSequence (Nat.le_refl _)
  obtain ⟨gap, heq⟩ | heq | heq := launch_cases maxPending s started acquired
  · rw [heq]
    refine h.settle hfresh (Nat.le_succ _) (Nat.lt_succ_self _) fun j hj => ⟨?_, hj⟩
    have := (h.flight j hj).1
    omega
  · rw [heq]
    refine ⟨h.follows, fun i hi => h.bound i (Nat.le_of_succ_le hi), fun i hi => ?_⟩
    by_cases hne : i = s.nextSequence
    · subst hne
      exact ⟨Nat.lt_succ_self _, hfresh⟩
    · have hi' : (s.flight i).isSome := by simpa [update_of_ne hne] using hi
      exact ⟨Nat.lt_succ_of_lt (h.flight i hi').1, (h.flight i hi').2⟩
  · rw [heq]
    exact h

theorem fold : Ordered s.fold :=
  ⟨drain_follows h.follows, h.bound, h.flight⟩

variable (maxPending) in
theorem receive {e : Event} (he : s.Enabled e) : Ordered (s.receive maxPending e) := by
  cases e with
  | heartbeat => exact h
  | tick started acquired => exact h.launch maxPending started acquired
  | result sequence outcome started acquired =>
    obtain ⟨hlt, hnone⟩ := h.flight sequence he
    refine h.settle hnone (Nat.le_refl _) hlt fun j hj => ?_
    by_cases hne : j = sequence
    · subst hne
      simp at hj
    · exact ⟨hne, by simpa [update_of_ne hne] using hj⟩

/-! ### What the check sees -/

variable (maxPending) in
theorem receive_quiet {e : Event} (he : s.Enabled e) (hq : ∀ n, QuietTo limits s n) :
    QuietTo limits (s.receive maxPending e) (s.receive maxPending e).folded := by
  cases e with
  | heartbeat => exact hq _
  | tick started acquired =>
    show QuietTo limits (s.launch maxPending started acquired) (s.launch maxPending started acquired).folded
    obtain ⟨gap, heq⟩ | heq | heq := launch_cases maxPending s started acquired
    · rw [heq]
      exact (hq s.folded).arrive h.folded_le_next
    · rw [heq]
      exact hq _
    · rw [heq]
      exact hq _
  | result sequence outcome started acquired =>
    exact (hq s.folded).arrive (h.folded_le (h.flight sequence he).2)

/-- **A check that finds no fault has seen all beginnings.** -/
theorem quiet_of_fault_none (hq : QuietTo limits s s.folded) (hf : s.fault limits = none)
    (n : Nat) : QuietTo limits s n := by
  refine scan_none h.follows hq (fun i hi => h.bound i ?_) (Option.map_eq_none_iff.mp hf) n
  have hi' : s.folded + (s.nextSequence - s.folded) ≤ i := hi
  have := h.folded_le_next
  omega

variable (maxPending) in
/-- A start that settles as unknown ends no streak that trips. -/
theorem launch_quiet (hq : ∀ n, QuietTo limits s n) (started : Time) (acquired : Bool) (n : Nat) :
    QuietTo limits (s.launch maxPending started acquired) n := by
  obtain ⟨gap, heq⟩ | heq | heq := launch_cases maxPending s started acquired
  · rw [heq]
    intro rs hne hl hs
    rcases Nat.lt_or_ge s.nextSequence rs.length with hlt | hle
    · obtain ⟨rs, r, rfl⟩ := eq_nil_or_concat rs |>.resolve_left hne
      rw [concat_eq_append] at hs hlt ⊢
      rw [length_append, length_singleton] at hlt
      have hlast : Function.update s.settled s.nextSequence (some ⟨.unknown, started⟩) (0 + rs.length) = some r :=
        hs.last
      have hlen : 0 + rs.length = s.nextSequence := by
        by_contra hlen
        rw [update_of_ne hlen, h.bound _ (by omega)] at hlast
        cases hlast
      rw [hlen, update_self] at hlast
      cases hlast
      rw [foldl_append]
      exact not_trips_of_zero rfl rfl
    · exact (hq s.nextSequence).arrive (Nat.le_refl _) rs hne hle hs
  · rw [heq]
    exact hq n
  · rw [heq]
    exact hq n

end Ordered

theorem unconsumed_ordered {limits : RoutineLimits} {maxPending : Nat} {s : Runtime}
    (h : Unconsumed limits maxPending s) : Ordered s ∧ ∀ n, QuietTo limits s n := by
  induction h with
  | start =>
    refine ⟨.start, fun n rs hne _ hs => ?_⟩
    cases rs with
    | nil => exact absurd rfl hne
    | cons r rs => exact nomatch hs.1
  | @step s e _ he hnone ih =>
    obtain ⟨ho, hq⟩ := ih
    have hr := ho.receive maxPending he
    have hquiet := ho.receive_quiet maxPending he hq
    cases e with
    | heartbeat => exact ⟨ho, hq⟩
    | tick started acquired => exact ⟨hr.fold, hr.quiet_of_fault_none hquiet hnone⟩
    | result sequence outcome started acquired =>
      have hfold := hr.fold
      have hfq := hr.quiet_of_fault_none hquiet hnone
      simp only [Runtime.step]
      split
      · exact ⟨hfold.launch maxPending started acquired, hfold.launch_quiet maxPending hfq started acquired⟩
      · exact ⟨hfold, hfq⟩

/-- **Detection does not depend on the order of completion.** The first call of
`consume` is for a block of faults that have all settled, nothing between them, with
the streak they add up to and the start of the last one. And as long as there was no
call, no beginning of the results in the order of the starts trips: the round in
which the last of them settles would have called. -/
theorem routine_fault_detection {limits : RoutineLimits} {maxPending : Nat} {s : Runtime}
    (h : Unconsumed limits maxPending s) :
    (∀ (e : Event) (fault : RoutineStreak) (startedAt : Time), s.Enabled e →
      s.consumed limits maxPending e = some (fault, startedAt) →
      ∃ first faults last, Reorder.Stands (s.receive maxPending e).settled first (faults ++ [last]) ∧
        (∀ r ∈ faults ++ [last], RoutineStreak.IsFault r) ∧
        fault = (faults ++ [last]).foldl add .zero ∧ fault.trips limits = true ∧
        startedAt = last.started) ∧
      ∀ rs, rs ≠ [] → Reorder.Stands s.settled 0 rs → (rs.foldl add .zero).trips limits = false := by
  obtain ⟨ho, hq⟩ := unconsumed_ordered h
  refine ⟨fun e fault startedAt he hc => ?_, fun rs hne hs => hq rs.length rs hne (Nat.le_refl _) hs⟩
  have hr := ho.receive maxPending he
  have hfault : (s.receive maxPending e).fault limits = some (fault, startedAt) := by
    cases e with
    | heartbeat => cases hc
    | tick started acquired => exact hc
    | result sequence outcome started acquired => exact hc
  obtain ⟨⟨f, r⟩, hscan, heq⟩ := Option.map_eq_some_iff.mp hfault
  cases heq
  obtain ⟨htrips, first, rs, hstands, hf⟩ := scan_block hr.follows hscan
  -- Only the faults at the end of the block count.
  rw [hf] at htrips
  obtain ⟨before, faults, hrs, hne, hfaults, hfold⟩ := faults_of_trips htrips
  obtain ⟨faults, last, rfl⟩ := eq_nil_or_concat faults |>.resolve_left hne
  rw [concat_eq_append] at hrs hfaults hfold
  have hlast : r = last := by
    have := congrArg List.getLast? hrs
    simpa using this
  rw [hrs, stands_append] at hstands
  refine ⟨first + before.length, faults, last, hstands.2, hfaults, hf.trans hfold, ?_, by rw [hlast]⟩
  rw [hf]
  exact htrips

/-- Slow results trip at two, errors at one. -/
def twoSlow : RoutineLimits := ⟨2, 1, by decide, by decide⟩

/-- Three requests in flight, the last of which has settled as slow. -/
def lastSlow : Runtime :=
  (((Runtime.start.step 9 (.tick 10 true)).step 9 (.tick 20 true)).step 9 (.tick 30 true)).step 9
    (.result 2 .slow 0 false)

/-- The second result settles as slow while the first is still out. -/
theorem routine_fault_detection_lastSlow :
    lastSlow.consumed twoSlow 9 (.result 1 .slow 0 false) = some (⟨2, 0, 0⟩, 30) ∧
      ∃ first faults last, Reorder.Stands (lastSlow.receive 9 (.result 1 .slow 0 false)).settled first
          (faults ++ [last]) ∧ (30 : Time) = last.started :=
  ⟨by decide, by
    have hreach : Unconsumed twoSlow 9 lastSlow :=
      .step (.step (.step (.step .start trivial (by decide)) trivial (by decide)) trivial (by decide))
        (by exact rfl) (by decide)
    obtain ⟨first, faults, last, hs, -, -, -, hstart⟩ :=
      (routine_fault_detection hreach).1 (.result 1 .slow 0 false) ⟨2, 0, 0⟩ 30 (by exact rfl) (by decide)
    exact ⟨first, faults, last, hs, hstart⟩⟩

end ControlTower.Tuning.RoutineProbe
