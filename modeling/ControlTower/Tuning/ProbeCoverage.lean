import ControlTower.Data.Table
import ControlTower.Go.Time
import ControlTower.Tuning.Engine
import Mathlib.Data.List.Infix

/-! Coverage of the routine probes: what the scheduler did in each minute.

Every opportunity of a channel is sent or skipped for one reason and counted under
its minute. The buffer keeps the counts of this process, and a flush writes those
not saved yet as absolute values, 200 rows a statement; the table keeps the larger
value of each column, so a repeated or late statement does no harm. Entries leave
the buffer when they are too old, or when they are saved and their channel has moved
on to a later minute. -/
namespace ControlTower.Tuning.ProbeCoverage
open Go Data

/-- Why an opportunity was skipped; `admitted` is the empty reason. -/
inductive SkipReason
  | admitted
  | globalConcurrency
  | channelConcurrency
  | pendingEvidence
  deriving DecidableEq, Repr

structure RoutineDispatch where
  time : Time
  scheduled : Bool
  skipReason : SkipReason
  deriving DecidableEq

structure ProbeDispatchCounts where
  due : Nat
  sent : Nat
  globalLimited : Nat
  channelLimited : Nat
  evidenceLimited : Nat
  lastDueAt : Time
  lastSentAt : Option Time
  lastSkippedAt : Option Time
  deriving DecidableEq

/-- The five counters of a row. -/
inductive Column
  | due
  | sent
  | globalLimited
  | channelLimited
  | evidenceLimited
  deriving DecidableEq, Repr

/-- The column counts this dispatch. -/
def Column.counts : Column → RoutineDispatch → Bool
  | .due, _ => true
  | .sent, d => d.skipReason = .admitted
  | .globalLimited, d => d.skipReason = .globalConcurrency
  | .channelLimited, d => d.skipReason = .channelConcurrency
  | .evidenceLimited, d => d.skipReason = .pendingEvidence

namespace ProbeDispatchCounts

def zero : ProbeDispatchCounts := ⟨0, 0, 0, 0, 0, Time.zero, none, none⟩

variable (v : ProbeDispatchCounts)

def column : Column → Nat
  | .due => v.due
  | .sent => v.sent
  | .globalLimited => v.globalLimited
  | .channelLimited => v.channelLimited
  | .evidenceLimited => v.evidenceLimited

/-- Each opportunity is sent or skipped for exactly one reason. -/
def Balanced : Prop :=
  v.due = v.sent + v.globalLimited + v.channelLimited + v.evidenceLimited

instance (v : ProbeDispatchCounts) : Decidable v.Balanced := inferInstanceAs (Decidable (_ = _))

/-- One more opportunity, as `record` counts it. -/
def add (d : RoutineDispatch) : ProbeDispatchCounts :=
  let v := { v with due := v.due + 1, lastDueAt := d.time }
  match d.skipReason with
  | .globalConcurrency => { v with globalLimited := v.globalLimited + 1, lastSkippedAt := some d.time }
  | .channelConcurrency => { v with channelLimited := v.channelLimited + 1, lastSkippedAt := some d.time }
  | .pendingEvidence => { v with evidenceLimited := v.evidenceLimited + 1, lastSkippedAt := some d.time }
  | .admitted => { v with sent := v.sent + 1, lastSentAt := some d.time }

/-- A nullable time under `CASE WHEN old IS NULL THEN new ELSE GREATEST(old, COALESCE(new, old)) END`. -/
def laterTime : Option Time → Option Time → Option Time
  | none, new => new
  | some old, new => some (max old (new.getD old))

/-- `ON DUPLICATE KEY UPDATE`: the larger value of every column. -/
def merge (v w : ProbeDispatchCounts) : ProbeDispatchCounts where
  due := max v.due w.due
  sent := max v.sent w.sent
  globalLimited := max v.globalLimited w.globalLimited
  channelLimited := max v.channelLimited w.channelLimited
  evidenceLimited := max v.evidenceLimited w.evidenceLimited
  lastDueAt := max v.lastDueAt w.lastDueAt
  lastSentAt := laterTime v.lastSentAt w.lastSentAt
  lastSkippedAt := laterTime v.lastSkippedAt w.lastSkippedAt

@[simp] theorem column_zero (c : Column) : zero.column c = 0 := by
  cases c <;> rfl

theorem column_add (d : RoutineDispatch) (c : Column) :
    (v.add d).column c = v.column c + if c.counts d then 1 else 0 := by
  rcases d with ⟨t, s, r⟩
  cases c <;> cases r <;> simp [add, column, Column.counts]

@[simp] theorem column_merge (v w : ProbeDispatchCounts) (c : Column) :
    (v.merge w).column c = max (v.column c) (w.column c) := by
  cases c <;> rfl

theorem Balanced.add {v : ProbeDispatchCounts} (h : v.Balanced) (d : RoutineDispatch) : (v.add d).Balanced := by
  rcases d with ⟨t, s, r⟩
  cases r <;> simp [Balanced, ProbeDispatchCounts.add] at h ⊢ <;> omega

/-- Counters that count one list of dispatches are balanced. -/
theorem balanced_of_countP {v : ProbeDispatchCounts} {ds : List RoutineDispatch}
    (h : ∀ c, v.column c = ds.countP c.counts) : v.Balanced := by
  have hds : ds.countP Column.due.counts = ds.countP Column.sent.counts + ds.countP Column.globalLimited.counts +
      ds.countP Column.channelLimited.counts + ds.countP Column.evidenceLimited.counts := by
    clear h
    induction ds with
    | nil => rfl
    | cons d ds ih =>
      rcases d with ⟨t, s, r⟩
      cases r <;> simp [List.countP_cons, Column.counts] at ih ⊢ <;> omega
  simp only [← h] at hds
  exact hds

end ProbeDispatchCounts

/-- `minute` is the start of the minute in seconds since the epoch. -/
structure ProbeCoverageKey where
  channel : ChannelKey
  minute : Int
  scheduled : Bool
  deriving DecidableEq

namespace ProbeCoverageKey

/-- `stream.minute = 0`: the key without its minute. -/
def stream (k : ProbeCoverageKey) : ChannelKey × Bool := (k.channel, k.scheduled)

def bucketTime (k : ProbeCoverageKey) : Time := k.minute * 1000000000

end ProbeCoverageKey

def minuteOf (t : Time) : Int := t / 60000000000 * 60

theorem minuteOf_mono {t u : Time} (h : t ≤ u) : minuteOf t ≤ minuteOf u := by
  simp only [minuteOf, Time] at *
  omega

theorem minuteOf_nonneg {t : Time} (h : 0 ≤ t) : 0 ≤ minuteOf t := by
  simp only [minuteOf, Time] at *
  omega

def keyOf (channel : ChannelKey) (d : RoutineDispatch) : ProbeCoverageKey := ⟨channel, minuteOf d.time, d.scheduled⟩

def probeCoverageRetention : Int := 172800000000000

/-- The bucket is older than the retention. -/
def Expired (now : Time) (k : ProbeCoverageKey) : Prop := k.bucketTime < now - probeCoverageRetention

instance (now : Time) (k : ProbeCoverageKey) : Decidable (Expired now k) := inferInstanceAs (Decidable (_ < _))

theorem Expired.mono {now later : Time} {k : ProbeCoverageKey} (h : Expired now k) (hle : now ≤ later) : Expired later k := by
  simp only [Expired, Time] at *
  omega

structure ProbeCoverageBucket extends ProbeDispatchCounts where
  key : ProbeCoverageKey
  deriving DecidableEq

structure ProbeCoverageEntry extends ProbeCoverageBucket where
  saved : Nat
  deriving DecidableEq

abbrev Buffer := Table fun e : ProbeCoverageEntry => e.key

abbrev Stored := Table ProbeCoverageBucket.key

namespace Buffer

variable (b : Buffer)

def entry (k : ProbeCoverageKey) : ProbeCoverageEntry :=
  (b.find k).getD ⟨⟨.zero, k⟩, 0⟩

def record (channel : ChannelKey) (d : RoutineDispatch) : Buffer :=
  let v := entry b (keyOf channel d)
  b.put { v with toProbeDispatchCounts := v.toProbeDispatchCounts.add d, key := keyOf channel d }

/-- The latest minute of the stream in the buffer, from the zero value of the map upwards. -/
def latest (stream : ChannelKey × Bool) : Int :=
  (b.rows.filter fun e => e.key.stream = stream).foldl (fun m e => max m e.key.minute) 0

/-- Saved in full, and its stream has an entry of a later minute. -/
def Settled (e : ProbeCoverageEntry) : Prop := e.saved = e.due ∧ e.key.minute < latest b e.key.stream

instance (b : Buffer) (e : ProbeCoverageEntry) : Decidable (Settled b e) := inferInstanceAs (Decidable (_ ∧ _))

/-- The rows to write, in the order of the map. -/
def pending (now : Time) (b : Buffer) : List ProbeCoverageBucket :=
  (b.rows.filter fun e => ¬ Expired now e.key ∧ e.saved ≠ e.due).map ProbeCoverageEntry.toProbeCoverageBucket

/-- The buffer after a snapshot. -/
def swept (now : Time) (b : Buffer) : Buffer :=
  b.keep fun e => ¬ Expired now e.key ∧ ¬ Settled b e

/-- One row of an acknowledgement. -/
def acknowledgeRow (v : ProbeCoverageBucket) : Buffer :=
  match b.find v.key with
  | some e => b.put { e with saved := max e.saved v.due }
  | none => b

def acknowledge (values : List ProbeCoverageBucket) : Buffer := values.foldl acknowledgeRow b

end Buffer

namespace Stored

def upsert (s : Stored) (v : ProbeCoverageBucket) : Stored :=
  match s.find v.key with
  | some r => s.put { r with toProbeDispatchCounts := r.toProbeDispatchCounts.merge v.toProbeDispatchCounts }
  | none => s.put v

/-- One statement of `StoreRoutineProbeCoverage`. -/
def write (s : Stored) (batch : List ProbeCoverageBucket) : Stored := batch.foldl upsert s

/-- A counter of the row of a key; a row that is not there counts nothing. -/
def counter (s : Stored) (k : ProbeCoverageKey) (c : Column) : Nat :=
  (s.find k).elim 0 fun r => r.column c

end Stored

inductive Outcome
  | running
  | failed
  | succeeded
  deriving DecidableEq, Repr

/-- A flush: the rows of its snapshot and how many statements have taken effect. -/
structure Flush where
  values : List ProbeCoverageBucket
  statements : Nat
  outcome : Outcome

namespace Flush

def batch (f : Flush) : List ProbeCoverageBucket := (f.values.drop (200 * f.statements)).take 200

/-- All rows are in the table. -/
def Complete (f : Flush) : Prop := f.values.length ≤ 200 * f.statements

instance (f : Flush) : Decidable f.Complete := inferInstanceAs (Decidable (_ ≤ _))

end Flush

/-- The order in which a map is read. -/
def MapOrder := {order : List ProbeCoverageBucket → List ProbeCoverageBucket // ∀ l, (order l).Perm l}

def MapOrder.same : MapOrder := ⟨id, fun l => .refl l⟩

/-- Flushes are named by their place in the order of their snapshots. A statement may
take effect after its error was reported, so `write` does not ask for the outcome. -/
inductive Event
  | record (channel : ChannelKey) (d : RoutineDispatch)
  | snapshot (now : Time) (order : MapOrder)
  | write (flush : Nat)
  | fail (flush : Nat)
  | acknowledge (flush : Nat)

structure World where
  buffer : Buffer
  stored : Stored
  flushes : List Flush

namespace World

def init : World := ⟨.empty, .empty, []⟩

/-- A flush with nothing to write returns at once. -/
def started (now : Time) (order : MapOrder) (b : Buffer) : Flush where
  values := order.1 (Buffer.pending now b)
  statements := 0
  outcome := if (order.1 (Buffer.pending now b)).isEmpty then .succeeded else .running

def step (w : World) : Event → World
  | .record channel d => { w with buffer := Buffer.record w.buffer channel d }
  | .snapshot now order =>
    { w with buffer := Buffer.swept now w.buffer, flushes := w.flushes ++ [started now order w.buffer] }
  | .write i =>
    match w.flushes[i]? with
    | some f => { w with
        stored := w.stored.write f.batch
        flushes := w.flushes.set i { f with statements := f.statements + 1 } }
    | none => w
  | .fail i =>
    match w.flushes[i]? with
    | some f => if f.outcome = .running then { w with flushes := w.flushes.set i { f with outcome := .failed } } else w
    | none => w
  | .acknowledge i =>
    match w.flushes[i]? with
    | some f =>
      if f.outcome = .running ∧ f.Complete then { w with
        buffer := Buffer.acknowledge w.buffer f.values
        flushes := w.flushes.set i { f with outcome := .succeeded } } else w
    | none => w

def run (w : World) (events : List Event) : World := events.foldl step w

theorem run_append (w : World) (es fs : List Event) : w.run (es ++ fs) = (w.run es).run fs := List.foldl_append

end World

end ControlTower.Tuning.ProbeCoverage
