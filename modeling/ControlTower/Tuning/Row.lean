import ControlTower.Go.Time

/-! A channel's row of `tuning_continuous_states` and the statements that write it.

One row belongs to one channel of one site; it may be absent. Each definition is
one transaction of the store, read as what it makes of the row. The columns that
no statement here reads, or that are only copied, are kept together as `rest`. -/
namespace ControlTower.Tuning
open Go

inductive PausedReason where
  | clear
  | manualDisabled
  | other (text : String)
deriving DecidableEq

/-- The columns of the recovery probe. `lastCommandID` is stamped by a result and
never by the engine. -/
structure ProbeColumns where
  commandID : Option String := none
  lastCommandID : Option String := none
  attempts : Int := 0
  successes : Int := 0
  durationSum : Rat := 0
  slowStreak : Int := 0
deriving DecidableEq

structure Row (R : Type) where
  modelName : String
  controlRevision : Nat := 0
  pausedReason : PausedReason := .clear
  circuitDisabled : Bool := false
  circuitStatusTarget : Int := 0
  lastWriteAt : Option Time := none
  updatedAt : Time
  probe : ProbeColumns := {}
  rest : R
deriving DecidableEq

/-- What the engine persists: a row without the columns it never assigns, and the
revision it read. -/
structure ContinuousState (R : Type) where
  modelName : String
  controlRevision : Nat
  pausedReason : PausedReason
  circuitDisabled : Bool
  circuitStatusTarget : Int
  lastWriteAt : Option Time
  updatedAt : Time
  probeCommandID : Option String
  probeAttempts : Int
  probeSuccesses : Int
  probeDurationSum : Rat
  probeSlowStreak : Int
  rest : R
deriving DecidableEq

inductive StoreErr where
  | decisionSuperseded
  | noRows
  | invalidSlowStreak
deriving DecidableEq

variable {R : Type} (row : Option (Row R))

/-- An absent row reads as revision zero. -/
def revisionOf : Nat := (row.map Row.controlRevision).getD 0

def heldBy : Bool := row.any fun r => r.pausedReason = .manualDisabled

/-! ### The engine -/

/-- The probe columns of the upsert: the id that a result has already stamped is
not written back, nor are its counts. -/
def ProbeColumns.upsert (p : ProbeColumns) (v : ContinuousState R) : ProbeColumns :=
  if v.probeCommandID ≠ none ∧ v.probeCommandID = p.lastCommandID then p
  else ⟨v.probeCommandID, p.lastCommandID, v.probeAttempts, v.probeSuccesses, v.probeDurationSum,
    v.probeSlowStreak⟩

/-- `PutContinuousState`. -/
def putContinuousState (v : ContinuousState R) : Except StoreErr (Row R) :=
  if revisionOf row ≠ v.controlRevision then .error .decisionSuperseded else
  .ok ⟨v.modelName, revisionOf row, v.pausedReason, v.circuitDisabled, v.circuitStatusTarget,
    v.lastWriteAt, v.updatedAt, ((row.map Row.probe).getD {}).upsert v, v.rest⟩

/-- `checkManualChannelControl`, for a decision of `revision`. -/
def checkManualChannelControl (prioritySync : Bool) (revision : Nat) :
    Except StoreErr Unit :=
  match row with
  | none => .ok ()
  | some r =>
    if r.pausedReason = .manualDisabled ∨ (prioritySync = false ∧ r.controlRevision ≠ revision) then
      .error .decisionSuperseded
    else .ok ()

/-- `RecordContinuousProbeResultWithLatency`. -/
def recordProbeResult (command : String) (attempts successes slowStreak : Int)
    (duration : Rat) (now : Time) : Except StoreErr (Option (Row R)) :=
  if slowStreak < 0 ∨ attempts < slowStreak ∨ attempts - successes < slowStreak then
    .error .invalidSlowStreak
  else .ok (row.map fun r =>
    if r.probe.commandID = some command then
      {r with probe := ⟨none, some command, attempts, successes, duration, slowStreak⟩, updatedAt := now}
    else r)

/-! ### The operator, the schedule and the collector -/

/-- The columns that a new owner of the channel starts from. -/
def Row.reset (r : Row R) (paused : PausedReason) (rest : R) (now : Time) : Row R :=
  {r with
    controlRevision := r.controlRevision + 1, pausedReason := paused, circuitDisabled := false
    circuitStatusTarget := 0, lastWriteAt := none, updatedAt := now, probe := {}, rest := rest}

/-- `BeginManualChannelStatus`: the insertion of a missing row, then the hold. -/
def beginManual (model : String) (rest : R) (now : Time) : Row R :=
  (row.getD {modelName := model, updatedAt := now, rest := rest}).reset .manualDisabled rest now

/-- `FinishManualChannelStatus` on the row, for a command that was begun at
`revision` to set `target`. -/
def finishManual (revision : Nat) (target : Int) (succeeded : Bool) (now : Time) :
    Except StoreErr (Row R) :=
  match row with
  | none => .error .noRows
  | some r =>
    if r.controlRevision ≠ revision then .error .decisionSuperseded else
    if !succeeded then .ok r else
    if target = 1 then
      .ok {r with controlRevision := r.controlRevision + 1, pausedReason := .clear, updatedAt := now}
    else .ok {r with lastWriteAt := some now, updatedAt := now}

/-- `FinishChannelSchedule` on the row. -/
def finishSchedule (target : Int) (written : Bool) (now : Time) : Option (Row R) :=
  if !written then row else row.map fun r =>
    {r with
      controlRevision := r.controlRevision + 1, updatedAt := now
      pausedReason := if target = 1 ∧ r.pausedReason = .manualDisabled then .clear else r.pausedReason}

/-- The `WHERE` of `reconcileChannelOwnership`. `manualPending` says that a manual
command of this revision is still delivered. -/
def Row.released (r : Row R) (previouslyDisabled manualPending : Bool) (capturedAt : Time) : Bool :=
  (r.circuitDisabled && r.circuitStatusTarget == 0 && r.lastWriteAt.all (· < capturedAt)) ||
    (r.pausedReason == .manualDisabled && (previouslyDisabled || r.lastWriteAt.isSome) &&
      r.updatedAt < capturedAt && !manualPending)

/-- `reconcileChannelOwnership`, for a snapshot that shows the channel enabled. -/
def reconcile (previouslyDisabled manualPending : Bool) (rest : R)
    (capturedAt : Time) : Option (Row R) :=
  row.map fun r =>
    if r.released previouslyDisabled manualPending capturedAt then r.reset .clear rest capturedAt else r

/-- The deletion for a channel that now serves `model`, or for `none` no single model. -/
def deleteForModel (model : Option String) : Option (Row R) :=
  row.filter fun r => r.pausedReason = .manualDisabled ∨ model = some r.modelName

end ControlTower.Tuning
