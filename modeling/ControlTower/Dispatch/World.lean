import ControlTower.Dispatch.Evaluation

/-! The store that the jobs of a channel talk to, and their runs.

The store holds the channel's row, if it has one. A job reads the row and then
makes its requests; before each of them an operator, a schedule, a snapshot of the
channel or a probe result may write the row, any call may fail, and the process may
stop. -/
namespace ControlTower.Dispatch
open Go Tuning Data

abbrev Store := Option (Row Columns)

/-! ### The other writers of the row -/

variable (row : Store)

/-- What a new owner leaves of the columns: the rates last seen, and the weight that
the channel has. -/
def resetColumns (weight : Int) : Columns :=
  let kept := (row.map Row.rest).getD {}
  {metricRPM := kept.metricRPM, metricTPM := kept.metricTPM, capacityLimited := kept.capacityLimited
   proposedWeight := weight}

inductive StoreEvent where
  | beginManual (model : String) (weight : Int) (now : Time)
  | finishManual (revision : Nat) (target : Int) (succeeded : Bool) (now : Time)
  | finishSchedule (target : Int) (written : Bool) (now : Time)
  | reconcile (previouslyDisabled manualPending : Bool) (weight : Int) (capturedAt : Time)
  | recordProbeResult (command : String) (attempts successes slowStreak : Int) (duration : Rat) (now : Time)
  | deleteForModel (model : Option String)

def StoreEvent.apply : StoreEvent → Store
  | beginManual model weight now => some (Tuning.beginManual row model (resetColumns row weight) now)
  | finishManual revision target succeeded now =>
    match Tuning.finishManual row revision target succeeded now with
    | .ok r => some r
    | .error _ => row
  | finishSchedule target written now => Tuning.finishSchedule row target written now
  | reconcile previouslyDisabled manualPending weight capturedAt =>
    Tuning.reconcile row previouslyDisabled manualPending (resetColumns row weight) capturedAt
  | recordProbeResult command attempts successes slowStreak duration now =>
    match Tuning.recordProbeResult row command attempts successes slowStreak duration now with
    | .ok row => row
    | .error _ => row
  | deleteForModel model => Tuning.deleteForModel row model

/-! ### The requests of a job -/

/-- `linkCapacityCommand` finds a row to link a weight to. -/
def Change.links (c : Change) (row : Store) : Bool :=
  c.status.isSome || row.any fun r =>
    decide (r.rest.capacity.pendingCommandID = "") || decide (c.rule = .circuitOpened)

/-- What the creation of a command writes to the row, in its own transaction: the
marker of a status command, or the link of a weight. -/
def Change.mark (c : Change) (id : String) (r : Row Columns) : Row Columns :=
  if id = "" then r else
  match c.status with
  | some target =>
    if r.controlRevision = c.revision then
      {r with circuitStatusTarget := target, rest := {r.rest with circuitStatusCommandID := id}}
    else r
  | none => {r with rest := {r.rest with capacity := {r.rest.capacity with
      pendingCommandID := id, pendingWeight := c.proposedWeight, phase := .awaitingWrite}}}

/-- `CreateContinuousWeightChange`, with the answer that it would give. What a queued
command cannot link is rolled back; a direct write was executed before, and goes on
without an id. -/
def Change.create (c : Change) (row : Store) : Created → Created × Store
  | .refused e => (.refused e, row)
  | .made id clock queued =>
    match checkManualChannelControl row false c.revision with
    | .error _ => (.refused .superseded, row)
    | .ok _ =>
      if c.links row then (.made id clock queued, row.map (c.mark id)) else
      if queued then (.refused .superseded, row) else (.made "" clock queued, row)

/-- A request on the store, with the answer that it would give; a put of an older
revision is refused whatever happens. -/
def serve : (q : Request) → Answer q → Answer q × Store
  | .put v, none =>
    match putContinuousState row v with
    | .ok r => (none, some r)
    | .error _ => (some .superseded, row)
  | .put _, some e => (some e, row)
  | .change c, answer => c.create row answer
  | .probe, answer | .result _, answer | .status _, answer | .completedProbeCount, answer => (answer, row)

abbrev Turn := Dialogue.Turn Request Answer StoreEvent

def runJob (job : Job Unit) (row : Store) (turns : List Turn) : Store :=
  job.run StoreEvent.apply serve row turns

/-! ### Runs -/

inductive Event where
  | evaluate (t : Tick) (turns : List Turn)
  | fastCircuit (t : FastCircuit) (turns : List Turn)
  | routineEvidence (t : RoutineEvidence) (turns : List Turn)
  | store (e : StoreEvent)

/-- A job reads the row and talks to the store for as long as it has turns. -/
def step : Event → Store
  | .evaluate t turns => runJob (t.evaluate row.isSome (readState row)) row turns
  | .fastCircuit t turns => runJob (t.evaluate (readState row)) row turns
  | .routineEvidence t turns => runJob (t.evaluate (readState row)) row turns
  | .store e => e.apply row

/-- The row of a channel that starts without one. -/
def run (events : List Event) : Store := events.foldl step none

end ControlTower.Dispatch
