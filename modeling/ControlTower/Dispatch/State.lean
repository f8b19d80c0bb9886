import ControlTower.Tuning.Evaluation
import ControlTower.Go.Float

/-! A channel under continuous dispatch, with its weights and its capacity.

The columns of a channel's state that the circuit, the weight proposal and the
capacity control go by, the channel's base values and the policy. The row, the
revision and the probe columns are those of `Tuning.Row`; what is added here is
its `rest`. -/
namespace ControlTower.Dispatch
open Go Tuning

/-! ### The policy -/

/-- The capacity part of `ContinuousRules`. -/
structure CapacityRules where
  targetUtilization : Rat := nearestDouble (9 / 10)
  releaseUtilization : Rat := nearestDouble (85 / 100)
  overloadSeconds : Int := 60
  recoverySeconds : Int := 60
  feedbackSeconds : Int := 60
  maxAgeSeconds : Int := 90
  sampleGapSeconds : Int := 60
  minWeight : Int := 1

/-- `ContinuousDispatchParams` with its rules, as far as an evaluation reads them.
The defaults are those of `DefaultPolicy`. -/
structure Params where
  silentMinutes : Int := 5
  probeCount : Int := 10
  maxIncreasePercent : Rat := 10
  capacityMaxDecreasePercent : Rat := 25
  softStartMultiplier : Rat := nearestDouble (1 / 5)
  writePauseAttempts : Int := 3
  writeMaxAttempts : Int := 5
  writeRetrySeconds : Int := 600
  probeSlowLimit : Int := 2
  recoveryLostSeconds : Int := 600
  recoveryMinWeight : Int := 1
  externalWriteGraceSeconds : Int := 120
  capacity : CapacityRules := {}

/-! ### The channel -/

/-- `ChannelBaseValue`. -/
structure BaseValue where
  baseWeight : Int
  currentWeight : Int
  snapshotAt : Time
  maxRPM : Int := 0
  maxTPM : Int := 0
  /-- How many models the channel serves. -/
  models : Nat := 1

inductive CapacityPhase where
  | blank
  | normal
  | unavailable
  | awaitingWrite
  | waitingFeedback
  | recovering
  | holding
  | observing
  | minimumWeight
  | reducing
  | noHeadroom
  | writeFailed
deriving DecidableEq

structure CapacityControl where
  initialized : Bool := false
  active : Bool := false
  phase : CapacityPhase := .blank
  reason : String := ""
  fresh : Bool := false
  maxRPM : Int := 0
  maxTPM : Int := 0
  utilization : Rat := 0
  sampleAt : Time := Time.zero
  overSince : Time := Time.zero
  underSince : Time := Time.zero
  appliedAt : Time := Time.zero
  confirmedWeight : Int := 0
  rawTarget : Int := 0
  boundWeight : Int := 0
  pendingCommandID : String := ""
  pendingWeight : Int := 0
deriving DecidableEq

/-- The columns beside those of `Row`. -/
structure Columns where
  phase : CircuitPhase := .normal
  circuitOpenedAt : Option Time := none
  nextProbeAt : Option Time := none
  softStartPending : Bool := false
  routineCircuitLatched : Bool := false
  circuitStatusCommandID : String := ""
  writeFailureStreak : Int := 0
  lastWriteFailureAt : Option Time := none
  proposedWeight : Int := 0
  lastWrittenWeight : Option Int := none
  metricRPM : Rat := 0
  metricTPM : Rat := 0
  capacityLimited : Bool := false
  capacity : CapacityControl := {}
deriving DecidableEq

abbrev State := ContinuousState Columns

/-- A row as `ListContinuousStates` returns it; a channel that has none starts from
the zero value. -/
def readState : Option (Row Columns) → State
  | none => ⟨"", 0, .clear, false, 0, none, Time.zero, none, 0, 0, 0, 0, {phase := .blank}⟩
  | some r => ⟨r.modelName, r.controlRevision, r.pausedReason, r.circuitDisabled, r.circuitStatusTarget,
      r.lastWriteAt, r.updatedAt, r.probe.commandID, r.probe.attempts, r.probe.successes,
      r.probe.durationSum, r.probe.slowStreak, r.rest⟩

/-- The weight that the channel carries: the last confirmed write, unless a later
snapshot shows it. -/
def effectiveCurrentWeight (b : BaseValue) (s : State) : Int :=
  match s.rest.lastWrittenWeight, s.lastWriteAt with
  | some weight, some wroteAt =>
    if b.snapshotAt.isZero ∨ b.snapshotAt < wroteAt then weight else b.currentWeight
  | _, _ => b.currentWeight

end ControlTower.Dispatch
