import ControlTower.Go.Checks
import ControlTower.Go.Number
import ControlTower.Tuning.Evaluation

/-! Queueing an automatic change for an agent, and the agent's claim of it.

Both ends run the same checks against the stored state of the channel. The queueing
transaction checks the recommendation it was given, inserts it with its command and
writes the command's markers to the channel's row. The claim rebuilds the
recommendation from the columns of the inserted one, with the evidence read back
from its JSON text, and expires the command if a check now says superseded. -/
namespace ControlTower.Tuning
open Go

inductive GateErr where
  | decisionSuperseded
  | capacitySuperseded
  | circuitStatusSuperseded
  | undecodable
  | noControlInstance
deriving DecidableEq

/-- The rules of the continuous engine's weight and status changes. -/
inductive Rule where
  | weightWrite
  | capacityReduce
  | circuitOpened
  | circuitRecovered
  | circuitDisabled
deriving DecidableEq

/-- The rules under which a weight is written. -/
def Rule.writesWeight : Rule → Bool
  | .circuitDisabled => false
  | _ => true

/-! ### The stored state of a channel -/

/-- `ContinuousRules`. `integers` and `floats` are the fields that are only compared,
in the order of the source. -/
structure ContinuousRules where
  capacityMaxAgeSeconds : Int
  capacityMinWeight : Int
  recoveryMinWeight : Int
  routineProbeEnabled : Bool
  integers : List Int
  floats : List Rat
deriving DecidableEq

def ContinuousRules.zero : ContinuousRules :=
  ⟨0, 0, 0, false, List.replicate 25 0, List.replicate 7 0⟩

/-- `DefaultContinuousRules`. -/
def defaultContinuousRules : ContinuousRules where
  capacityMaxAgeSeconds := 90
  capacityMinWeight := 1
  recoveryMinWeight := 1
  routineProbeEnabled := true
  integers := [7, 0, 30, 10, 30, 2, 3, 90, 2, 100, 10000, 90, 15, 60, 60, 60, 60, 3, 5, 600, 120, 480,
    600, 120, 60]
  floats := [1/2, 3/10, 9/10, 17/20, 17/20, 1/10, 5]

/-- `ContinuousDispatchParams`, with the fields that are only compared as above. -/
structure Params where
  continuous : ContinuousRules
  softStartMultiplier : Rat
  routineProbeChannelIDs : List Int
  integers : List Int
  floats : List Rat
  flags : List Bool
deriving DecidableEq

/-- `Rules`. -/
def Params.rules (p : Params) : ContinuousRules :=
  if p.continuous = ContinuousRules.zero then defaultContinuousRules else p.continuous

structure Policy where
  updatedAt : Time
  dispatchMode : String → Option Mode
  continuous : Params

structure BaseValue where
  model : String
  weight : Int
  maxRPM : Int
  maxTPM : Int
  updatedAt : Time
deriving DecidableEq

def BaseValue.unlimited (b : BaseValue) : Bool := b.maxRPM ≤ 0 && b.maxTPM ≤ 0

/-- `CapacityControl`, over what an evaluation goes by. -/
structure CapacityControl extends Capacity where
  active : Bool := false
  reason : String := ""
  fresh : Bool := false
  maxRPM : Int := 0
  maxTPM : Int := 0
  utilization : Rat := 0
  sampleAt : Time := Time.zero
  confirmedWeight : Int := 0
  rawTarget : Int := 0
  boundWeight : Int := 0
deriving DecidableEq

/-- The columns of the channel's row that the gates read beside those of `Row`. -/
structure Standing where
  phase : CircuitPhase
  proposedWeight : Int
  routineCircuitLatched : Bool
  circuitStatusCommandID : String
  capacityLimited : Bool
  capacity : CapacityControl
deriving DecidableEq

/-- The latest row of `channel_current`. `enabled` is the switch on its status. -/
structure Snapshot where
  models : List String
  enabled : Bool
  weight : Int
  capturedAt : Time

/-- A row of `channel_schedules`. `allowed` is `Position(now).Allowed` of its configuration. -/
structure Schedule where
  enabled : Bool
  closed : Bool
  allowed : Time → Bool

/-- What the checks read of one channel of a site. -/
structure StoredChannel where
  base : Option BaseValue
  row : Option (Row Standing)
  policy : Option Policy
  snapshot : Option Snapshot
  schedule : Option Schedule
  controlInstance : Option String

/-- `channel_base_values b JOIN tuning_continuous_states s`. -/
def StoredChannel.joined (ch : StoredChannel) : Option (BaseValue × Row Standing) :=
  ch.base.bind fun b => ch.row.map fun r => (b, r)

/-! ### Recommendations -/

structure EvaluationContext where
  baseWeight : Int
  baseUpdatedAt : Time
  policyUpdatedAt : Time
  evaluatedAt : Time
  params : Params
deriving DecidableEq

/-- The entries of a recommendation's evidence that the gates read; the default is
the nil map. An entry that is decoded on use holds what that gives. -/
structure Evidence where
  controlRevision : Nat := 0
  capacityManaged : Bool := false
  model : Option String := none
  evaluation : Except GateErr (Option EvaluationContext) := .ok none
  capacity : Except GateErr CapacityControl := .ok {}

structure Recommendation where
  rule : Rule
  modeAtCreation : Mode
  currentWeight : Int
  proposedWeight : Int
  proposedChannelStatus : Option Int
  evidence : Evidence

/-- `capacityManaged`. -/
def Recommendation.capacityManaged (v : Recommendation) : Bool :=
  v.evidence.capacityManaged && v.proposedChannelStatus.isNone && v.rule.writesWeight

/-- A status command that enables the channel again. -/
def Recommendation.statusRecovery (v : Recommendation) : Bool :=
  v.proposedChannelStatus == some 1 && v.rule == .circuitRecovered

/-- The change writes no weight and enables nothing: capacity has no say in it. -/
def Recommendation.exempt (v : Recommendation) : Bool :=
  !v.statusRecovery && (v.proposedChannelStatus.isSome || !v.rule.writesWeight)

/-! ### The checks -/

/-- `checkScheduleRecovery`, whose refusal each caller reports as its own. -/
def StoredChannel.checkScheduleRecovery (ch : StoredChannel) (e : GateErr) (now : Time) : Except GateErr Bool := do
  refuse e (ch.schedule.any fun s => s.enabled && !s.allowed now)
  pure (ch.schedule.any (·.closed))

def Params.withinAge (p : Params) (now sampleAt : Time) : Bool :=
  now - sampleAt ≤ p.rules.capacityMaxAgeSeconds * 1000000000

def Params.fresh (p : Params) (c : CapacityControl) (now : Time) : Bool :=
  c.fresh && !c.sampleAt.isZero && !decide (now < c.sampleAt) && p.withinAge now c.sampleAt

/-- Enabling a disabled channel respects the capacity interlock. -/
def checkEnabling (b : BaseValue) (r : Row Standing) (p : Params) (now : Time) : Except GateErr Unit :=
  refuse .capacitySuperseded (!b.unlimited &&
    (r.rest.capacityLimited || r.rest.capacity.active || decide (1 ≤ r.rest.capacity.utilization) ||
      r.rest.capacity.pendingCommandID != "" || !p.fresh r.rest.capacity now))

/-- The limits hold an increase back. The mark of the command itself does not count. -/
def held (r : Row Standing) (fresh : Bool) (commandID : String) : Bool :=
  (r.rest.capacityLimited && (commandID == "" || r.rest.capacity.pendingCommandID != commandID)) ||
    r.rest.capacity.active || decide (1 ≤ r.rest.capacity.utilization) || !fresh

/-- The end of `checkContinuousCapacity`: what a weight is checked against. -/
def checkWeight (b : BaseValue) (r : Row Standing) (p : Params) (v : Recommendation) (now : Time)
    (commandID : String) : Except GateErr Unit :=
  let c := r.rest.capacity
  let fresh := b.unlimited || p.fresh c now
  if v.rule = .circuitRecovered then
    refuse .capacitySuperseded
      (held r fresh commandID || (c.pendingCommandID != "" && c.pendingCommandID != commandID))
  else do
    refuse .capacitySuperseded
      (!c.initialized || r.rest.phase != .normal || c.maxRPM != b.maxRPM || c.maxTPM != b.maxTPM)
    refuse .capacitySuperseded (if commandID == "" then c.pendingCommandID != ""
      else c.pendingCommandID != commandID || c.pendingWeight != v.proposedWeight)
    refuse .capacitySuperseded (decide (c.confirmedWeight < v.proposedWeight) && held r fresh commandID)
    refuse .capacitySuperseded (v.rule == .capacityReduce &&
      (!fresh || !c.active || decide (c.utilization < 1) || c.reason == "no_eligible_headroom" ||
        c.reason == "unknown_group" || decide (v.proposedWeight < p.rules.capacityMinWeight) ||
        decide (c.confirmedWeight ≤ v.proposedWeight)))

/-- The evaluation was of the base value and the policy that are stored. -/
def EvaluationContext.current (e : EvaluationContext) (b : BaseValue) (policy : Policy) : Bool :=
  e.baseWeight == b.weight && e.baseUpdatedAt == b.updatedAt && e.policyUpdatedAt == policy.updatedAt &&
    e.params == policy.continuous

/-- `checkContinuousCapacity` from the channel's snapshot on. -/
def StoredChannel.checkDecision (ch : StoredChannel) (b : BaseValue) (r : Row Standing) (policy : Policy)
    (v : Recommendation) (now : Time) (commandID : String) : Except GateErr Unit := do
  let snapshot ← found .capacitySuperseded ch.snapshot
  refuse .capacitySuperseded (snapshot.models != [b.model])
  refuse .capacitySuperseded (!snapshot.enabled)
  let decoded ← v.evidence.evaluation
  let evaluation ← found .capacitySuperseded decoded
  refuse .capacitySuperseded (!evaluation.current b policy || v.evidence.model != some b.model)
  refuse .capacitySuperseded (decide (evaluation.evaluatedAt < snapshot.capturedAt) &&
    snapshot.weight != v.currentWeight && v.rule != .circuitOpened)
  if v.rule = .circuitOpened then
    refuse .capacitySuperseded (v.proposedWeight != 0 ||
      (commandID != "" && r.rest.capacity.pendingCommandID != commandID))
  else
    let decision ← v.evidence.capacity
    refuse .capacitySuperseded (decision.maxRPM != b.maxRPM || decision.maxTPM != b.maxTPM)
    checkWeight b r policy.continuous v now commandID

/-- `checkContinuousCapacity` of a change that it is about. -/
def StoredChannel.checkTracked (ch : StoredChannel) (v : Recommendation) (now : Time)
    (commandID : String) : Except GateErr Unit := do
  refuse .capacitySuperseded (!v.capacityManaged && !v.statusRecovery)
  let (b, r) ← found .capacitySuperseded ch.joined
  refuse .capacitySuperseded (decide (b.weight ≤ 0) || r.modelName != b.model ||
    r.pausedReason == .other "mixed_channel" || r.pausedReason == .manualDisabled)
  refuse .capacitySuperseded
    (r.rest.routineCircuitLatched && !v.statusRecovery && v.rule != .circuitOpened)
  let policy ← found .capacitySuperseded ch.policy
  refuse .capacitySuperseded (policy.dispatchMode b.model != some .auto)
  if v.statusRecovery then checkEnabling b r policy.continuous now
  else ch.checkDecision b r policy v now commandID

/-- `checkContinuousCapacity`. The command is empty where none exists yet. -/
def StoredChannel.checkContinuousCapacity (ch : StoredChannel) (v : Recommendation) (now : Time)
    (commandID : String) : Except GateErr Unit := do
  let _ ← if v.rule = .circuitRecovered then ch.checkScheduleRecovery .capacitySuperseded now
    else pure false
  if v.exempt then pure () else ch.checkTracked v now commandID

section StatusChecks
-- `math.Round(float64(weight) * multiplier)`, of a product of two `float64`.
variable (softStart : Int → Rat → Int)

/-- The weight a channel is enabled with. -/
def Params.enablingWeight (p : Params) (weight : Int) : Int :=
  max p.rules.recoveryMinWeight (softStart weight p.softStartMultiplier)

/-- `checkCircuitStatus` for a target, from the switch on it on. -/
def StoredChannel.checkTarget (ch : StoredChannel) (v : Recommendation) (target : Int) (closed : Bool) :
    Except GateErr Unit := do
  refuse .circuitStatusSuperseded ((target != 1 && target != 2) ||
    (target == 1 && v.rule != .circuitRecovered) || (target == 2 && v.rule != .circuitDisabled) ||
    v.modeAtCreation != .auto)
  let (b, r) ← found .circuitStatusSuperseded ch.joined
  refuse .circuitStatusSuperseded (r.controlRevision != v.evidence.controlRevision ||
    !(r.circuitDisabled || (target == 1 && closed)) || r.circuitStatusTarget != target ||
    decide (b.weight ≤ 0) || b.model != r.modelName || r.rest.proposedWeight != v.proposedWeight)
  let policy ← found .circuitStatusSuperseded ch.policy
  refuse .circuitStatusSuperseded
    (target == 1 && v.proposedWeight != policy.continuous.enablingWeight softStart b.weight)
  refuse .circuitStatusSuperseded (policy.dispatchMode b.model != some .auto)
  let snapshot ← found .circuitStatusSuperseded ch.snapshot
  refuse .circuitStatusSuperseded (snapshot.models != [b.model])

/-- `checkCircuitStatus`, with the clock that it reads itself. -/
def StoredChannel.checkCircuitStatus (ch : StoredChannel) (v : Recommendation) (clock : Time) :
    Except GateErr Unit :=
  match v.proposedChannelStatus with
  | none => pure ()
  | some target => do
    let closed ← if target = 1 then ch.checkScheduleRecovery .circuitStatusSuperseded clock
      else pure false
    ch.checkTarget softStart v target closed

/-! ### Queueing -/

/-- A queued command with the recommendation it belongs to. `status` is the one of its
payload. -/
structure Command where
  id : String
  instanceID : String
  channelID : Int
  status : Option Int
  recommendation : Recommendation

/-- `linkCapacityCommand`. -/
def linkCapacityCommand (row : Option (Row Standing)) (v : Recommendation) (commandID : String) :
    Except GateErr (Option (Row Standing)) :=
  if !v.capacityManaged then .ok row else
  match row with
  | none => .error .capacitySuperseded
  | some r =>
    if r.rest.capacity.pendingCommandID = "" ∨ v.rule = .circuitOpened then
      .ok (some {r with rest := {r.rest with capacity := {r.rest.capacity with
        pendingCommandID := commandID, pendingWeight := v.proposedWeight}}})
    else .error .capacitySuperseded

/-- The marker of a status command. -/
def markStatus (row : Option (Row Standing)) (v : Recommendation) (commandID : String) :
    Option (Row Standing) :=
  match v.proposedChannelStatus with
  | none => row
  | some target => row.map fun r =>
    if r.controlRevision = v.evidence.controlRevision then
      {r with circuitStatusTarget := target, rest := {r.rest with circuitStatusCommandID := commandID}}
    else r

/-- `CreateContinuousWeightChange` for an agent: the clocks of its two checks and the
id drawn for the command. -/
def StoredChannel.createContinuousWeightChange (ch : StoredChannel) (channelID : Int) (v : Recommendation)
    (now clock : Time) (commandID : String) : Except GateErr (StoredChannel × Command) := do
  (checkManualChannelControl ch.row false v.evidence.controlRevision).mapError
    fun _ => GateErr.decisionSuperseded
  ch.checkContinuousCapacity v now ""
  ch.checkCircuitStatus softStart v clock
  let instanceID ← found .noControlInstance ch.controlInstance
  let row ← linkCapacityCommand ch.row v commandID
  pure ({ch with row := markStatus row v commandID},
    ⟨commandID, instanceID, channelID, v.proposedChannelStatus, v⟩)

/-! ### Claiming -/

/-- The rules of an evaluation, its integers read back through untyped values. -/
def ContinuousRules.reload (r : ContinuousRules) : Option ContinuousRules := do
  let capacityMaxAgeSeconds ← throughAny r.capacityMaxAgeSeconds
  let capacityMinWeight ← throughAny r.capacityMinWeight
  let recoveryMinWeight ← throughAny r.recoveryMinWeight
  let integers ← r.integers.mapM throughAny
  pure {r with
    capacityMaxAgeSeconds := capacityMaxAgeSeconds, capacityMinWeight := capacityMinWeight
    recoveryMinWeight := recoveryMinWeight, integers := integers}

def Params.reload (p : Params) : Option Params := do
  let continuous ← p.continuous.reload
  let routineProbeChannelIDs ← p.routineProbeChannelIDs.mapM throughAny
  let integers ← p.integers.mapM throughAny
  pure {p with
    continuous := continuous, routineProbeChannelIDs := routineProbeChannelIDs, integers := integers}

def EvaluationContext.reload (e : EvaluationContext) : Option EvaluationContext := do
  let baseWeight ← throughAny e.baseWeight
  let params ← e.params.reload
  pure {e with baseWeight := baseWeight, params := params}

def CapacityControl.reload (c : CapacityControl) : Option CapacityControl := do
  let maxRPM ← throughAny c.maxRPM
  let maxTPM ← throughAny c.maxTPM
  let confirmedWeight ← throughAny c.confirmedWeight
  let rawTarget ← throughAny c.rawTarget
  let boundWeight ← throughAny c.boundWeight
  let pendingWeight ← throughAny c.pendingWeight
  pure {c with
    maxRPM := maxRPM, maxTPM := maxTPM, confirmedWeight := confirmedWeight, rawTarget := rawTarget
    boundWeight := boundWeight, pendingWeight := pendingWeight}

/-- The evidence as the claim has it: decoded from its column into a map of untyped
values. -/
def Evidence.reload (e : Evidence) : Evidence where
  controlRevision := e.controlRevision
  capacityManaged := e.capacityManaged
  model := e.model
  evaluation := do
    match ← e.evaluation with
    | none => pure none
    | some evaluation => some <$> found .undecodable evaluation.reload
  capacity := do found .undecodable (← e.capacity).reload

/-- A check's verdict on a command: it stays, it is expired, or the claim fails. -/
def verdict (superseded : GateErr) : Except GateErr Unit → Except GateErr Bool
  | .ok () => .ok true
  | .error e => if e = superseded then .ok false else .error e

/-- The recommendation as `validateCapacityClaim` selects it. -/
def Command.reloaded (cmd : Command) : Recommendation :=
  {cmd.recommendation with
    proposedChannelStatus := cmd.status, evidence := cmd.recommendation.evidence.reload}

/-- `validateCapacityClaim`. -/
def StoredChannel.validateCapacityClaim (ch : StoredChannel) (cmd : Command) (now : Time) :
    Except GateErr Bool :=
  if !cmd.recommendation.rule.writesWeight then .ok true
  else verdict .capacitySuperseded (ch.checkContinuousCapacity cmd.reloaded now cmd.id)

/-- `circuitRec`: the recommendation by its rule, mode and weight. The evidence is not
selected. -/
def Command.circuitRec (cmd : Command) : Recommendation :=
  ⟨cmd.recommendation.rule, cmd.recommendation.modeAtCreation, 0, cmd.recommendation.proposedWeight,
    cmd.status, {}⟩

/-- The second check of a status command. -/
def StoredChannel.validateCircuitClaim (ch : StoredChannel) (cmd : Command) (clock : Time) :
    Except GateErr Bool :=
  if cmd.status.isNone || (cmd.recommendation.rule != .circuitDisabled &&
    cmd.recommendation.rule != .circuitRecovered) then .ok true
  else verdict .circuitStatusSuperseded (ch.checkCircuitStatus softStart cmd.circuitRec clock)

/-- The loop's body: the command is delivered. -/
def StoredChannel.claim (ch : StoredChannel) (cmd : Command) (now clock : Time) : Except GateErr Bool := do
  if ← ch.validateCapacityClaim cmd now then ch.validateCircuitClaim softStart cmd clock else pure false

/-- `ClaimPendingCommands`, over the selected commands in their order. Each reads its
own channel, and the clock when its turn comes. -/
def claimPendingCommands (channels : Int → StoredChannel) (clock : Command → Time) (now : Time) :
    List Command → Except GateErr (List Command)
  | [] => .ok []
  | cmd :: rest => do
    let delivered ← (channels cmd.channelID).claim softStart cmd now (clock cmd)
    let later ← claimPendingCommands channels clock now rest
    pure (if delivered then cmd :: later else later)

end StatusChecks

end ControlTower.Tuning
