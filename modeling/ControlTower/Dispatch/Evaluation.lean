import ControlTower.Data.Dialogue
import ControlTower.Dispatch.Capacity

/-! The jobs that decide a channel's weight and circuit, with all they write.

A site evaluation, a fast circuit and routine probe evidence each work on the
channel's state and talk to the store. They are dialogues whose requests carry what
is persisted and commanded, weights included; the performance factors and error
rates that they compute from metrics come with the job as verdicts. -/
namespace ControlTower.Dispatch
open Go Tuning Data

/-! ### Requests -/

/-- The rule of a recommendation that is executed at once. -/
inductive Rule where
  | weightWrite
  | capacityReduce
  | circuitOpened
  | circuitRecovered
  | circuitDisabled
deriving DecidableEq

/-- An automatic recommendation: what `CreateContinuousWeightChange` commands. -/
structure Change where
  rule : Rule
  revision : Nat
  status : Option Int
  currentWeight : Int
  proposedWeight : Int
deriving DecidableEq

inductive Request where
  /-- `PutContinuousState`. -/
  | put (v : State)
  /-- `CreateContinuousWeightChange`. -/
  | change (c : Change)
  /-- `CreateContinuousProbe`. -/
  | probe
  /-- `ContinuousCommandResult`. -/
  | result (id : String)
  /-- `ContinuousCommandStatus`. -/
  | status (id : String)
  /-- `CompletedProbeCount`. -/
  | completedProbeCount

/-- What the store answers; a call that fails has no result. -/
abbrev Answer : Request → Type
  | .put _ => Option WriteErr
  | .change _ => Created
  | .probe => Option String
  | .result _ => Option (CommandStatus × Option Time)
  | .status _ => Option CommandStatus
  | .completedProbeCount => Option Int

abbrev Job := Dialogue Request Answer

def put (v : State) : Job (Option WriteErr) := .request (Request.put v)
def change (c : Change) : Job Created := .request (Request.change c)
def result (id : String) : Job (Option (CommandStatus × Option Time)) := .request (Request.result id)
def status (id : String) : Job (Option CommandStatus) := .request (Request.status id)
def probe : Job (Option String) := .request Request.probe
def completedProbeCount : Job (Option Int) := .request Request.completedProbeCount

section Requests
variable {R : Type} {P : Request → Prop} {post : R → Prop}

theorem spec_put {v : State} {k : Option WriteErr → Job R} :
    (put v >>= k).Spec P post ↔ P (.put v) ∧ ∀ a, (k a).Spec P post := Iff.rfl

theorem spec_change {c : Change} {k : Created → Job R} :
    (change c >>= k).Spec P post ↔ P (.change c) ∧ ∀ a, (k a).Spec P post := Iff.rfl

theorem spec_result {id : String} {k : Option (CommandStatus × Option Time) → Job R} :
    (result id >>= k).Spec P post ↔ P (.result id) ∧ ∀ a, (k a).Spec P post := Iff.rfl

theorem spec_status {id : String} {k : Option CommandStatus → Job R} :
    (status id >>= k).Spec P post ↔ P (.status id) ∧ ∀ a, (k a).Spec P post := Iff.rfl

theorem spec_probe {k : Option String → Job R} :
    (probe >>= k).Spec P post ↔ P .probe ∧ ∀ a, (k a).Spec P post := Iff.rfl

theorem spec_completedProbeCount {k : Option Int → Job R} :
    (completedProbeCount >>= k).Spec P post ↔ P .completedProbeCount ∧ ∀ a, (k a).Spec P post := Iff.rfl

end Requests

/-! ### What the helpers do to a state -/

/-- What every job knows: the time, the channel, the policy, and `SilentMinutes` of
the policy at the moment an unapplied write is taken back. -/
structure Setting where
  now : Time
  base : BaseValue
  params : Params
  latestSilentMinutes : Int

def resetCounts (s : State) : State :=
  {s with probeAttempts := 0, probeSuccesses := 0, probeDurationSum := 0, probeSlowStreak := 0}

def noteWriteSuccess (s : State) : State :=
  {s with
    pausedReason := if s.pausedReason = .other "write_failed" then .clear else s.pausedReason
    rest := {s.rest with writeFailureStreak := 0, lastWriteFailureAt := none}}

def Params.writeAttemptAllowed (p : Params) (s : State) (now : Time) : Bool :=
  if p.writeMaxAttempts ≤ s.rest.writeFailureStreak then false else
  if s.pausedReason = .clear then true else
  if s.pausedReason ≠ .other "write_failed" then false else
  s.rest.lastWriteFailureAt.all fun failedAt => failedAt + Time.seconds p.writeRetrySeconds ≤ now

/-- The weight that a recovered channel starts from. -/
def Params.recoveryWeight (p : Params) (baseWeight : Int) (multiplier : Rat) : Int :=
  max p.recoveryMinWeight (roundHalfAway (nearestDouble (float64 baseWeight * multiplier)))

def limitWeightIncrease (proposed current : Int) (maxPercent : Rat) : Int :=
  if proposed ≤ current ∨ current ≤ 0 then proposed else
  min proposed (max (current + 1)
    (nearestDouble (float64 current * nearestDouble (1 + nearestDouble (maxPercent / 100)))).floor)

namespace Setting

variable (t : Setting) (s : State)

def noteWriteFailure : WriteErr → State
  | .superseded => s
  | .failed => {s with
      pausedReason :=
        if t.params.writePauseAttempts ≤ s.rest.writeFailureStreak + 1 ∧ s.pausedReason = .clear then
          .other "write_failed"
        else s.pausedReason
      rest := {s.rest with
        writeFailureStreak := s.rest.writeFailureStreak + 1, lastWriteFailureAt := some t.now}}

def silentUntil : Time := t.now + Time.minutes t.params.silentMinutes

/-- `resetFailedCircuitEnable`, with the policy's `SilentMinutes`. -/
def resetFailedCircuitEnable (silentMinutes : Int) (s : State) : State :=
  resetCounts {s with
    circuitStatusTarget := 0
    rest := {s.rest with
      circuitStatusCommandID := "", phase := .circuit, softStartPending := false, proposedWeight := 0
      nextProbeAt := some (t.now + Time.minutes silentMinutes)}}

def resetUnappliedCapacityTransition : State :=
  if s.rest.phase = .softStart then t.resetFailedCircuitEnable t.latestSilentMinutes s else
  if s.rest.phase = .circuit ∧ s.rest.capacity.pendingWeight = 0 then
    {s with rest := {s.rest with phase := .normal, circuitOpenedAt := none, nextProbeAt := none}}
  else s

/-- The state once the outcome of its pending command is known. -/
def settled : Option (CommandStatus × Option Time) → State
  | none | some (.pending, _) | some (.delivered, _) => s
  | some (.succeeded, completedAt) =>
    noteWriteSuccess (confirmCapacityWrite t.params.silentMinutes s s.rest.capacity.pendingWeight
      (completedAt.getD t.now))
  | some (.superseded, _) => t.resetUnappliedCapacityTransition (forgetWrite s)
  | some (.other _, _) =>
    let s := t.noteWriteFailure (t.resetUnappliedCapacityTransition (forgetWrite s)) .failed
    {s with rest := {s.rest with capacity := {s.rest.capacity with phase := .writeFailed}}}

/-- The state once its status command succeeded. -/
def statusApplied (target : Int) : State :=
  let s := noteWriteSuccess (resetCounts {s with
    circuitStatusTarget := 0, lastWriteAt := some t.now
    rest := {s.rest with
      circuitStatusCommandID := "", lastWrittenWeight := some s.rest.proposedWeight}})
  -- Status 3 is that of commands delivered before an upgrade.
  if target = 2 ∨ target = 3 then
    {s with rest := {s.rest with phase := .circuit, nextProbeAt := some t.silentUntil}}
  else
    {s with
      circuitDisabled := false
      rest := {s.rest with routineCircuitLatched := false, phase := .softStart, softStartPending := true}}

/-- The state after a status write that was refused or did not succeed. -/
def statusFailed (target : Int) (e : WriteErr) : State :=
  if target = 1 then t.resetFailedCircuitEnable t.params.silentMinutes (t.noteWriteFailure s e)
  else t.noteWriteFailure s e

def finishFailedWrite : State :=
  if s.rest.routineCircuitLatched ∧ s.circuitStatusTarget = 2 then
    if s.rest.lastWriteFailureAt.any
        fun failedAt => t.now < failedAt + Time.seconds t.params.writeRetrySeconds then s
    else noteWriteSuccess {s with rest := {s.rest with
      phase := .circuit, proposedWeight := 0, circuitStatusCommandID := ""}}
  else
    let s := resetCounts {s with
      circuitDisabled := s.circuitDisabled && !(s.circuitStatusTarget == 2 || s.circuitStatusTarget == 3)
      circuitStatusTarget := 0, probeCommandID := none, lastWriteAt := none
      rest := {s.rest with circuitStatusCommandID := "", lastWrittenWeight := none}}
    if s.circuitDisabled then noteWriteSuccess (t.resetFailedCircuitEnable t.params.silentMinutes s)
    else noteWriteSuccess {s with rest := {s.rest with
      phase := .normal, softStartPending := false, circuitOpenedAt := none, nextProbeAt := none
      proposedWeight := t.base.currentWeight}}

/-- A circuit opens now. -/
def opened : State :=
  resetCounts {s with rest := {s.rest with
    phase := .circuit, proposedWeight := 0, circuitOpenedAt := some t.now, nextProbeAt := some t.silentUntil}}

/-- The opening is taken back. -/
def unopened : State :=
  {s with rest := {s.rest with phase := .normal, circuitOpenedAt := none, nextProbeAt := none}}

/-! ### The parts of a job -/

/-- `state.UpdatedAt = now`, and the last put. -/
def persist : Job Unit := do
  let _ ← put {s with updatedAt := t.now}

def settleCapacityWrite : Job State :=
  if s.rest.capacity.pendingCommandID = "" then pure s else do
  let answer ← result s.rest.capacity.pendingCommandID
  pure (t.settled s answer)

/-- The state that a tracked write is created with. -/
def tracked : State := {trackWrites t.base s with updatedAt := t.now}

/-- The tracked command of a state. -/
def trackedChange (rule : Rule) : Change :=
  ⟨rule, s.controlRevision, none, s.rest.capacity.confirmedWeight, s.rest.proposedWeight⟩

/-- The state, and why no command was created. -/
def createTrackedWeightChange (rule : Rule) : Job (Option WriteErr × State) :=
  if !t.params.writeAttemptAllowed s t.now then pure (some .superseded, s) else do
  let s := t.tracked s
  match ← put s with
  | some e => pure (some e, s)
  | none =>
    match ← change (trackedChange s rule) with
    | .refused e => pure (some e, s)
    | .made id clock _ =>
      let weight := s.rest.proposedWeight
      let s := awaitWrite s id weight
      if id = "" then
        pure (none, noteWriteSuccess (confirmCapacityWrite t.params.silentMinutes s weight clock))
      else
        let s ← t.settleCapacityWrite s
        pure (none, s)

/-- The second half of `advanceCircuitStatus`: a command is on its way. -/
def awaitCircuitStatus (target : Int) : Job State := do
  match ← status s.rest.circuitStatusCommandID with
  | none | some .pending | some .delivered => pure s
  | some .succeeded => pure (t.statusApplied s target)
  | some .superseded | some (.other _) =>
    pure (t.statusFailed {s with rest := {s.rest with circuitStatusCommandID := ""}} target .failed)

/-- The status command of a target. -/
def statusChange (target : Int) : Change :=
  ⟨if target = 1 then .circuitRecovered else .circuitDisabled, s.controlRevision, some target,
    if s.rest.capacity.initialized then s.rest.capacity.confirmedWeight else t.base.currentWeight,
    s.rest.proposedWeight⟩

def enqueueCircuitStatus (target : Int) : Job State :=
  if s.rest.circuitStatusCommandID ≠ "" then t.awaitCircuitStatus s target else
  if target = 1 ∧ capacityRecoveryBlocked t.base s then pure s else
  if !t.params.writeAttemptAllowed s t.now then pure s else do
  match ← change (t.statusChange s target) with
  | .refused e => pure (t.statusFailed s target e)
  | .made id _ _ =>
    -- A direct write that was confirmed without an audit is not repeated.
    if id = "" then pure (t.statusApplied s target)
    else t.awaitCircuitStatus {s with rest := {s.rest with circuitStatusCommandID := id}} target

def advanceCircuitStatus : Job State :=
  if s.circuitStatusTarget = 3 ∧ s.rest.circuitStatusCommandID = "" then do
    let s : State := {s with circuitStatusTarget := 2}
    match ← put s with
    | some e => pure (t.noteWriteFailure s e)
    | none => t.enqueueCircuitStatus s 2
  else t.enqueueCircuitStatus s s.circuitStatusTarget

end Setting

/-! ### The site evaluation -/

structure Tick extends Setting where
  model : String
  mode : Mode
  schedule : Control
  hasRateSnapshot : Bool
  ratesAvailable : Bool
  ratesAsOf : Time
  metricRPM : Rat
  metricTPM : Rat
  /-- What `capacityDiversion` answers. -/
  canDivert : Bool
  diversionReason : String
  /-- No metrics, no fresh probe speed and an earlier sample. -/
  evidenceGap : Bool
  /-- The requests and errors of the buckets folded in this tick. -/
  foldedRequests : Int
  foldedErrors : Int
  /-- `probeMultiplier >= p.RecoveryThreshold`, by attempts, successes and duration. -/
  recovers : Int → Int → Rat → Bool
  /-- `passiveErrorRate <= p.RecoveryErrorRate`, by attempts and successes. -/
  passiveRecovers : Int → Int → Bool
  /-- `combinedFactor`, and what it is after a passive recovery. -/
  factor : Rat
  passiveFactor : Rat
  /-- No performance evidence, or a mode that does not use it. -/
  neutral : Bool
  /-- Enough requests, and an error rate that opens the circuit. -/
  trips : Bool
  /-- Too few samples to move the weight. -/
  sparse : Bool

namespace Tick

variable (t : Tick)

def weighed (multiplier : Rat) : Int := (nearestDouble (float64 t.base.baseWeight * multiplier)).floor

variable (s : State)

/-- The weight that the performance of the channel proposes, held back by its
capacity and by the bound on one increase. -/
def proposal : Int :=
  let current := effectiveCurrentWeight t.base s
  let proposed := t.weighed (if t.neutral then 1 else t.factor)
  let proposed := if s.rest.capacityLimited ∧ current < proposed then current else proposed
  if t.mode = .auto then limitWeightIncrease proposed current t.params.maxIncreasePercent else proposed

/-- A snapshot, late enough after our own write, shows another weight. -/
def externalChange : Bool :=
  match s.rest.lastWrittenWeight, s.lastWriteAt with
  | some weight, some wroteAt =>
    decide (t.base.currentWeight ≠ weight) &&
      decide (wroteAt + Time.seconds t.params.externalWriteGraceSeconds < t.base.snapshotAt)
  | _, _ => false

def needsWrite : Bool :=
  if s.rest.capacity.initialized then decide (s.rest.proposedWeight ≠ s.rest.capacity.confirmedWeight)
  else decide (s.rest.proposedWeight ≠ s.rest.lastWrittenWeight.getD t.base.currentWeight) || t.externalChange s

/-- A due retry with no write left has nothing to test. -/
def endIdleRetry : State :=
  if t.mode = .auto ∧ s.pausedReason = .other "write_failed" ∧ t.params.writeAttemptAllowed s t.now ∧
      !t.needsWrite s then noteWriteSuccess s
  else s

/-- The proposal within the capacity, and whether the capacity lowered it. -/
def bounded : State × Bool :=
  if s.rest.capacity.initialized then applyCapacityTarget s else (s, false)

def writeRule (capacityReduction : Bool) : Rule :=
  if capacityReduction then .capacityReduce else .weightWrite

/-- The proposal is bounded and written. -/
def writeWeight : Job Unit :=
  let rule := writeRule (bounded s).2
  let s := t.endIdleRetry (bounded s).1
  if t.mode = .auto ∧ t.params.writeAttemptAllowed s t.now ∧ t.needsWrite s ∧
      s.rest.capacity.pendingCommandID = "" then do
    match ← t.createTrackedWeightChange s rule with
    | (none, s) | (some .superseded, s) => t.persist s
    | (some .failed, s) =>
      let s := t.noteWriteFailure s .failed
      t.persist {s with rest := {s.rest with capacity := {s.rest.capacity with
        phase := if s.rest.capacity.initialized then .writeFailed else s.rest.capacity.phase}}}
  else t.persist s

/-- The circuit opens: in auto mode with its zero weight. -/
def openCircuit : Job Unit :=
  let s := t.opened s
  if t.mode = .auto then do
    match ← t.createTrackedWeightChange s .circuitOpened with
    | (none, s) => t.persist s
    | (some e, s) =>
      let s := Setting.unopened s
      t.persist (t.noteWriteFailure {s with rest := {s.rest with
        proposedWeight := t.params.recoveryWeight t.base.baseWeight t.factor}} e)
  else t.persist s

/-- The channel serves: its weight follows the metrics, or its circuit opens. -/
def evaluateServing : Job Unit :=
  let s : State := {s with rest := {s.rest with proposedWeight := t.proposal s}}
  if t.mode ≠ .off ∧ s.rest.phase = .normal ∧ t.trips ∧
      (t.mode ≠ .auto ∨ t.params.writeAttemptAllowed s t.now) then t.openCircuit s
  else if t.sparse then
    let s : State := {s with rest := {s.rest with proposedWeight := effectiveCurrentWeight t.base s}}
    if !s.rest.capacity.initialized then t.persist s else t.writeWeight s
  else t.writeWeight s

/-- From the circuit on: the next probe, the wait for a round, the soft start. -/
def evaluatePhase : Job Unit :=
  match s.rest.phase with
  | .circuit =>
    if t.mode = .auto ∧ s.rest.nextProbeAt.any (· ≤ t.now) then do
      match ← probe with
      | none => t.persist (resetCounts s)
      | some id => t.persist {resetCounts s with
          probeCommandID := some id, rest := {s.rest with phase := .probing}}
    else t.persist s
  | .probing =>
    -- A round that nobody reports is given up.
    if s.rest.nextProbeAt.any
        fun next => next + Time.seconds t.params.recoveryLostSeconds < t.now then
      t.persist {s with
        probeCommandID := none
        rest := {s.rest with phase := .circuit, nextProbeAt := some t.silentUntil}}
    else t.persist s
  | .softStart =>
    if s.rest.softStartPending then t.persist {s with rest := {s.rest with softStartPending := false}}
    else t.evaluateServing (Setting.unopened s)
  | .normal | .blank => t.evaluateServing s

/-- In observe mode, production traffic is the probe of an observed circuit. -/
def evaluatePassive : Job Unit :=
  if s.rest.phase = .circuit ∧ t.mode = .observe ∧ t.params.probeCount ≤ s.probeAttempts then
    if t.passiveRecovers s.probeAttempts s.probeSuccesses then
      let s := Setting.unopened s
      t.persist {s with
        probeAttempts := 0, probeSuccesses := 0
        rest := {s.rest with softStartPending := false, proposedWeight := t.weighed t.passiveFactor}}
    else t.evaluatePhase {s with probeAttempts := 0, probeSuccesses := 0}
  else t.evaluatePhase s

/-- Persist the target before acting on it. -/
def startCircuitStatus : Job Unit := do
  match ← put s with
  | none => t.persist (← t.advanceCircuitStatus s)
  | some _ => t.persist s

/-- The state of a circuit that waits out its silence once more. -/
def backToCircuit : State :=
  {s with rest := {s.rest with phase := .circuit, nextProbeAt := some t.silentUntil}}

/-- The state that a recovered channel starts softly from. -/
def softStarted : State :=
  {s with rest := {s.rest with
    phase := .softStart, softStartPending := true
    proposedWeight := t.params.recoveryWeight t.base.baseWeight t.params.softStartMultiplier}}

/-- The round proved that the channel serves again. -/
def recover : Job Unit :=
  if capacityRecoveryBlocked t.base s then t.persist s
  else if t.mode = .auto ∧ (s.circuitDisabled ∨ t.schedule.closed) then
    t.startCircuitStatus {s with
      circuitStatusTarget := 1
      rest := {s.rest with
        proposedWeight := t.params.recoveryWeight t.base.baseWeight t.params.softStartMultiplier}}
  else
    let s := t.softStarted s
    if t.mode = .auto then do
      match ← t.createTrackedWeightChange s .circuitRecovered with
      | (none, s) => t.persist (resetCounts s)
      | (some e, s) => t.evaluatePassive (resetCounts (t.noteWriteFailure (t.backToCircuit
          {s with rest := {s.rest with softStartPending := false}}) e))
    else t.persist (resetCounts s)

/-- A completed round, once it is known whether every attempt was settled. -/
def foldRound (completeRound : Bool) : Job Unit :=
  if t.mode = .auto ∧ !s.circuitDisabled ∧
      (completeRound ∧ s.probeSuccesses = 0 ∧ s.probeSlowStreak < t.params.probeSlowLimit ∨
        t.params.probeSlowLimit ≤ s.probeSlowStreak) then
    t.startCircuitStatus {s with
      circuitDisabled := true, circuitStatusTarget := 2, rest := {s.rest with proposedWeight := 0}}
  else if (t.mode ≠ .auto ∨ completeRound) ∧
      t.recovers s.probeAttempts s.probeSuccesses s.probeDurationSum ∧
      s.probeSlowStreak < t.params.probeSlowLimit then t.recover s
  else t.evaluatePassive (resetCounts (t.backToCircuit s))

/-- A round is complete when the attempts are those that its command asked for. -/
def evaluateRound : Job Unit :=
  if s.rest.phase = .probing ∧ s.probeCommandID = none then
    if t.mode = .auto then do
      match ← completedProbeCount with
      | none => pure ()
      | some expected => t.foldRound s (0 < expected ∧ s.probeAttempts = expected ∧
          0 ≤ s.probeSuccesses ∧ s.probeSuccesses ≤ expected)
    else t.foldRound s false
  else t.evaluatePassive s

/-- A status target waits for its command. -/
def evaluateTarget : Job Unit :=
  if t.mode ≠ .auto then t.persist s
  else if s.circuitStatusTarget = 1 ∧ s.rest.circuitStatusCommandID = "" ∧ t.schedule.enabled ∧
      !t.schedule.allowed then
    t.persist (t.resetFailedCircuitEnable t.params.silentMinutes s)
  else do t.persist (← t.advanceCircuitStatus s)

/-- The branches of a weighted channel before a round is looked at. -/
def evaluateWeighted : Job Unit :=
  if t.params.writeMaxAttempts ≤ s.rest.writeFailureStreak ∧ s.rest.circuitStatusCommandID = "" ∧
      s.rest.capacity.pendingCommandID = "" then
    t.persist (t.finishFailedWrite s)
  else if s.circuitDisabled ∧ t.mode ≠ .auto then pure ()
  else if s.circuitStatusTarget ≠ 0 then t.evaluateTarget s
  else if t.mode = .auto ∧ t.schedule.enabled ∧ !t.schedule.allowed ∧
      (s.rest.phase = .circuit ∨ s.rest.phase = .probing) then pure ()
  else if s.rest.capacity.pendingCommandID ≠ "" ∧ s.rest.phase ≠ .normal then t.persist s
  else if s.rest.phase = .circuit ∧ t.mode = .observe ∧ 0 < t.foldedRequests then
    t.evaluateRound {s with
      probeAttempts := s.probeAttempts + t.foldedRequests
      probeSuccesses := s.probeSuccesses + max (t.foldedRequests - t.foldedErrors) 0}
  else t.evaluateRound s

/-- The state of a channel that should carry no traffic. -/
def unweighted : State :=
  let s := resetCounts {s with
    probeCommandID := none
    rest := {s.rest with
      phase := .normal, circuitOpenedAt := none, nextProbeAt := none, softStartPending := false
      proposedWeight := 0}}
  if s.pausedReason = .other "write_failed" then noteWriteSuccess s else s

def unmixed : State :=
  {s with pausedReason := if s.pausedReason = .other "mixed_channel" then .clear else s.pausedReason}

/-- What an operator excluded, a channel of several models, a channel without weight. -/
def evaluateOwned : Job Unit :=
  if s.circuitDisabled ∧ (t.base.baseWeight ≤ 0 ∨ 1 < t.base.models) then pure () else
  if 1 < t.base.models then
    t.persist {s with
      pausedReason := .other "mixed_channel", rest := {s.rest with proposedWeight := t.base.baseWeight}}
  else
  if t.base.baseWeight ≤ 0 then t.persist (unweighted (unmixed s)) else
  t.evaluateWeighted (unmixed s)

/-- The channel's capacity by the tick's rates; a reduction needs a peer to divert to. -/
def capacityUpdated : State :=
  let s := updateCapacity t.params.capacity t.base s t.ratesAsOf t.now t.ratesAvailable
    t.params.capacityMaxDecreasePercent
  let c := s.rest.capacity
  if c.fresh ∧ (c.phase = .reducing ∨ c.pendingCommandID ≠ "") then
    {s with rest := {s.rest with capacity := {c with
      reason := t.diversionReason
      phase := if !t.canDivert ∧ c.pendingCommandID = "" then .noHeadroom else c.phase}}}
  else s

/-- The rates of the tick, and whether they reach a limit. -/
def withRates : State :=
  {s with rest := {s.rest with
    metricRPM := t.metricRPM, metricTPM := t.metricTPM
    capacityLimited :=
      decide (0 < t.base.maxRPM ∧ float64 t.base.maxRPM ≤ t.metricRPM) ||
        decide (0 < t.base.maxTPM ∧ float64 t.base.maxTPM ≤ t.metricTPM) ||
        (!t.ratesAvailable && t.base.capacityConfigured)}}

/-- The capacity's part of an evaluation: `settleCapacityWrite` and `updateCapacity`. -/
def evaluateCapacity : Job State :=
  let s := t.withRates s
  if t.hasRateSnapshot ∨ s.rest.capacity.initialized then do
    let s ← t.settleCapacityWrite s
    pure (t.capacityUpdated s)
  else pure s

/-- The state as the evaluation takes it up. -/
def takenUp (previous : State) : State :=
  {previous with
    modelName := t.model
    pausedReason := if previous.pausedReason = .other "manual_override" then .clear else previous.pausedReason
    rest := {previous.rest with
      phase := if previous.rest.phase = .blank then .normal else previous.rest.phase}}

/-- The evaluation up to its capacity update, and the state it goes on with, if it
does. A failed write pauses nothing in a mode that does not write. -/
def updateChannel (known : Bool) (previous : State) : Job (Option State) :=
  if previous.pausedReason = .manualDisabled then pure none else
  if t.evidenceGap ∧ known ∧ previous.modelName = t.model ∧
      ¬(t.mode ≠ .auto ∧ previous.pausedReason = .other "write_failed") ∧
      (previous.rest.phase = .normal ∨ previous.rest.phase = .blank) ∧ 0 < t.base.baseWeight ∧
      t.base.models ≤ 1 ∧ !t.base.capacityConfigured ∧ previous.rest.capacity.pendingCommandID = "" then
    pure none
  else do
    let s := t.takenUp previous
    if t.mode ≠ .auto ∧ s.pausedReason = .other "write_failed" then
      let s : State := {noteWriteSuccess s with updatedAt := t.now}
      let _ ← put s
      some <$> t.evaluateCapacity s
    else some <$> t.evaluateCapacity s

/-- The channel's job in `evaluateContinuous`, past the fence, on the state that the
tick listed. -/
def evaluate (known : Bool) (previous : State) : Job Unit := do
  match ← t.updateChannel known previous with
  | none => pure ()
  | some s => t.evaluateOwned s

end Tick

/-! ### The fast circuit -/

structure FastCircuit extends Setting where
  model : String
  /-- The policy of the state's last evaluation. -/
  stored : Params

/-- The channel's job in `evaluateFastCircuit`, on its latest state. -/
def FastCircuit.evaluate (t : FastCircuit) (latest : State) : Job Unit :=
  let s : State := {latest with rest := {latest.rest with
    phase := if latest.rest.phase = .blank then .normal else latest.rest.phase}}
  if s.pausedReason = .manualDisabled ∨ s.rest.phase ≠ .normal ∨
      !t.stored.writeAttemptAllowed s t.now then pure () else do
  let s := t.opened s
  let s : State := {s with
    modelName := t.model, probeCommandID := none, rest := {s.rest with softStartPending := false}}
  match ← t.createTrackedWeightChange s .circuitOpened with
  | (none, s) => t.persist s
  | (some e, s) => t.persist (t.noteWriteFailure (Setting.unopened s) e)

/-! ### Routine evidence -/

structure RoutineEvidence extends Setting where
  model : String
  /-- The revision that the probes ran under. -/
  revision : Nat
  /-- The policy and the channel let routine probes act. -/
  eligible : Bool

def routineEligible (s : State) : Bool :=
  decide (s.pausedReason ≠ .manualDisabled) && !s.circuitDisabled && !s.rest.routineCircuitLatched &&
    decide (s.rest.phase = .blank ∨ s.rest.phase = .normal ∨ s.rest.phase = .softStart)

/-- The fault is latched and the channel is to be disabled. -/
def RoutineEvidence.latched (t : RoutineEvidence) (s : State) : State :=
  let s := forgetWrite s
  resetCounts {s with
    circuitDisabled := true, circuitStatusTarget := 2, probeCommandID := none
    rest := {s.rest with
      routineCircuitLatched := true, phase := .circuit, proposedWeight := 0
      circuitOpenedAt := some t.now, softStartPending := false}}

/-- `applyRoutineEvidence` once the streak has tripped, on the channel's latest state. -/
def RoutineEvidence.evaluate (t : RoutineEvidence) (latest : State) : Job Unit :=
  if latest.controlRevision ≠ t.revision ∨ !t.eligible ∨ !routineEligible latest then pure () else do
  let s := t.latched (← t.settleCapacityWrite {latest with modelName := t.model})
  match ← put s with
  | some _ => pure ()
  | none => t.persist (← t.advanceCircuitStatus s)

end ControlTower.Dispatch
