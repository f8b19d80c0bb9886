import ControlTower.Tuning.Row

/-! One channel's evaluation in a tick of the engine.

The evaluation starts from the row that the tick listed, talks to the store and
ends. It is written as the requests it makes, each with what it does on the
answer, so that everything else may happen between any two of them. Of the state
it carries the columns that decide how it goes on; what it computes from metrics,
weights and the policy comes with the tick as verdicts. -/
namespace ControlTower.Tuning
open Go

inductive CircuitPhase where
  /-- The empty text of a state that was never written. -/
  | blank
  | normal
  | circuit
  | probing
  | softStart
deriving DecidableEq

structure Capacity where
  initialized : Bool := false
  pendingCommandID : String := ""
  pendingWeight : Int := 0
deriving DecidableEq

/-- The columns beside those of `Row` that an evaluation goes by. -/
structure Circuit where
  phase : CircuitPhase := .normal
  nextProbeAt : Option Time := none
  softStartPending : Bool := false
  circuitStatusCommandID : String := ""
  routineCircuitLatched : Bool := false
  writeFailureStreak : Int := 0
  lastWriteFailureAt : Option Time := none
  capacity : Capacity := {}
deriving DecidableEq

abbrev TickState := ContinuousState Circuit

/-- A row as `ListContinuousStates` returns it; a channel that has none starts
from the zero value. -/
def readState : Option (Row Circuit) → TickState
  | none => ⟨"", 0, .clear, false, 0, none, Time.zero, none, 0, 0, 0, 0, {phase := .blank}⟩
  | some r => ⟨r.modelName, r.controlRevision, r.pausedReason, r.circuitDisabled, r.circuitStatusTarget,
      r.lastWriteAt, r.updatedAt, r.probe.commandID, r.probe.attempts, r.probe.successes,
      r.probe.durationSum, r.probe.slowStreak, r.rest⟩

/-! ### Requests -/

/-- What folding a finished round decides. -/
inductive Decision where
  | probeFailed
  | circuitRecovered
  | statusTarget (target : Int)
deriving DecidableEq

inductive WriteErr where
  | superseded
  | failed
deriving DecidableEq

inductive CommandStatus where
  | pending
  | delivered
  | succeeded
  | superseded
  | other (text : String)
deriving DecidableEq

/-- An automatic recommendation, as far as its creation marks the row. -/
structure Change where
  revision : Nat
  status : Option Int
  weight : Int
  /-- The rule is `circuit_opened`. -/
  opened : Bool

inductive Created where
  | refused (e : WriteErr)
  /-- The command's id, empty for a confirmed direct write whose audit failed; the
  clock; and whether the command was queued for an agent. -/
  | made (id : String) (clock : Time) (queued : Bool)

/-- What is left of an evaluation. -/
inductive Eval where
  | done
  /-- `PutContinuousState`, and whether it was committed. -/
  | put (v : TickState) (next : Bool → Eval)
  /-- `CreateContinuousWeightChange`. -/
  | change (c : Change) (next : Created → Eval)
  /-- `CreateContinuousProbe`. -/
  | probe (next : Option String → Eval)
  /-- `ContinuousCommandResult` and `ContinuousCommandStatus`, with the time of completion. -/
  | status (id : String) (next : Option (CommandStatus × Option Time) → Eval)
  /-- `CompletedProbeCount`. -/
  | completedProbeCount (next : Option Int → Eval)
  /-- A finished round is folded. -/
  | fold (d : Decision) (next : Eval)

/-- What the creation of a command writes to the row, in its own transaction: the
marker of a status command, or for a queued weight the link of `linkCapacityCommand`. -/
def Change.mark (c : Change) (id : String) (queued : Bool) (r : Row Circuit) : Row Circuit :=
  if id = "" then r else
  match c.status with
  | some target =>
    if r.controlRevision = c.revision then
      {r with circuitStatusTarget := target, rest := {r.rest with circuitStatusCommandID := id}}
    else r
  | none =>
    if queued ∧ (r.rest.capacity.pendingCommandID = "" ∨ c.opened) then
      {r with rest := {r.rest with
        capacity := {r.rest.capacity with pendingCommandID := id, pendingWeight := c.weight}}}
    else r

/-! ### The tick -/

inductive Mode where
  | auto
  | observe
  | off
deriving DecidableEq

structure Control where
  enabled : Bool := false
  allowed : Bool := false
  closed : Bool := false

structure Rules where
  silentMinutes : Int
  writeMaxAttempts : Int
  writePauseAttempts : Int
  writeRetrySeconds : Int
  probeSlowLimit : Int
  probeCount : Int
  recoveryLostSeconds : Int

structure Tick where
  now : Time
  model : String
  mode : Mode
  rules : Rules
  /-- `SilentMinutes` of the policy at the moment an unapplied write is taken back. -/
  latestSilentMinutes : Int
  schedule : Control
  baseWeight : Int
  /-- How many models the channel serves. -/
  models : Nat
  capacityConfigured : Bool
  hasRateSnapshot : Bool
  /-- `CapacityLimited`, as the tick's rates leave it. -/
  capacityLimited : Bool
  /-- No metrics, no fresh probe speed, an earlier sample and no capacity to keep. -/
  evidenceGap : Bool
  /-- The requests and errors of the buckets folded in this tick. -/
  foldedRequests : Int
  foldedErrors : Int
  /-- `probeMultiplier >= p.RecoveryThreshold`, by attempts, successes and duration. -/
  recovers : Int → Int → Rat → Bool
  /-- `passiveErrorRate <= p.RecoveryErrorRate`, by attempts and successes. -/
  passiveRecovers : Int → Int → Bool
  recoveryWeight : Int
  /-- Enough requests, and an error rate that opens the circuit. -/
  trips : Bool
  /-- Too few samples to move the weight. -/
  sparse : Bool
  weight : Int
  needsWrite : Bool

def Time.minutes (n : Int) : Time := n * 60000000000
def Time.seconds (n : Int) : Time := n * 1000000000

/-! ### What the helpers do to a state -/

def ContinuousState.resetCounts (s : TickState) : TickState :=
  {s with probeAttempts := 0, probeSuccesses := 0, probeDurationSum := 0, probeSlowStreak := 0}

def ContinuousState.noteWriteSuccess (s : TickState) : TickState :=
  {s with
    pausedReason := if s.pausedReason = .other "write_failed" then .clear else s.pausedReason
    rest := {s.rest with writeFailureStreak := 0, lastWriteFailureAt := none}}

namespace Tick

variable (t : Tick) (s : TickState)

def noteWriteFailure : WriteErr → TickState
  | .superseded => s
  | .failed => {s with
      pausedReason :=
        if t.rules.writePauseAttempts ≤ s.rest.writeFailureStreak + 1 ∧ s.pausedReason = .clear then
          .other "write_failed"
        else s.pausedReason
      rest := {s.rest with
        writeFailureStreak := s.rest.writeFailureStreak + 1, lastWriteFailureAt := some t.now}}

def writeAttemptAllowed : Bool :=
  if t.rules.writeMaxAttempts ≤ s.rest.writeFailureStreak then false else
  if s.pausedReason = .clear then true else
  if s.pausedReason ≠ .other "write_failed" then false else
  s.rest.lastWriteFailureAt.all fun failedAt => failedAt + Time.seconds t.rules.writeRetrySeconds ≤ t.now

def capacityRecoveryBlocked : Bool :=
  s.rest.capacity.pendingCommandID ≠ "" || (t.capacityConfigured && t.capacityLimited)

/-- `resetFailedCircuitEnable`, with the policy's `SilentMinutes`. -/
def resetFailedCircuitEnable (silentMinutes : Int) (s : TickState) : TickState :=
  {s with
    circuitStatusTarget := 0
    rest := {s.rest with
      circuitStatusCommandID := "", phase := .circuit, softStartPending := false
      nextProbeAt := some (t.now + Time.minutes silentMinutes)}}.resetCounts

def confirmCapacityWrite (weight : Int) (appliedAt : Time) : TickState :=
  {s with
    lastWriteAt := some appliedAt
    rest := {s.rest with
      capacity := {s.rest.capacity with pendingCommandID := ""}
      nextProbeAt :=
        if s.rest.phase = .circuit ∧ weight = 0 then
          some (appliedAt + Time.minutes t.rules.silentMinutes)
        else s.rest.nextProbeAt}}

def resetUnappliedCapacityTransition : TickState :=
  if s.rest.phase = .softStart then t.resetFailedCircuitEnable t.latestSilentMinutes s else
  if s.rest.phase = .circuit ∧ s.rest.capacity.pendingWeight = 0 then
    {s with rest := {s.rest with phase := .normal, nextProbeAt := none}}
  else s

/-- The state once the outcome of its pending command is known. -/
def settled : Option (CommandStatus × Option Time) → TickState
  | none | some (.pending, _) | some (.delivered, _) => s
  | some (.succeeded, completedAt) =>
    (t.confirmCapacityWrite s s.rest.capacity.pendingWeight (completedAt.getD t.now)).noteWriteSuccess
  | some (.superseded, _) =>
    t.resetUnappliedCapacityTransition
      {s with rest := {s.rest with capacity := {s.rest.capacity with pendingCommandID := ""}}}
  | some (.other _, _) =>
    t.noteWriteFailure (t.resetUnappliedCapacityTransition
      {s with rest := {s.rest with capacity := {s.rest.capacity with pendingCommandID := ""}}}) .failed

/-- The state once its status command succeeded. -/
def statusApplied (target : Int) : TickState :=
  let s := ({s with
    circuitStatusTarget := 0, lastWriteAt := some t.now
    rest := {s.rest with circuitStatusCommandID := ""}} : TickState).resetCounts.noteWriteSuccess
  if target = 2 ∨ target = 3 then
    {s with rest := {s.rest with
      phase := .circuit, nextProbeAt := some (t.now + Time.minutes t.rules.silentMinutes)}}
  else
    {s with
      circuitDisabled := false
      rest := {s.rest with routineCircuitLatched := false, phase := .softStart, softStartPending := true}}

/-- The state after a status write that was refused or did not succeed. -/
def statusFailed (target : Int) (e : WriteErr) : TickState :=
  if target = 1 then t.resetFailedCircuitEnable t.rules.silentMinutes (t.noteWriteFailure s e)
  else t.noteWriteFailure s e

def finishFailedWrite : TickState :=
  if s.rest.routineCircuitLatched ∧ s.circuitStatusTarget = 2 then
    if s.rest.lastWriteFailureAt.any
        fun failedAt => t.now < failedAt + Time.seconds t.rules.writeRetrySeconds then s
    else ({s with rest := {s.rest with phase := .circuit, circuitStatusCommandID := ""}} :
      TickState).noteWriteSuccess
  else
    let s := ({s with
      circuitDisabled :=
        s.circuitDisabled && !(s.circuitStatusTarget == 2 || s.circuitStatusTarget == 3)
      circuitStatusTarget := 0, probeCommandID := none, lastWriteAt := none
      rest := {s.rest with circuitStatusCommandID := ""}} : TickState).resetCounts
    if s.circuitDisabled then
      (t.resetFailedCircuitEnable t.rules.silentMinutes s).noteWriteSuccess
    else ({s with rest := {s.rest with
      phase := .normal, softStartPending := false, nextProbeAt := none}} : TickState).noteWriteSuccess

/-! ### The evaluation -/

/-- `state.UpdatedAt = now`, the last put, and the return. -/
def persist : Eval := .put {s with updatedAt := t.now} fun _ => .done

def settleCapacityWrite (next : TickState → Eval) : Eval :=
  if s.rest.capacity.pendingCommandID = "" then next s else
  .status s.rest.capacity.pendingCommandID fun answer => next (t.settled s answer)

def createTrackedWeightChange (weight : Int) (opened : Bool)
    (next : Option WriteErr → TickState → Eval) : Eval :=
  if !t.writeAttemptAllowed s then next (some .superseded) s else
  let s : TickState := {s with
    updatedAt := t.now
    rest := {s.rest with capacity := {s.rest.capacity with initialized := true}}}
  .put s fun committed =>
    if !committed then next (some .superseded) s else
    .change ⟨s.controlRevision, none, weight, opened⟩ fun created => match created with
      | .refused e => next (some e) s
      | .made id clock _ =>
        let s : TickState := {s with rest := {s.rest with
          capacity := {s.rest.capacity with pendingCommandID := id, pendingWeight := weight}}}
        if id = "" then next none (t.confirmCapacityWrite s weight clock).noteWriteSuccess
        else t.settleCapacityWrite s (next none)

/-- The second half of `advanceCircuitStatus`: a command is on its way. -/
def awaitCircuitStatus (target : Int) (next : TickState → Eval) : Eval :=
  .status s.rest.circuitStatusCommandID fun answer => match answer with
    | none | some (.pending, _) | some (.delivered, _) => next s
    | some (.succeeded, _) => next (t.statusApplied s target)
    | some (.superseded, _) | some (.other _, _) =>
      next (t.statusFailed {s with rest := {s.rest with circuitStatusCommandID := ""}} target .failed)

def enqueueCircuitStatus (target : Int) (next : TickState → Eval) : Eval :=
  if s.rest.circuitStatusCommandID ≠ "" then t.awaitCircuitStatus s target next else
  if target = 1 ∧ t.capacityRecoveryBlocked s then next s else
  if !t.writeAttemptAllowed s then next s else
  .change ⟨s.controlRevision, some target, 0, false⟩ fun created => match created with
    | .refused e => next (t.statusFailed s target e)
    | .made id _ _ =>
      -- A direct write that was confirmed without an audit is not repeated.
      if id = "" then next (t.statusApplied s target)
      else t.awaitCircuitStatus {s with rest := {s.rest with circuitStatusCommandID := id}} target next

def advanceCircuitStatus (next : TickState → Eval) : Eval :=
  if s.circuitStatusTarget = 3 ∧ s.rest.circuitStatusCommandID = "" then
    let s : TickState := {s with circuitStatusTarget := 2}
    .put s fun committed => if committed then t.enqueueCircuitStatus s 2 next else next s
  else t.enqueueCircuitStatus s s.circuitStatusTarget next

/-- A due retry with no write left has nothing to test. -/
def endIdleRetry : TickState :=
  if t.mode = .auto ∧ s.pausedReason = .other "write_failed" ∧ t.writeAttemptAllowed s ∧ !t.needsWrite then
    s.noteWriteSuccess
  else s

/-- The channel serves: its weight follows the metrics, or its circuit opens. -/
def evaluateServing : Eval :=
  if t.mode ≠ .off ∧ s.rest.phase = .normal ∧ t.trips ∧ (t.mode ≠ .auto ∨ t.writeAttemptAllowed s) then
    let s : TickState := ({s with rest := {s.rest with
      phase := .circuit
      nextProbeAt := some (t.now + Time.minutes t.rules.silentMinutes)}} : TickState).resetCounts
    if t.mode = .auto then
      t.createTrackedWeightChange s 0 true fun failure s => match failure with
        | none => t.persist s
        | some e => t.persist
            (t.noteWriteFailure {s with rest := {s.rest with phase := .normal, nextProbeAt := none}} e)
    else t.persist s
  else if t.sparse ∧ !s.rest.capacity.initialized then t.persist s
  else
    let s := t.endIdleRetry s
    if t.mode = .auto ∧ t.writeAttemptAllowed s ∧ t.needsWrite ∧
        s.rest.capacity.pendingCommandID = "" then
      t.createTrackedWeightChange s t.weight false fun failure s => match failure with
        | none => t.persist s
        | some e => t.persist (t.noteWriteFailure s e)
    else t.persist s

/-- From the circuit on: the next probe, the wait for a round, the soft start. -/
def evaluatePhase : Eval :=
  match s.rest.phase with
  | .circuit =>
    if t.mode = .auto ∧ s.rest.nextProbeAt.any (· ≤ t.now) then
      .probe fun created => match created with
        | none => t.persist s.resetCounts
        | some id => t.persist {s.resetCounts with
            probeCommandID := some id, rest := {s.rest with phase := .probing}}
    else t.persist s
  | .probing =>
    -- A round that nobody reports is given up.
    if s.rest.nextProbeAt.any
        fun next => next + Time.seconds t.rules.recoveryLostSeconds < t.now then
      t.persist {s with
        probeCommandID := none
        rest := {s.rest with
          phase := .circuit, nextProbeAt := some (t.now + Time.minutes t.rules.silentMinutes)}}
    else t.persist s
  | .softStart =>
    if s.rest.softStartPending then t.persist {s with rest := {s.rest with softStartPending := false}}
    else t.evaluateServing {s with rest := {s.rest with phase := .normal, nextProbeAt := none}}
  | .normal | .blank => t.evaluateServing s

/-- In observe mode, production traffic is the probe of an observed circuit. -/
def evaluatePassive : Eval :=
  if s.rest.phase = .circuit ∧ t.mode = .observe ∧ t.rules.probeCount ≤ s.probeAttempts then
    if t.passiveRecovers s.probeAttempts s.probeSuccesses then
      t.persist {s with
        probeAttempts := 0, probeSuccesses := 0
        rest := {s.rest with phase := .normal, nextProbeAt := none, softStartPending := false}}
    else t.evaluatePhase {s with probeAttempts := 0, probeSuccesses := 0}
  else t.evaluatePhase s

/-- Persist the target before acting on it. -/
def startCircuitStatus (target : Int) : Eval :=
  .fold (.statusTarget target)
    (.put s fun committed => if committed then t.advanceCircuitStatus s t.persist else t.persist s)

/-- The state of a circuit that waits out its silence once more. -/
def backToCircuit : TickState :=
  {s with rest := {s.rest with
    phase := .circuit, nextProbeAt := some (t.now + Time.minutes t.rules.silentMinutes)}}

/-- A completed round, once it is known whether every attempt was settled. -/
def foldRound (completeRound : Bool) : Eval :=
  if t.mode = .auto ∧ !s.circuitDisabled ∧
      (completeRound ∧ s.probeSuccesses = 0 ∧ s.probeSlowStreak < t.rules.probeSlowLimit ∨
        t.rules.probeSlowLimit ≤ s.probeSlowStreak) then
    t.startCircuitStatus {s with circuitDisabled := true, circuitStatusTarget := 2} 2
  else if (t.mode ≠ .auto ∨ completeRound) ∧
      t.recovers s.probeAttempts s.probeSuccesses s.probeDurationSum ∧
      s.probeSlowStreak < t.rules.probeSlowLimit then
    if t.capacityRecoveryBlocked s then t.persist s
    else if t.mode = .auto ∧ (s.circuitDisabled ∨ t.schedule.closed) then
      t.startCircuitStatus {s with circuitStatusTarget := 1} 1
    else .fold .circuitRecovered
      (let s : TickState := {s with rest := {s.rest with phase := .softStart, softStartPending := true}}
      if t.mode = .auto then
        t.createTrackedWeightChange s t.recoveryWeight false fun failure s => match failure with
          | none => t.persist s.resetCounts
          | some e => t.evaluatePassive (t.noteWriteFailure (t.backToCircuit
              {s with rest := {s.rest with softStartPending := false}}) e).resetCounts
      else t.persist s.resetCounts)
  else .fold .probeFailed (t.evaluatePassive (t.backToCircuit s).resetCounts)

/-- A round is complete when the attempts are those that its command asked for. -/
def evaluateRound : Eval :=
  if s.rest.phase = .probing ∧ s.probeCommandID = none then
    if t.mode = .auto then
      .completedProbeCount fun answer => match answer with
        | none => .done
        | some expected => t.foldRound s (0 < expected ∧ s.probeAttempts = expected ∧
            0 ≤ s.probeSuccesses ∧ s.probeSuccesses ≤ expected)
    else t.foldRound s false
  else t.evaluatePassive s

/-- The state of a channel that should carry no traffic. -/
def unweighted : TickState :=
  let s : TickState := {s.resetCounts with
    probeCommandID := none
    rest := {s.rest with phase := .normal, nextProbeAt := none, softStartPending := false}}
  if s.pausedReason = .other "write_failed" then s.noteWriteSuccess else s

/-- The branches of a weighted channel before a round is looked at. -/
def evaluateWeighted : Eval :=
  if t.rules.writeMaxAttempts ≤ s.rest.writeFailureStreak ∧ s.rest.circuitStatusCommandID = "" ∧
      s.rest.capacity.pendingCommandID = "" then
    t.persist (t.finishFailedWrite s)
  else if s.circuitDisabled ∧ t.mode ≠ .auto then .done
  else if s.circuitStatusTarget ≠ 0 then
    if t.mode = .auto then
      if s.circuitStatusTarget = 1 ∧ s.rest.circuitStatusCommandID = "" ∧ t.schedule.enabled ∧
          !t.schedule.allowed then
        t.persist (t.resetFailedCircuitEnable t.rules.silentMinutes s)
      else t.advanceCircuitStatus s t.persist
    else t.persist s
  else if t.mode = .auto ∧ t.schedule.enabled ∧ !t.schedule.allowed ∧
      (s.rest.phase = .circuit ∨ s.rest.phase = .probing) then .done
  else if s.rest.capacity.pendingCommandID ≠ "" ∧ s.rest.phase ≠ .normal then t.persist s
  else if s.rest.phase = .circuit ∧ t.mode = .observe ∧ 0 < t.foldedRequests then
    t.evaluateRound {s with
      probeAttempts := s.probeAttempts + t.foldedRequests
      probeSuccesses := s.probeSuccesses + max (t.foldedRequests - t.foldedErrors) 0}
  else t.evaluateRound s

def unmixed : TickState :=
  {s with pausedReason := if s.pausedReason = .other "mixed_channel" then .clear else s.pausedReason}

/-- What an operator excluded, a channel of several models, a channel without weight. -/
def evaluateOwned : Eval :=
  if s.circuitDisabled ∧ (t.baseWeight ≤ 0 ∨ 1 < t.models) then .done else
  if 1 < t.models then t.persist {s with pausedReason := .other "mixed_channel"} else
  if t.baseWeight ≤ 0 then t.persist (unweighted (unmixed s)) else
  t.evaluateWeighted (unmixed s)

/-- `settleCapacityWrite` and `updateCapacity`. -/
def evaluateCapacity : Eval :=
  if t.hasRateSnapshot ∨ s.rest.capacity.initialized then
    t.settleCapacityWrite s fun s => t.evaluateOwned {s with rest := {s.rest with
      capacity := {s.rest.capacity with
        initialized := s.rest.capacity.initialized || t.capacityConfigured}}}
  else t.evaluateOwned s

/-- The state as the evaluation takes it up. -/
def takenUp (previous : TickState) : TickState :=
  {previous with
    modelName := t.model
    pausedReason := if previous.pausedReason = .other "manual_override" then .clear else previous.pausedReason
    rest := {previous.rest with
      phase := if previous.rest.phase = .blank then .normal else previous.rest.phase}}

/-- A failed write pauses nothing in a mode that does not write. -/
def evaluateTaken : Eval :=
  if t.mode ≠ .auto ∧ s.pausedReason = .other "write_failed" then
    .put {s.noteWriteSuccess with updatedAt := t.now} fun _ =>
      t.evaluateCapacity {s.noteWriteSuccess with updatedAt := t.now}
  else t.evaluateCapacity s

/-- The channel's job in `evaluateContinuous`, past the fence, on the listed row. -/
def evaluate (row : Option (Row Circuit)) : Eval :=
  let previous := readState row
  if previous.pausedReason = .manualDisabled then .done else
  if t.evidenceGap ∧ row.isSome ∧ previous.modelName = t.model ∧
      ¬(t.mode ≠ .auto ∧ previous.pausedReason = .other "write_failed") ∧
      (previous.rest.phase = .normal ∨ previous.rest.phase = .blank) ∧ 0 < t.baseWeight ∧
      t.models ≤ 1 ∧ previous.rest.capacity.pendingCommandID = "" then .done else
  t.evaluateTaken (t.takenUp previous)

end Tick
end ControlTower.Tuning
