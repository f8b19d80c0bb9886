import Mathlib.Logic.Function.Basic
import ControlTower.Go.Time

/-! The agent's error alerts.

For every channel and every user the notifier keeps a window of the latest outcomes. A call
feeds it events, evaluates every window and sends a message for each one that has reached
the threshold, and reminders while it stays there. What evaluation notes down before a
message is sent is taken back when the sending fails. -/
namespace ControlTower.ErrorAlert
open Go

/-- The keys `channel:<id>` and `user:<id>`. -/
inductive Dimension where
  | channel (id : Int)
  | user (id : Int)
  deriving DecidableEq

structure Event where
  channelID : Int
  userID : Int
  /-- `LogType == "error"`. -/
  isError : Bool
  /-- As `ClassifyError` leaves it. -/
  httpStatus : Nat
  createdAt : Time
  /-- The clock when the event is observed. -/
  observedAt : Time

structure Outcome where
  isError : Bool
  time : Time
  deriving DecidableEq

structure RuleState where
  alerted : Bool
  episodeStartAt : Time
  episodeTotal : Nat
  lastRemindAt : Time
  deriving DecidableEq

def RuleState.zero : RuleState := ⟨false, Time.zero, 0, Time.zero⟩

structure DimensionState where
  outcomes : List Outcome
  errorRule : RuleState
  deriving DecidableEq

structure Notifier where
  window : Nat
  threshold : Nat
  windowMaxAge : Int
  remindInterval : Int
  userErrorCodes : Nat → Bool

abbrev States := Dimension → Option DimensionState

/-- What a call finds: the events, the clock of the evaluation, the disabled channels, and
whether the message of a dimension, if it has one, can be sent. -/
structure Call where
  events : List Event
  now : Time
  disabledChannels : Int → Bool
  sends : Dimension → Bool

inductive Kind where
  | alert
  | remind
  deriving DecidableEq

structure PendingMessage where
  kind : Kind
  prevRemindAt : Time

section Model
variable (n : Notifier)

/-- Errors of the caller enter no window. -/
def includeInWindow (event : Event) : Bool := !event.isError || event.httpStatus == 0 || !n.userErrorCodes event.httpStatus

/-- A time of no later than the epoch stands for none. -/
def Event.outcome (event : Event) : Outcome := ⟨event.isError, if event.createdAt < 1000000000 then event.observedAt else event.createdAt⟩

def observeLocked (states : States) (key : Dimension) (event : Event) : States :=
  let state := (states key).getD ⟨[], RuleState.zero⟩
  let outcomes := state.outcomes ++ [event.outcome]
  let rule := state.errorRule
  Function.update states key (some ⟨outcomes.drop (outcomes.length - n.window),
    if event.isError && rule.alerted then { rule with episodeTotal := rule.episodeTotal + 1 } else rule⟩)

/-- The body of the loop over the events. -/
def observeEvent (disabledChannels : Int → Bool) (states : States) (event : Event) : States :=
  let states :=
    if 0 < event.channelID && !disabledChannels event.channelID && includeInWindow n event then observeLocked n states (.channel event.channelID) event else states
  if 0 < event.userID && includeInWindow n event then observeLocked n states (.user event.userID) event else states

def isDisabled (disabledChannels : Int → Bool) : Dimension → Bool
  | .channel id => disabledChannels id
  | .user _ => false

def countErrors (outcomes : List Outcome) : Nat := outcomes.countP Outcome.isError

def evaluateRuleLocked (rs : RuleState) (count : Nat) (now : Time) : RuleState × Option PendingMessage :=
  if count < n.threshold then
    if rs.alerted then (RuleState.zero, none) else (rs, none)
  else if !rs.alerted then (⟨true, now, count, now⟩, some ⟨.alert, Time.zero⟩)
  else if 0 < n.remindInterval && n.remindInterval ≤ now - rs.lastRemindAt then
    ({ rs with lastRemindAt := now }, some ⟨.remind, rs.lastRemindAt⟩)
  else (rs, none)

/-- Entries that are too old leave the window. -/
def decayed (now : Time) (outcomes : List Outcome) : List Outcome :=
  if 0 < n.windowMaxAge then outcomes.filter fun item => now - n.windowMaxAge < item.time else outcomes

/-- The body of the loop over the states; what it does to a key depends on that key alone. -/
def evaluateLocked (disabledChannels : Int → Bool) (now : Time) (key : Dimension) (state : DimensionState) : Option DimensionState × Option PendingMessage :=
  if isDisabled disabledChannels key then (none, none)
  else
    let outcomes := decayed n now state.outcomes
    let (rule, pending) := evaluateRuleLocked n state.errorRule (countErrors outcomes) now
    (if outcomes.isEmpty && !rule.alerted then none else some ⟨outcomes, rule⟩, pending)

/-- What a failed sending takes back. -/
def sendFailed (message : PendingMessage) (state : DimensionState) : DimensionState :=
  match message.kind with
  | .remind => { state with errorRule := { state.errorRule with lastRemindAt := message.prevRemindAt } }
  | .alert => { state with errorRule := { state.errorRule with alerted := false } }

/-- What a call did about a dimension. -/
structure Visit where
  now : Time
  disabled : Bool
  /-- The errors in the window when it was evaluated. -/
  errors : Nat
  message : Option Kind
  sent : Bool
  deriving DecidableEq

/-- The evaluation of a key, and the sending of its message. -/
def visit (call : Call) (key : Dimension) (state : Option DimensionState) : Option DimensionState × Visit :=
  match state with
  | none => (none, ⟨call.now, isDisabled call.disabledChannels key, 0, none, false⟩)
  | some state =>
    let (state', pending) := evaluateLocked n call.disabledChannels call.now key state
    let errors := countErrors (decayed n call.now state.outcomes)
    let disabled := isDisabled call.disabledChannels key
    match pending with
    | none => (state', ⟨call.now, disabled, errors, none, false⟩)
    | some message =>
      if call.sends key then (state', ⟨call.now, disabled, errors, some message.kind, true⟩)
      else (state'.map (sendFailed message), ⟨call.now, disabled, errors, some message.kind, false⟩)

def process (states : States) (call : Call) : States × (Dimension → Visit) :=
  let states := call.events.foldl (observeEvent n call.disabledChannels) states
  (fun key => (visit n call key (states key)).1, fun key => (visit n call key (states key)).2)

/-- The states after some calls. -/
def statesAfter (states : States) (calls : List Call) : States := calls.foldl (fun states call => (process n states call).1) states

/-- What the calls did, one after another. -/
def visits : States → List Call → List (Dimension → Visit)
  | _, [] => []
  | states, call :: rest => (process n states call).2 :: visits (process n states call).1 rest

end Model

end ControlTower.ErrorAlert
